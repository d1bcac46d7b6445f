/-!
# Sequences of computations

Changes of a record and operations on a store are computations that read and write a state and may fail. One in
sequence with another is taken apart by `bind_eq_ok` and `bind_eq_error`, down to the steps that the other lemmas
describe; where a step is known to succeed, `bind_of_ok` goes on to the next. A property of states that every step
maintains is maintained by the whole (`Maintains.bind`).
-/

namespace RecordStore

variable {ε σ α β : Type} {x : EStateM ε σ α} {f : α → EStateM ε σ β} {s s' : σ}

/-- After a step that succeeds the rest is carried out. -/
theorem bind_of_ok {a : α} {t : σ} (h : x s = .ok a t) : (x >>= f) s = f a t := by
  show EStateM.bind x f s = _
  unfold EStateM.bind
  rw [h]

theorem bind_congr_left {y : EStateM ε σ α} (h : x s = y s) : (x >>= f) s = (y >>= f) s := by
  show EStateM.bind x f s = EStateM.bind y f s
  unfold EStateM.bind
  rw [h]

theorem bind_eq_ok {b : β} : (x >>= f) s = .ok b s' ↔ ∃ a t, x s = .ok a t ∧ f a t = .ok b s' := by
  show EStateM.bind x f s = .ok b s' ↔ _
  unfold EStateM.bind
  cases x s <;> simp [and_assoc]

theorem bind_eq_error {e : ε} :
    (x >>= f) s = .error e s' ↔ x s = .error e s' ∨ ∃ a t, x s = .ok a t ∧ f a t = .error e s' := by
  show EStateM.bind x f s = .error e s' ↔ _
  unfold EStateM.bind
  cases x s <;> simp [and_assoc]

theorem pure_eq_ok {a b : α} : (pure a : EStateM ε σ α) s = .ok b s' ↔ a = b ∧ s = s' := by
  show EStateM.Result.ok a s = .ok b s' ↔ _
  simp

theorem get_eq_ok {t : σ} : (get : EStateM ε σ σ) s = .ok t s' ↔ s = t ∧ s = s' := by
  show EStateM.Result.ok s s = .ok t s' ↔ _
  simp

theorem modify_eq_ok {g : σ → σ} {u : PUnit} : (modify g : EStateM ε σ PUnit) s = .ok u s' ↔ s' = g s := by
  show EStateM.Result.ok PUnit.unit (g s) = .ok u s' ↔ _
  simp [eq_comm]

theorem throw_ne_ok {e : ε} {a : α} : (throw e : EStateM ε σ α) s ≠ .ok a s' := nofun

theorem ofExcept_eq_ok {r : Except ε α} {a : α} :
    (MonadExcept.ofExcept r : EStateM ε σ α) s = .ok a s' ↔ r = .ok a ∧ s = s' := by
  cases r with
  | ok b =>
    show EStateM.Result.ok b s = .ok a s' ↔ _
    simp
  | error e =>
    show EStateM.Result.error e s = .ok a s' ↔ _
    simp

/-! ## Properties along a sequence -/

/-- From a state with a property the computation ends in another one, with a result of which `R` holds, or it fails in
the way that `F` allows. -/
structure Maintains (I : σ → Prop) (F : ε → σ → Prop) (x : EStateM ε σ α) (R : α → Prop) : Prop where
  ok : ∀ s a s', I s → x s = .ok a s' → I s' ∧ R a
  error : ∀ s e s', I s → x s = .error e s' → F e s'

namespace Maintains

variable {I : σ → Prop} {F : ε → σ → Prop} {R : α → Prop} {T : β → Prop}

theorem bind (hx : Maintains I F x R) (hf : ∀ a, R a → Maintains I F (f a) T) : Maintains I F (x >>= f) T where
  ok s b s' hs h := by
    obtain ⟨a, t, hxs, h⟩ := bind_eq_ok.1 h
    obtain ⟨ht, ha⟩ := hx.ok s a t hs hxs
    exact (hf a ha).ok t b s' ht h
  error s e s' hs h := by
    rcases bind_eq_error.1 h with h | ⟨a, t, hxs, h⟩
    · exact hx.error s e s' hs h
    · obtain ⟨ht, ha⟩ := hx.ok s a t hs hxs
      exact (hf a ha).error t e s' ht h

theorem pure {a : α} (ha : R a) : Maintains I F (pure a : EStateM ε σ α) R where
  ok s b s' hs h := by
    obtain ⟨rfl, rfl⟩ := pure_eq_ok.1 h
    exact ⟨hs, ha⟩
  error := nofun

theorem throw {e : ε} (he : ∀ s, I s → F e s) : Maintains I F (throw e : EStateM ε σ α) R where
  ok s a s' hs h := absurd h throw_ne_ok
  error s e' s' hs h := by
    cases h
    exact he s hs

theorem get : Maintains I F (get : EStateM ε σ σ) I where
  ok s t s' hs h := by
    obtain ⟨rfl, rfl⟩ := get_eq_ok.1 h
    exact ⟨hs, hs⟩
  error := nofun

theorem modify {g : σ → σ} (hg : ∀ s, I s → I (g s)) : Maintains I F (modify g : EStateM ε σ PUnit) fun _ => True where
  ok s u s' hs h := by
    rw [modify_eq_ok.1 h]
    exact ⟨hg s hs, trivial⟩
  error := nofun

theorem ofExcept {r : Except ε α} (hok : ∀ a, r = .ok a → R a) (herror : ∀ e, r = .error e → ∀ s, I s → F e s) :
    Maintains I F (MonadExcept.ofExcept r : EStateM ε σ α) R := by
  cases r with
  | ok a => exact .pure (hok a rfl)
  | error e => exact .throw (herror e rfl)

theorem forM {entries : List β} {step : β → EStateM ε σ PUnit}
    (hstep : ∀ e ∈ entries, Maintains I F (step e) fun _ => True) :
    Maintains I F (entries.forM step) fun _ => True := by
  induction entries with
  | nil => exact .pure trivial
  | cons e entries ih =>
    obtain ⟨he, hentries⟩ := List.forall_mem_cons.1 hstep
    exact .bind he fun _ _ => ih hentries

end Maintains

/-! ## Without a state -/

section Except

variable {y : Except ε α} {g : α → Except ε β}

theorem except_bind_eq_ok {b : β} : (y >>= g) = .ok b ↔ ∃ a, y = .ok a ∧ g a = .ok b := by
  cases y with
  | ok a =>
    show g a = .ok b ↔ _
    simp
  | error e =>
    show Except.error e = .ok b ↔ _
    simp

theorem except_bind_eq_error {e : ε} : (y >>= g) = .error e ↔ y = .error e ∨ ∃ a, y = .ok a ∧ g a = .error e := by
  cases y with
  | ok a =>
    show g a = .error e ↔ _
    simp
  | error e' =>
    show Except.error e' = .error e ↔ _
    simp

theorem except_map_eq_error {h : α → β} {e : ε} : (do return h (← y)) = Except.error e ↔ y = .error e := by
  rw [except_bind_eq_error]
  exact or_iff_left nofun

theorem except_pure_eq_ok {a b : α} : (pure a : Except ε α) = .ok b ↔ a = b := Except.ok.injEq a b ▸ Iff.rfl

theorem eq_ok_of_toOption {a : α} (h : y.toOption = some a) : y = .ok a := by
  cases y with
  | ok b =>
    cases h
    rfl
  | error e => cases h

end Except

end RecordStore
