import RecordStore.Proofs.Sequence
import RecordStore.Store.Operation

/-!
# Actions and what they leave alone

`Keeps view x` says that the action `x` leaves a view of the store alone however it ends, such as the tables and the
writer (`rest`), and `FailsClean x` that it leaves the tables alone when it fails: an action that keeps them up to its
last step, and writes them there without failing, fails clean (`FailsClean.bind`, `FailsClean.modify_pure`).
`OnlyDraws x` says that `x` does not read them either. `Fails x` says that `x` fails with an error of some sort, and is
worked out along a sequence of actions (`fails_bind`). An action that is guarded does the same, with the error as it is
reported (`guarded_eq_ok`, `guarded_eq_error`).
-/

namespace RecordStore.Store

variable {α β γ : Type}

/-! ## Errors as they are reported -/

section Reported

variable {w : Json.Writer} {e : Error} {kind : ErrorKind}

theorem Error.reported_of_no_fault (h : e.fault? w = none) : e.reported w = e := by
  rw [reported, h]

/-- An error that quotes nothing is told as it is. -/
theorem Error.reported_eq_idChanged_iff : e.reported w = .idChanged ↔ e = .idChanged := by
  constructor
  · intro h
    cases hfault : e.fault? w with
    | none => rwa [reported_of_no_fault hfault] at h
    | some f =>
      rw [reported, hfault] at h
      cases h
  · rintro rfl
    rfl

/-- An id that is a scalar is named without quoting anything. -/
theorem idQuoted_of_isScalar {id : Value} (h : id.isScalar = true) : idQuoted id = [] := by
  cases id with
  | arr _ | map _ => cases h
  | _ => rfl

theorem Error.fault?_duplicateId (table : String) {id : Value} (h : id.isScalar = true) :
    (duplicateId table id).fault? w = none := by
  rw [fault?, quoted, idQuoted_of_isScalar h]
  · rfl
  · nofun
  · nofun

end Reported

/-! ## Guarded actions -/

section Guarded

variable {x : Action α} {s s' : Store}

theorem guarded_eq_ok {a : α} : guarded x s = .ok a s' ↔ x s = .ok a s' := by
  unfold guarded
  cases x s <;> simp

theorem guarded_eq_error {e : Error} :
    guarded x s = .error e s' ↔ ∃ inner, x s = .error inner s' ∧ e = inner.reported s.writer := by
  unfold guarded
  cases x s with
  | ok a t => simp
  | error inner t =>
    constructor
    · rintro ⟨⟩
      exact ⟨inner, rfl, rfl⟩
    · rintro ⟨_, ⟨⟩, rfl⟩
      rfl

end Guarded

/-! ## Actions that leave parts of the store alone -/

section Keeps

variable {view : Store → γ}

/-- All of a store but its supply of ids. -/
def rest (s : Store) : List (String × List Value) × Json.Writer := (s.tables, s.writer)

/-- An action that leaves a view of the store as it was, whether it succeeds or fails. -/
structure Keeps (view : Store → γ) (x : Action α) : Prop where
  ok : ∀ s a s', x s = .ok a s' → view s' = view s
  error : ∀ s e s', x s = .error e s' → view s' = view s

theorem Keeps.bind {x : Action α} {f : α → Action β} (hx : Keeps view x) (hf : ∀ a, Keeps view (f a)) :
    Keeps view (x >>= f) where
  ok s b s' h := by
    obtain ⟨a, t, hxs, h⟩ := bind_eq_ok.1 h
    rw [(hf a).ok t b s' h, hx.ok s a t hxs]
  error s e s' h := by
    rcases bind_eq_error.1 h with h | ⟨a, t, hxs, h⟩
    · exact hx.error s e s' h
    · rw [(hf a).error t e s' h, hx.ok s a t hxs]

theorem Keeps.pure (a : α) : Keeps view (pure a : Action α) where
  ok s b s' h := by rw [(pure_eq_ok.1 h).2]
  error := nofun

theorem Keeps.throw (e : Error) : Keeps view (throw e : Action α) where
  ok s a s' h := absurd h throw_ne_ok
  error s e' s' h := by cases h; rfl

theorem Keeps.get : Keeps view (get : Action Store) where
  ok s a s' h := by rw [(get_eq_ok.1 h).2]
  error := nofun

theorem Keeps.modify {g : Store → Store} (hg : ∀ s, view (g s) = view s) : Keeps view (modify g : Action PUnit) where
  ok s a s' h := by rw [modify_eq_ok.1 h, hg]
  error := nofun

theorem Keeps.ofExcept (r : Except Error α) : Keeps view (MonadExcept.ofExcept r : Action α) := by
  cases r with
  | ok a => exact .pure a
  | error e => exact .throw e

theorem Keeps.accessed (content : Option α) : Keeps view (accessed content) := by
  cases content with
  | none => exact .throw _
  | some a => exact .pure a

theorem Keeps.comp {δ : Type} {x : Action α} (hx : Keeps view x) (g : γ → δ) : Keeps (g ∘ view) x where
  ok s a s' h := congrArg g (hx.ok s a s' h)
  error s e s' h := congrArg g (hx.error s e s' h)

theorem Keeps.guarded {x : Action α} (hx : Keeps view x) : Keeps view (guarded x) where
  ok s a s' h := hx.ok s a s' (guarded_eq_ok.1 h)
  error s e s' h := by
    obtain ⟨inner, hinner, -⟩ := guarded_eq_error.1 h
    exact hx.error s inner s' hinner

end Keeps

/-- An action that leaves the writer as it was, and when it fails the tables as well. -/
structure FailsClean (x : Action α) : Prop where
  writer : Keeps writer x
  tables : ∀ s e s', x s = .error e s' → s'.tables = s.tables

theorem Keeps.failsClean {x : Action α} (hx : Keeps rest x) : FailsClean x where
  writer := hx.comp Prod.snd
  tables := (hx.comp Prod.fst).error

theorem FailsClean.pure (a : α) : FailsClean (pure a : Action α) := (Keeps.pure a).failsClean

theorem FailsClean.throw (e : Error) : FailsClean (throw e : Action α) := (Keeps.throw e).failsClean

theorem FailsClean.bind {x : Action α} {f : α → Action β} (hx : Keeps rest x) (hf : ∀ a, FailsClean (f a)) :
    FailsClean (x >>= f) where
  writer := .bind (hx.comp Prod.snd) fun a => (hf a).writer
  tables s e s' h := by
    have hkeeps : Keeps Store.tables x := hx.comp Prod.fst
    rcases bind_eq_error.1 h with h | ⟨a, t, hxs, h⟩
    · exact hkeeps.error s e s' h
    · rw [(hf a).tables t e s' h, hkeeps.ok s a t hxs]

theorem FailsClean.guarded {x : Action α} (hx : FailsClean x) : FailsClean (guarded x) where
  writer := hx.writer.guarded
  tables s e s' h := by
    obtain ⟨inner, hinner, -⟩ := guarded_eq_error.1 h
    exact hx.tables s inner s' hinner

/-- An action that writes its result to the tables in its last step. -/
theorem FailsClean.setRecords_pure (table : String) (rows : Store → List Value) (a : α) :
    FailsClean (do modify fun s => s.setRecords table (rows s); return a) where
  writer := .bind (.modify fun _ => rfl) fun _ => .pure a
  tables := nofun

/-! ## Actions that only draw ids -/

/-- The end of an action, with other tables and another writer in the store. -/
def withRest (tables : List (String × List Value)) (writer : Json.Writer) :
    EStateM.Result Error Store α → EStateM.Result Error Store α
  | .ok a s => .ok a { s with tables, writer }
  | .error e s => .error e { s with tables, writer }

section OnlyDraws

variable {tables : List (String × List Value)} {writer : Json.Writer} {r : EStateM.Result Error Store α} {s' : Store}

theorem withRest_eq_ok {a : α} :
    withRest tables writer r = .ok a s' ↔ ∃ t, r = .ok a t ∧ s' = { t with tables, writer } := by
  cases r <;> simp [withRest, eq_comm, and_assoc]

theorem withRest_eq_error {e : Error} :
    withRest tables writer r = .error e s' ↔ ∃ t, r = .error e t ∧ s' = { t with tables, writer } := by
  cases r <;> simp [withRest, eq_comm, and_assoc]

/-- An action that ends in the same way whatever the tables and the writer are, and leaves them as they were. -/
def OnlyDraws (x : Action α) : Prop :=
  ∀ (s : Store) (tables : List (String × List Value)) (writer : Json.Writer),
    x { s with tables, writer } = withRest tables writer (x s)

theorem OnlyDraws.keeps {x : Action α} (hx : OnlyDraws x) : Keeps rest x where
  ok s a s' h := by
    have hs := hx s s.tables s.writer
    rw [h] at hs
    obtain ⟨t, -, rfl⟩ := withRest_eq_ok.1 hs.symm
    rfl
  error s e s' h := by
    have hs := hx s s.tables s.writer
    rw [h] at hs
    obtain ⟨t, -, rfl⟩ := withRest_eq_error.1 hs.symm
    rfl

theorem OnlyDraws.pure (a : α) : OnlyDraws (pure a : Action α) := fun _ _ _ => rfl

theorem OnlyDraws.throw (e : Error) : OnlyDraws (throw e : Action α) := fun _ _ _ => rfl

theorem OnlyDraws.accessed (content : Option α) : OnlyDraws (accessed content) := by
  cases content with
  | none => exact .throw _
  | some a => exact .pure a

theorem OnlyDraws.bind {x : Action α} {f : α → Action β} (hx : OnlyDraws x) (hf : ∀ a, OnlyDraws (f a)) :
    OnlyDraws (x >>= f) := by
  intro s tables writer
  show EStateM.bind x f { s with tables, writer } = withRest tables writer (EStateM.bind x f s)
  unfold EStateM.bind
  rw [hx]
  cases x s with
  | ok a t => exact hf a t tables writer
  | error e t => rfl

end OnlyDraws

/-! ## Ways to fail -/

/-- The action fails, with an error of which `P` holds. -/
def Fails (x : Action α) (s : Store) (P : Error → Prop) : Prop := ∃ e s', x s = .error e s' ∧ P e

section Fails

variable {s : Store} {P : Error → Prop}

theorem fails_bind {x : Action α} {f : α → Action β} :
    Fails (x >>= f) s P ↔ Fails x s P ∨ ∃ a t, x s = .ok a t ∧ Fails (f a) t P := by
  constructor
  · rintro ⟨e, s', h, hP⟩
    rcases bind_eq_error.1 h with h | ⟨a, t, hx, h⟩
    · exact .inl ⟨e, s', h, hP⟩
    · exact .inr ⟨a, t, hx, e, s', h, hP⟩
  · rintro (⟨e, s', h, hP⟩ | ⟨a, t, hx, e, s', h, hP⟩)
    · exact ⟨e, s', bind_eq_error.2 (.inl h), hP⟩
    · exact ⟨e, s', bind_eq_error.2 (.inr ⟨a, t, hx, h⟩), hP⟩

/-- After a step that succeeds the rest decides. -/
theorem fails_bind_of_ok {x : Action α} {f : α → Action β} {a : α} {t : Store} (hx : x s = .ok a t) :
    Fails (x >>= f) s P ↔ Fails (f a) t P := by
  have hnot : ¬ Fails x s P := by
    rintro ⟨e, s', h, -⟩
    cases hx.symm.trans h
  rw [fails_bind]
  constructor
  · rintro (h | ⟨_, _, hx', h⟩)
    · exact absurd h hnot
    · cases hx.symm.trans hx'
      exact h
  · exact fun h => .inr ⟨a, t, hx, h⟩

/-- A step decides if it fails. -/
theorem fails_bind_of_error {x : Action α} {f : α → Action β} {e : Error} {t : Store} (hx : x s = .error e t) :
    Fails (x >>= f) s P ↔ P e := by
  have hbind : (x >>= f) s = .error e t := bind_eq_error.2 (.inl hx)
  constructor
  · rintro ⟨e', s', h, hP⟩
    cases hbind.symm.trans h
    exact hP
  · exact fun hP => ⟨e, t, hbind, hP⟩

/-- An action followed by one that does not fail fails as it does. -/
theorem fails_bind_iff_of_not {x : Action α} {f : α → Action β} (hf : ∀ a t, ¬ Fails (f a) t P) :
    Fails (x >>= f) s P ↔ Fails x s P := by
  simp [fails_bind, hf]

theorem not_fails_pure {a : α} : ¬ Fails (pure a : Action α) s P := nofun

/-- An action that writes its result to the tables in its last step does not fail in it. -/
theorem not_fails_modify_pure {g : Store → Store} {a : α} : ¬ Fails (do modify g; return a : Action α) s P := nofun

theorem fails_throw {e : Error} : Fails (throw e : Action α) s P ↔ P e := by
  constructor
  · rintro ⟨e', s', h, hP⟩
    cases h
    exact hP
  · exact fun hP => ⟨e, s, rfl, hP⟩

/-- A guarded action fails as it does by itself, with the error as it is reported. -/
theorem fails_guarded_iff {x : Action α} : Fails (guarded x) s P ↔ Fails x s (fun e => P (e.reported s.writer)) := by
  constructor
  · rintro ⟨_, t, h, hP⟩
    obtain ⟨e, hx, rfl⟩ := guarded_eq_error.1 h
    exact ⟨e, t, hx, hP⟩
  · rintro ⟨e, t, h, hP⟩
    exact ⟨_, t, guarded_eq_error.2 ⟨e, h, rfl⟩, hP⟩

theorem fails_ofExcept {r : Except Error α} :
    Fails (MonadExcept.ofExcept r : Action α) s P ↔ ∃ e, r = .error e ∧ P e := by
  cases r with
  | ok a => exact ⟨nofun, nofun⟩
  | error e => exact fails_throw.trans (by simp)

end Fails

end RecordStore.Store
