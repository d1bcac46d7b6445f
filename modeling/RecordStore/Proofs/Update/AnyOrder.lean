import RecordStore.Proofs.Update.OnePlace

/-!
# Settings in any order

Two changes at diverging paths that both can be made in a document can be made one after the other, and come to the same
document in either order (`ChangedAt.diamond`): where the paths part each makes its own child of one container, and
which one makes room for what they have in common does not matter. So of the settings of an update each can be brought
to the front (`run_move_to_front`), and any two orders that succeed make the same record (`run_ofSet_perm`).
-/

namespace RecordStore.Update

open RecordStore.Path

/-! ## Two changes -/

section Two

variable {R S : Value → Value → Prop} {p q : List String} {v a b : Value}

/-- The induction is along both paths. Where they part, the second change finds its child as it was, or null in its
stead where the first one padded an array; before that, both are changes of one child. -/
theorem ChangedAt.diamond (ha : ChangedAt R p v a) (hb : ChangedAt S q v b) (hpq : Diverge p q) :
    ∃ c, ChangedAt S q a c ∧ ChangedAt R p b c := by
  induction p generalizing q v a b with
  | nil => exact hpq.elim
  | cons s p ih =>
    cases q with
    | nil => exact hpq.elim
    | cons t q =>
      obtain ⟨hs, c, hc, rfl⟩ := ha
      obtain ⟨ht, d, hd, rfl⟩ := hb
      obtain hapart | ⟨rfl, hpq⟩ := hpq
      · refine ⟨withChild t d (withChild s c v), ⟨ht.withChild s c, d, ?_, rfl⟩, hs.withChild t d, c, ?_, ?_⟩
        · rwa [child_withChild_of_namesApart hapart]
        · rwa [child_withChild_of_namesApart hapart.symm]
        · exact (withChild_comm hapart v c d).symm
      · obtain ⟨e, hce, hde⟩ := ih hc hd hpq
        refine ⟨withChild s e v, ⟨hs.withChild s c, e, ?_, ?_⟩, hs.withChild s d, e, ?_, ?_⟩
        · rwa [child_withChild hs]
        · exact withChild_withChild hs c e
        · rwa [child_withChild hs]
        · exact withChild_withChild hs d e

end Two

/-! ## Many settings -/

section Many

variable {first second : String} {v w record a b : Value} {e : String × Value}
  {entries entries' : List (String × Value)}

/-- The dotted paths diverge, if they are paths at all. -/
def Diverging (first second : String) : Prop :=
  ∀ p q, segments? first = some p → segments? second = some q → Diverge p q

theorem exists_segments_of_setEntry (h : setEntry first v record = .ok () a) : ∃ path, segments? first = some path := by
  cases hpath : segments? first with
  | none =>
    rw [setEntry, withPath, hpath] at h
    exact absurd h throw_ne_ok
  | some path => exact ⟨path, rfl⟩

theorem setEntry_diamond (hd : Diverging first second) (ha : setEntry first v record = .ok () a)
    (hb : setEntry second w record = .ok () b) :
    ∃ c, setEntry second w a = .ok () c ∧ setEntry first v b = .ok () c := by
  obtain ⟨p, hp⟩ := exists_segments_of_setEntry ha
  obtain ⟨q, hq⟩ := exists_segments_of_setEntry hb
  simp only [setEntry_eq_ok_iff_changedAt hp, setEntry_eq_ok_iff_changedAt hq] at ha hb ⊢
  exact ha.diamond hb (hd p q hp hq)

theorem run_ofSet_cons_eq_ok : (ofSet (e :: entries)).run record = .ok () a ↔
    ∃ mid, setEntry e.1 e.2 record = .ok () mid ∧ (ofSet entries).run mid = .ok () a := by
  have hrun : (ofSet (e :: entries)).run = (setEntry e.1 e.2 >>= fun _ => (ofSet entries).run) := by
    rw [run_ofSet, run_ofSet]
    rfl
  rw [hrun, bind_eq_ok]
  exact ⟨fun ⟨_, mid, h⟩ => ⟨mid, h⟩, fun ⟨mid, h⟩ => ⟨(), mid, h⟩⟩

/-- A setting that can be made at once may be made first. -/
theorem run_move_to_front {before after : List (String × Value)} (hd : ∀ f ∈ before, Diverging e.1 f.1)
    (he : setEntry e.1 e.2 record = .ok () a) (h : (ofSet (before ++ e :: after)).run record = .ok () b) :
    (ofSet (before ++ after)).run a = .ok () b := by
  induction before generalizing record a with
  | nil =>
    obtain ⟨mid, hmid, h⟩ := run_ofSet_cons_eq_ok.1 h
    cases he.symm.trans hmid
    exact h
  | cons f before ih =>
    obtain ⟨hf, hd⟩ := List.forall_mem_cons.1 hd
    obtain ⟨mid, hmid, h⟩ := run_ofSet_cons_eq_ok.1 h
    obtain ⟨c, hac, hmidc⟩ := setEntry_diamond hf he hmid
    exact run_ofSet_cons_eq_ok.2 ⟨c, hac, ih hd hmidc h⟩

/-- Settings at diverging paths that succeed in two orders make the same record in both. -/
theorem run_ofSet_perm (hperm : entries.Perm entries') (hd : entries.Pairwise fun e f => Diverging e.1 f.1)
    (ha : (ofSet entries).run record = .ok () a) (hb : (ofSet entries').run record = .ok () b) : a = b := by
  induction entries generalizing entries' record with
  | nil =>
    rw [List.nil_perm] at hperm
    subst hperm
    cases ha.symm.trans hb
    rfl
  | cons e entries ih =>
    obtain ⟨he, hd⟩ := List.pairwise_cons.1 hd
    obtain ⟨before, after, rfl⟩ := List.append_of_mem (hperm.subset List.mem_cons_self)
    have hrest : entries.Perm (before ++ after) := (hperm.trans List.perm_middle).cons_inv
    obtain ⟨mid, hmid, ha⟩ := run_ofSet_cons_eq_ok.1 ha
    have hbefore : ∀ f ∈ before, Diverging e.1 f.1 := fun f hf =>
      he f (hrest.symm.subset (List.mem_append_left after hf))
    exact ih hrest hd ha (run_move_to_front hbefore hmid hb)

end Many

/-! ## Two settings -/

section Pair

variable {first second : String} {p q : List String} {v w record a b ab ba : Value} {c₁ c₂ c₁₂ c₂₁ : Bool}

/-- Two settings at paths of which neither extends the other, made one after the other in both orders, come to the same
record, and so does one update of both, in whichever order it goes through them. -/
theorem set_in_any_order (hp : segments? first = some p) (hq : segments? second = some q) (hpq : ¬ p <+: q)
    (hqp : ¬ q <+: p) (hzero : ∀ s ∈ p ++ q, hasLeadingZero s = false)
    (ha : (ofSet [(first, v)]).apply record = .ok c₁ a) (hab : (ofSet [(second, w)]).apply a = .ok c₁₂ ab)
    (hb : (ofSet [(second, w)]).apply record = .ok c₂ b) (hba : (ofSet [(first, v)]).apply b = .ok c₂₁ ba) :
    ab = ba ∧ ∃ changed, (ofSet [(first, v), (second, w)]).apply record = .ok changed ab ∧
      (ofSet [(second, w), (first, v)]).apply record = .ok changed ab := by
  simp only [apply_eq_ok, run_ofSet_singleton] at ha hab hb hba
  have hd : Diverging first second := by
    intro p' q' hp' hq'
    cases hp.symm.trans hp'
    cases hq.symm.trans hq'
    exact diverge_of_neither_extends hpq hqp hzero
  have hforth : (ofSet [(first, v), (second, w)]).run record = .ok () ab :=
    run_ofSet_cons_eq_ok.2 ⟨a, ha.1, by rw [run_ofSet_singleton, hab.1]⟩
  have hback : (ofSet [(second, w), (first, v)]).run record = .ok () ba :=
    run_ofSet_cons_eq_ok.2 ⟨b, hb.1, by rw [run_ofSet_singleton, hba.1]⟩
  obtain rfl : ab = ba := run_ofSet_perm (.swap _ _ _) (by simpa using hd) hforth hback
  exact ⟨rfl, _, apply_eq_ok.2 ⟨hforth, rfl⟩, apply_eq_ok.2 ⟨hback, rfl⟩⟩

/-- One setting pads the array that both paths cross, the other one edits an element of it. -/
theorem set_in_any_order_padded :
    let edit : Value := .map [(.str "$[0]", .null)]
    let record : Value := .map [(.str "l", .arr [.arr [.int 1, .int 2]])]
    let padded : Value := .map [(.str "l", .arr [.arr [.int 1, .int 2], .null, .map [(.str "x", .int 3)]])]
    let edited : Value := .map [(.str "l", .arr [.arr [.int 2]])]
    let both : Value := .map [(.str "l", .arr [.arr [.int 2], .null, .map [(.str "x", .int 3)]])]
    (ofSet [("l.2.x", .int 3)]).apply record = .ok true padded ∧ (ofSet [("l.0", edit)]).apply padded = .ok true both ∧
      (ofSet [("l.0", edit)]).apply record = .ok true edited ∧
      (ofSet [("l.2.x", .int 3)]).apply edited = .ok true both ∧
      ∃ changed, (ofSet [("l.2.x", .int 3), ("l.0", edit)]).apply record = .ok changed both ∧
        (ofSet [("l.0", edit), ("l.2.x", .int 3)]).apply record = .ok changed both := by
  intro edit record padded edited both
  have hpad : (ofSet [("l.2.x", .int 3)]).apply record = .ok true padded := rfl
  have hpadEdit : (ofSet [("l.0", edit)]).apply padded = .ok true both := rfl
  have hedit : (ofSet [("l.0", edit)]).apply record = .ok true edited := rfl
  have heditPad : (ofSet [("l.2.x", .int 3)]).apply edited = .ok true both := rfl
  have hp : segments? "l.2.x" = some ["l", "2", "x"] := rfl
  have hq : segments? "l.0" = some ["l", "0"] := rfl
  exact ⟨hpad, hpadEdit, hedit, heditPad,
    (set_in_any_order hp hq (by decide) (by decide) (by decide) hpad hpadEdit hedit heditPad).2⟩

end Pair

end RecordStore.Update
