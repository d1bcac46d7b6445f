import RecordStore.Proofs.Update.ReadBack

/-!
# A setting changes one place

Making room at a path and changing what is there is a change of a child of a child of the record (`ChangedAt`,
`changedAt_iff`). By induction along the path, what is there afterwards can be changed again as if it had not been
changed before (`ChangedAt.exists_overwritten`), and what another path leads to is as it was, if the paths diverge
(`ChangedAt.lookup_of_diverge`). So setting at a path is read back, is undone by the next setting there, and leaves all
other places alone (`set_changes_one_place`).
-/

namespace RecordStore.Update

open RecordStore.Path

/-! ## Changes at a path -/

section Change

variable {change : Value → Value → Prop} {path : List String} {v v' : Value}

/-- One document is the other with room made at a path and what is there changed. -/
def ChangedAt (change : Value → Value → Prop) : List String → Value → Value → Prop
  | [], v, v' => change v v'
  | s :: path, v, v' => HasRoom s v ∧ ∃ c, ChangedAt change path (child s v) c ∧ withChild s c v = v'

theorem changedAt_iff : ChangedAt change path v v' ↔ ∃ roomy old new, populate path v = .ok roomy ∧
    lookup path roomy = some old ∧ change old new ∧ v' = replaceAt path new roomy := by
  induction path generalizing v v' with
  | nil =>
    constructor
    · intro h
      exact ⟨v, v, v', rfl, rfl, h, rfl⟩
    · rintro ⟨_, _, new, hroom, hold, h, rfl⟩
      cases hroom
      cases hold
      exact h
  | cons s path ih =>
    constructor
    · rintro ⟨hroom, c, h, rfl⟩
      obtain ⟨roomy, old, new, hpopulate, hold, hnew, rfl⟩ := ih.1 h
      refine ⟨withChild s roomy v, old, new, populate_cons_eq_ok.2 ⟨hroom, roomy, hpopulate, rfl⟩, ?_, hnew, ?_⟩
      · rw [lookup_cons, lookup_withChild hroom, Option.bind_some, hold]
      · rw [replaceAt_withChild hroom]
    · rintro ⟨_, old, new, hpopulate, hold, hnew, rfl⟩
      obtain ⟨hroom, roomy, hinner, rfl⟩ := populate_cons_eq_ok.1 hpopulate
      rw [lookup_cons, lookup_withChild hroom, Option.bind_some] at hold
      refine ⟨hroom, _, ih.2 ⟨roomy, old, new, hinner, hold, hnew, rfl⟩, ?_⟩
      rw [replaceAt_withChild hroom]

/-- Where a change was made, another value can be put, in the changed document and in the one before it alike. -/
theorem ChangedAt.exists_overwritten (h : ChangedAt change path v v') (w : Value) :
    ∃ v'', ChangedAt (fun _ new => new = w) path v v'' ∧ ChangedAt (fun _ new => new = w) path v' v'' := by
  induction path generalizing v v' with
  | nil => exact ⟨w, rfl, rfl⟩
  | cons s path ih =>
    obtain ⟨hroom, c, h, rfl⟩ := h
    obtain ⟨c'', hfirst, hagain⟩ := ih h
    refine ⟨withChild s c'' v, ⟨hroom, c'', hfirst, rfl⟩, hroom.withChild s c, c'', ?_, ?_⟩
    · rwa [child_withChild hroom]
    · exact withChild_withChild hroom c c''

/-- The induction is along both paths, up to where they part. -/
theorem ChangedAt.lookup_of_diverge {q : List String} {x : Value} (h : ChangedAt change path v v')
    (hq : Diverge path q) (hx : lookup q v = some x) : lookup q v' = some x := by
  induction path generalizing q v v' with
  | nil => exact hq.elim
  | cons s path ih =>
    cases q with
    | nil => exact hq.elim
    | cons t q =>
      obtain ⟨hroom, c, h, rfl⟩ := h
      rw [lookup_cons] at hx ⊢
      obtain ⟨y, hy, hyx⟩ := Option.bind_eq_some_iff.1 hx
      obtain hapart | ⟨rfl, hq⟩ := hq
      · rw [lookup_withChild_of_namesApart hapart hy, Option.bind_some, hyx]
      · have hchild : child s v = y := by rw [child, hy, Option.getD_some]
        rw [hchild] at h
        rw [lookup_withChild hroom, Option.bind_some, ih h hq hyx]

end Change

/-! ## Settings -/

section Setting

variable {dotted : String} {path : List String} {v record record' : Value} {changed : Bool}

theorem setEntry_eq_ok_iff_changedAt (hpath : segments? dotted = some path) :
    setEntry dotted v record = .ok () record' ↔
      ChangedAt (fun old new => Patch.apply v old = .ok () new) path record record' := by
  rw [setEntry_eq_ok hpath, changedAt_iff]

theorem apply_ofSet_eq_ok (hpath : segments? dotted = some path) :
    (ofSet [(dotted, v)]).apply record = .ok changed record' ↔
      ChangedAt (fun old new => Patch.apply v old = .ok () new) path record record' ∧
        (!(record' == record)) = changed := by
  rw [apply_eq_ok, run_ofSet_singleton, setEntry_eq_ok_iff_changedAt hpath]

/-- What is no map and is set at a path is found there; setting something else there comes to the same as if it had
never been set; and a path that neither extends this one nor is extended by it leads to what it led to before. -/
theorem set_changes_one_place (hpath : segments? dotted = some path) (hv : ∀ ms, v ≠ .map ms)
    (h : (ofSet [(dotted, v)]).apply record = .ok changed record') :
    lookup path record' = some v ∧
      (∀ w, (∀ ms, w ≠ .map ms) → ∃ record'' again first,
        (ofSet [(dotted, w)]).apply record' = .ok again record'' ∧
          (ofSet [(dotted, w)]).apply record = .ok first record'') ∧
      ∀ q x, lookup q record = some x → ¬ path <+: q → ¬ q <+: path → (∀ s ∈ path ++ q, hasLeadingZero s = false) →
        lookup q record' = some x := by
  obtain ⟨hset, -⟩ := (apply_ofSet_eq_ok hpath).1 h
  refine ⟨lookup_setEntry hpath hv ((setEntry_eq_ok_iff_changedAt hpath).2 hset), fun w hw => ?_, ?_⟩
  · obtain ⟨record'', hfirst, hagain⟩ := hset.exists_overwritten w
    simp only [apply_ofSet_eq_ok hpath, apply_of_ne_map hw]
    exact ⟨record'', _, _, ⟨hagain, rfl⟩, hfirst, rfl⟩
  · intro q x hx hpq hqp hzero
    exact hset.lookup_of_diverge (diverge_of_neither_extends hpq hqp hzero) hx

/-- The path crosses an integer key and an array that is padded; the other one goes to an element of the array. -/
theorem set_changes_one_place_padded :
    let record : Value := .map [(.int 7, .arr [.map [(.str "c", .int 2)], .null])]
    let made : Value := .map [(.str "x", .bool true)]
    let record' : Value := .map [(.int 7, .arr [.map [(.str "c", .int 2)], .null, .null, made])]
    (ofSet [("7.3.x", .bool true)]).apply record = .ok true record' ∧
      lookup ["7", "3", "x"] record' = some (.bool true) ∧
      (∃ record'' again first, (ofSet [("7.3.x", .arr [])]).apply record' = .ok again record'' ∧
        (ofSet [("7.3.x", .arr [])]).apply record = .ok first record'') ∧
      lookup ["7", "0", "c"] record' = some (.int 2) := by
  intro record made record'
  have hpath : segments? "7.3.x" = some ["7", "3", "x"] := rfl
  have happly : (ofSet [("7.3.x", .bool true)]).apply record = .ok true record' := rfl
  obtain ⟨hread, hagain, hother⟩ := set_changes_one_place hpath (by simp) happly
  exact ⟨happly, hread, hagain (.arr []) (by simp),
    hother ["7", "0", "c"] (.int 2) rfl (by decide) (by decide) (by decide)⟩

end Setting

end RecordStore.Update
