import RecordStore.Proofs.Patch.Merging
import RecordStore.Proofs.Update.ReadBack

/-!
# Setting is merging a nested patch

Setting a value at a path makes room for it and patches what is there; the patch that has the value inside maps of one
member, a map for each segment, merges its way down instead. Where the path crosses only maps with text keys, nulls and
missing members (`Passable`), room can be made, and both come to the same place with the same old value there
(`exists_room`), so they succeed or fail together (`set_agrees_with_nested`).
-/

namespace RecordStore

namespace Path

/-- In a map whose keys are all text a segment names the member of that text. -/
theorem key_of_text {s : String} {ms : Members} (h : ∀ e ∈ ms, ∃ t, e.1 = .str t) : key ms s = .str s := by
  have hint (i : Int64) : Entries.contains (.int i) ms = false := by
    rw [Entries.contains, Option.isSome_eq_false_iff, Option.isNone_iff_eq_none, Entries.find?_eq_none_iff]
    intro e he heq
    obtain ⟨t, ht⟩ := h e he
    cases ht.symm.trans heq
  unfold key
  cases index? s <;> simp [hint]

end Path

namespace Patch

/-- The patch that has a value at a path: maps of one member, one within another. -/
def nested : List String → Value → Value
  | [], v => v
  | s :: path, v => .map [(.str s, nested path v)]

/-- The same error seen from the start of a path to where it arose. -/
def Error.below (path : List String) (e : Error) : Error := { e with place := path ++ e.place }

theorem nested_ne_null {p : Value} (hp : p ≠ .null) (path : List String) : nested path p ≠ .null := by
  cases path with
  | nil => exact hp
  | cons s path => exact nofun

section Member

variable {k : Key} {p v : Value} (hk : isDirective k = false) (hp : p ≠ .null)

include hk hp

theorem merge_member_of_ok {new : Value} (h : merge p ((Entries.find? k v.members).getD .null) = .ok () new) :
    merge (.map [(k, p)]) v = .ok () (.map (Entries.insert k new v.members)) := by
  have hkind : kind [(k, p)] = .plain := kind_eq_plain_iff.2 (by simpa using hk)
  exact (merge_plain_eq_ok hkind).2 ⟨_, mergeMembers_cons_eq_ok.2 (.inr ⟨hp, new, h, rfl⟩), rfl⟩

theorem merge_member_of_error {e : Error} {reached : Value}
    (h : merge p ((Entries.find? k v.members).getD .null) = .error e reached) :
    ∃ reached', merge (.map [(k, p)]) v = .error (e.under k.text) reached' := by
  have hkind : kind [(k, p)] = .plain := kind_eq_plain_iff.2 (by simpa using hk)
  refine (merge_plain_eq_error hkind).2 ⟨Entries.replace k reached v.members, ?_⟩
  rw [mergeMembers, if_neg (by rwa [Value.isNull_eq_true_iff]), h]

end Member

end Patch

namespace Update

/-! ## Where a path can go -/

/-- Every container that the path crosses is a map with text keys only, or null, or missing. -/
def Passable : List String → Value → Prop
  | [], _ => True
  | _ :: _, .null => True
  | s :: path, .map ms => (∀ e ∈ ms, ∃ t, e.1 = .str t) ∧ Passable path ((Entries.find? (.str s) ms).getD .null)
  | _ :: _, _ => False

section Passing

variable {s : String} {path : List String} {v : Value}

theorem passable_null (path : List String) : Passable path .null := by
  cases path <;> trivial

section Crossing

variable (h : Passable (s :: path) v)

include h

theorem Passable.hasRoom : HasRoom s v := by
  cases v with
  | null | map ms => trivial
  | _ => exact h.elim

theorem Passable.child_eq : child s v = (Entries.find? (.str s) v.members).getD .null := by
  cases v with
  | null => rfl
  | map ms =>
    rw [child, Path.lookup_singleton_map, Path.child?, Path.key_of_text h.1]
    rfl
  | _ => exact h.elim

theorem Passable.withChild_eq (c : Value) : withChild s c v = .map (Entries.insert (.str s) c v.members) := by
  cases v with
  | null => rfl
  | map ms =>
    rw [withChild, Path.key_of_text h.1]
    rfl
  | _ => exact h.elim

theorem Passable.tail : Passable path (child s v) := by
  rw [h.child_eq]
  cases v with
  | null => exact passable_null path
  | map ms => exact h.2
  | _ => exact h.elim

end Crossing

/-- Room can be made at the path, and the nested patch comes to what is there then: if the inner patch makes something
of that, the nested one puts it in its place, and if it fails, so does the nested one. -/
theorem exists_room {p : Value} (hpath : ∀ s ∈ path, Patch.isDirective (.str s) = false) (hp : p ≠ .null)
    (h : Passable path v) : ∃ roomy old, populate path v = .ok roomy ∧ Path.lookup path roomy = some old ∧
      (∀ new, Patch.merge p old = .ok () new →
        Patch.merge (Patch.nested path p) v = .ok () (Path.replaceAt path new roomy)) ∧
      ∀ e reached, Patch.merge p old = .error e reached →
        ∃ reached', Patch.merge (Patch.nested path p) v = .error (e.below path) reached' := by
  induction path generalizing v with
  | nil => exact ⟨v, v, rfl, rfl, fun _ hnew => hnew, fun _ reached herror => ⟨reached, herror⟩⟩
  | cons s path ih =>
    obtain ⟨hs, hpath⟩ := List.forall_mem_cons.1 hpath
    obtain ⟨member, old, hmember, hold, hok, herror⟩ := ih hpath h.tail
    have hnested := Patch.nested_ne_null hp path
    have hroom := h.hasRoom
    rw [h.child_eq] at hok herror
    refine ⟨withChild s member v, old, populate_cons_eq_ok.2 ⟨hroom, member, hmember, rfl⟩, ?_, ?_, ?_⟩
    · rw [Path.lookup_cons, lookup_withChild hroom, Option.bind_some, hold]
    · intro new hnew
      rw [replaceAt_withChild hroom, h.withChild_eq]
      exact Patch.merge_member_of_ok hs hnested (hok new hnew)
    · intro e reached he
      obtain ⟨reached', he'⟩ := herror e reached he
      exact Patch.merge_member_of_error hs hnested he'

end Passing

/-! ## Setting -/

section Setting

variable {dotted : String} {path : List String} {v record roomy old : Value}

theorem setEntry_of_room (hpath : Path.segments? dotted = some path) (hroom : populate path record = .ok roomy) :
    setEntry dotted v record = patchAt path v roomy := by
  unfold setEntry withPath
  rw [hpath]
  exact bind_of_ok (populateAt_eq_ok.2 hroom)

theorem apply_eq_error {u : Update} {e : Error} {reached : Value} (h : u.run record = .error e reached) :
    u.apply record = .error e reached := by
  rw [apply, bind_eq_error]
  exact .inr ⟨record, record, rfl, bind_eq_error.2 (.inl h)⟩

/-- Setting a value at a path of maps, nulls and missing members, and merging the value nested along the path, succeed
with the same record or fail for the same reason. -/
theorem set_agrees_with_nested {ms : Members} (hpath : Path.segments? dotted = some path)
    (hdirective : ∀ s ∈ path, Patch.isDirective (.str s) = false) (hv : v ≠ .null) (hpass : Passable path (.map ms)) :
    (∃ changed record', (ofSet [(dotted, v)]).apply (.map ms) = .ok changed record' ∧
        Patch.apply (Patch.nested path v) (.map ms) = .ok () record') ∨
      ∃ e reached reached', (ofSet [(dotted, v)]).apply (.map ms) = .error (.patch e) reached ∧
        Patch.apply (Patch.nested path v) (.map ms) = .error (e.below path) reached' := by
  obtain ⟨roomy, old, hroom, hold, hok, herror⟩ := exists_room hdirective hv hpass
  have hset : (ofSet [(dotted, v)]).run (.map ms) = patchAt path v roomy := by
    rw [run_ofSet_singleton, setEntry_of_room hpath hroom]
  unfold patchAt at hset
  rw [hold, Option.getD_some] at hset
  cases happly : Patch.apply v old with
  | ok _ new =>
    rw [happly] at hset
    exact .inl ⟨_, _, apply_eq_ok.2 ⟨hset, rfl⟩, Patch.apply_eq_ok_iff.2 (hok new (Patch.apply_eq_ok_iff.1 happly))⟩
  | error e reached =>
    rw [happly] at hset
    obtain ⟨_, hmerge⟩ := Patch.apply_eq_error_iff.1 ⟨reached, happly⟩
    obtain ⟨reached', hnested⟩ := Patch.apply_eq_error_iff.2 (herror e _ hmerge)
    exact .inr ⟨e, _, reached', apply_eq_error hset, hnested⟩

/-- The path crosses a null and a missing member, and the value loses a null where it is copied. -/
theorem set_agrees_with_nested_missing :
    let record : Value := .map [(.str "a", .map [(.str "b", .null), (.str "x", .int 2)])]
    let v : Value := .map [(.str "k", .int 1), (.str "n", .null)]
    let made : Value := .map [(.str "c", .map [(.str "d", .map [(.str "k", .int 1)])])]
    let record' : Value := .map [(.str "a", .map [(.str "b", made), (.str "x", .int 2)])]
    (∃ changed, (ofSet [("a.b.c.d", v)]).apply record = .ok changed record') ∧
      Patch.apply (Patch.nested ["a", "b", "c", "d"] v) record = .ok () record' := by
  intro record v made record'
  have hpath : Path.segments? "a.b.c.d" = some ["a", "b", "c", "d"] := rfl
  have hv : v ≠ .null := by simp [v]
  have hpass : Passable ["a", "b", "c", "d"] record := by
    simp [record, Passable, passable_null, Entries.find?_cons]
  have hnested : Patch.apply (Patch.nested ["a", "b", "c", "d"] v) record = .ok () record' := rfl
  obtain ⟨changed, _, hset, hmerge⟩ | ⟨_, _, _, -, hmerge⟩ :=
    set_agrees_with_nested hpath (by decide) hv hpass
  · cases hmerge.symm.trans hnested
    exact ⟨⟨changed, hset⟩, hnested⟩
  · cases hmerge.symm.trans hnested

end Setting

end Update

end RecordStore
