import RecordStore.Proofs.Patch.Kept

/-!
# Patches leave no instructions behind

A null in a patch says that a member goes, and a key that starts with `$` says what is done to an array. Neither is
data: a document is `Clean` if no map in it has a null member or such a key, and a patch that can be applied to a clean
document leaves a clean one (`clean_of_apply`), though what it inserts or puts anew is copied from the patch. Only
arrays in a patch are copied as they are, and have to be clean themselves (`ArraysClean`).
-/

namespace RecordStore

namespace Patch

variable {v v' : Value} {items : List Value} {ms : Members}

/-- No map in the document has a null member or a directive for a key. -/
def Clean (v : Value) : Prop := ∀ ms, v.Part (.map ms) → ∀ e ∈ ms, e.2 ≠ .null ∧ isDirective e.1 = false

/-- All arrays in the patch are clean. -/
def ArraysClean (patch : Value) : Prop := ∀ items, patch.Part (.arr items) → Clean (.arr items)

theorem clean_arr_iff : Clean (.arr items) ↔ ∀ v ∈ items, Clean v := by
  constructor
  · intro h v hv ms hms
    exact h ms (.element hv hms)
  · intro h ms hms
    cases hms with
    | element hv hms => exact h _ hv ms hms

theorem clean_map_iff : Clean (.map ms) ↔ ∀ e ∈ ms, (e.2 ≠ .null ∧ isDirective e.1 = false) ∧ Clean e.2 := by
  constructor
  · intro h e he
    exact ⟨h ms .self e he, fun ms' hms => h ms' (.member he hms)⟩
  · intro h ms' hms
    cases hms with
    | self => exact fun e he => (h e he).1
    | member he hms => exact (h _ he).2 ms' hms

theorem clean_of_isScalar (h : v.isScalar = true) : Clean v := by
  intro ms hms
  cases hms <;> cases h

theorem Clean.of_part (h : Clean v) {part : Value} (hpart : v.Part part) : Clean part := by
  induction hpart with
  | self => exact h
  | element hv _ ih => exact ih (clean_arr_iff.1 h _ hv)
  | member he _ ih => exact ih (clean_map_iff.1 h _ he).2

theorem Clean.arraysClean (h : Clean v) : ArraysClean v := fun _ => h.of_part

theorem arraysClean_arr_iff : ArraysClean (.arr items) ↔ Clean (.arr items) :=
  ⟨fun h => h items .self, Clean.arraysClean⟩

theorem arraysClean_map_iff : ArraysClean (.map ms) ↔ ∀ e ∈ ms, ArraysClean e.2 := by
  constructor
  · intro h e he items hitems
    exact h items (.member he hitems)
  · intro h items hitems
    cases hitems with
    | member he hitems => exact h _ he items hitems

theorem inherited_clean : Inherited Clean fun k v => v ≠ .null ∧ isDirective k = false where
  null := clean_of_isScalar rfl
  arr_iff := clean_arr_iff
  map_iff := clean_map_iff
  member hk hne := ⟨hne, hk⟩

/-! ## Applying patches -/

theorem keeps_clean_merge {p : Value} (h : ArraysClean p) : Keeps Clean (merge p) := by
  refine keeps_merge inherited_clean fun part hpart hmap => ?_
  cases part with
  | arr items => exact h items hpart
  | map _ => cases hmap
  | _ => exact clean_of_isScalar rfl

/-- A patch whose arrays are clean leaves a clean document clean, if it can be applied. -/
theorem clean_of_apply {p : Value} (hv : Clean v) (hp : ArraysClean p) (h : apply p v = .ok () v') : Clean v' :=
  keeps_clean_merge hp v v' hv (apply_eq_ok_iff.1 h)

/-- A patch that takes members away, makes new ones, and edits, inserts and appends elements. -/
theorem clean_of_apply_nested :
    let v : Value := .map [
      (.str "a", .map [(.str "x", .int 1)]),
      (.str "items", .arr [.map [(.str "id", .int 1), (.str "n", .map [(.str "k", .int 2)])], .null]),
      (.str "z", .int 3)]
    let p : Value := .map [
      (.str "a", .map [(.str "x", .null), (.str "y", .map [(.str "gone", .null), (.str "kept", .arr [.null])])]),
      (.str "items", .map [
        (.str "$+", .map [(.str "gone", .null), (.str "id", .int 2)]),
        (.str "$+[0]", .str "first"),
        (.str "$[0]", .map [(.str "m", .int 5), (.str "n", .map [(.str "k", .null)])]),
        (.str "$[1]", .map [(.str "gone", .null)])]),
      (.str "z", .null)]
    let v' : Value := .map [
      (.str "a", .map [(.str "y", .map [(.str "kept", .arr [.null])])]),
      (.str "items", .arr [
        .str "first",
        .map [(.str "id", .int 1), (.str "m", .int 5), (.str "n", .map [])],
        .map [],
        .map [(.str "id", .int 2)]])]
    Clean v ∧ ArraysClean p ∧ apply p v = .ok () v' ∧ Clean v' := by
  intro v p v'
  have hnull : Clean .null := clean_of_isScalar rfl
  have hint (i : Int64) : Clean (.int i) := clean_of_isScalar rfl
  have hstr (s : String) : Clean (.str s) := clean_of_isScalar rfl
  have hv : Clean v := by
    simp [v, clean_map_iff, clean_arr_iff, hnull, hint, isDirective]
  have hp : ArraysClean p := by
    simp [p, arraysClean_map_iff, arraysClean_arr_iff, clean_arr_iff, hnull, hnull.arraysClean,
      fun i => (hint i).arraysClean, fun s => (hstr s).arraysClean]
  have happly : apply p v = .ok () v' := rfl
  exact ⟨hv, hp, happly, clean_of_apply hv hp happly⟩

end Patch

end RecordStore
