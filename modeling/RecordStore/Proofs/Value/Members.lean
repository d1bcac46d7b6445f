import RecordStore.Proofs.Entries

/-!
# Members in key order

The order of keys is linear, so that what is known of entries in general holds of the members of a map. A document is
sorted if the keys of all its maps ascend (`Value.sorted_map_iff`).
-/

namespace RecordStore

namespace Key

instance : Std.LawfulEqOrd Key where
  compare_self := compare_eq_eq_iff.2 rfl
  eq_of_compare h := compare_eq_eq_iff.1 h

instance : Std.TransOrd Key where
  eq_swap {k l} := by
    cases k with
    | int i =>
      cases l with
      | int j => exact (Std.OrientedOrd.eq_swap : compare i j = (compare j i).swap)
      | str t => rfl
    | str s =>
      cases l with
      | int j => rfl
      | str t => exact (Std.OrientedOrd.eq_swap : compare s t = (compare t s).swap)
  isLE_trans {k l m} hkl hlm := by
    cases k with
    | int i =>
      cases m with
      | int n =>
        cases l with
        | int j =>
          have hij : (compare i j).isLE = true := hkl
          have hjn : (compare j n).isLE = true := hlm
          have hin : (compare i n).isLE = true := Std.TransCmp.isLE_trans hij hjn
          exact hin
        | str t => cases hlm
      | str u => rfl
    | str s =>
      cases l with
      | int j => cases hkl
      | str t =>
        cases m with
        | int n => cases hlm
        | str u =>
          have hst : (compare s t).isLE = true := hkl
          have htu : (compare t u).isLE = true := hlm
          have hsu : (compare s u).isLE = true := Std.TransCmp.isLE_trans hst htu
          exact hsu

end Key

namespace Value

theorem sortedItems_iff {items : List Value} : SortedItems items ↔ ∀ v ∈ items, v.Sorted := by
  induction items with
  | nil => simp [SortedItems]
  | cons v items ih => rw [SortedItems, ih, List.forall_mem_cons]

theorem sortedMembers_iff {ms : Members} : SortedMembers ms ↔ ∀ e ∈ ms, e.2.Sorted := by
  induction ms with
  | nil => simp [SortedMembers]
  | cons e ms ih =>
    obtain ⟨k, v⟩ := e
    rw [SortedMembers, ih, List.forall_mem_cons]

theorem sorted_map_iff {ms : Members} : (map ms).Sorted ↔ Entries.Ascending ms ∧ ∀ e ∈ ms, e.2.Sorted := by
  rw [Sorted, sortedMembers_iff]
  rfl

end Value

end RecordStore
