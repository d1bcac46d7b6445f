import RecordStore.Proofs.Query.Placement
import RecordStore.Proofs.Query.Reach

/-!
# Groups and conditions without them

The keys of a group ask for one element that satisfies all of them. Without the group each key asks for some content of
its whole path, with `ANYINDEX` left out, be it of another element each time. So a document that a filter selects has
for each key that seeks success a content that passes (`uncorrelated_of_selects`): on the way to it, the element of each
group is met when the path is followed in all elements of the array (`exists_reaches_of_placedIn`).
-/

namespace RecordStore.Query

/-- The content of an element that a comparison found in nested groups is found from outside by the paths of all these
groups in sequence. The induction is on the groups, outermost first. -/
theorem exists_reaches_of_placedIn {path : List String} {op : Operator} {target : Value} (hpath : path ≠ [])
    (hseeks : target.isNull = op.isNegated) {groups : List (List String)} {cs : List Condition}
    (hplaced : (Condition.compare path op target).PlacedIn groups cs) {v : Value} (hold : allHold cs v = true) :
    ∃ x, Reaches (groups.flatten ++ path) v x ∧ op.holds target x = true := by
  induction groups generalizing cs v with
  | nil =>
    have hcompare : (Condition.compare path op target).holds v = true := allHold_iff.1 hold _ hplaced
    rwa [holds_compare_iff, if_pos hseeks] at hcompare
  | cons outer groups ih =>
    obtain ⟨inner, hinner, hplaced⟩ := hplaced
    obtain ⟨items, item, hitems, hitem, hinner⟩ := holds_each_iff.1 (allHold_iff.1 hold _ hinner)
    obtain ⟨x, hx, hpass⟩ := ih hplaced (allHold_iff.2 hinner)
    have hne : groups.flatten ++ path ≠ [] := List.append_ne_nil_of_right_ne_nil _ hpath
    rw [List.flatten_cons, List.append_assoc]
    exact ⟨x, hitems.append_item hitem hne hx, hpass⟩

/-- The criterion as one comparison outside all groups: every `ANYINDEX` at which its path is cut into groups is left
out of it. -/
def Criterion.uncorrelated (c : Criterion) : Condition :=
  .compare ((groups c.path).1.flatten ++ (groups c.path).2) c.op c.target

theorem spelled_target (key : String) (target : Value) : (Criterion.spelled key target).target = target := by
  unfold Criterion.spelled
  split <;> rfl

/-- A document that a filter selects satisfies each key of it without the groups, if the operator of the key is not
negated and its target is not null. -/
theorem uncorrelated_of_selects {filter : Filter} {v : Value} (h : filter.selects v = .ok true) :
    ∀ entry ∈ filter, (Criterion.spelled entry.1 entry.2).op.isNegated = false → entry.2 ≠ .null →
      allHold [(Criterion.spelled entry.1 entry.2).uncorrelated] v = true := by
  intro entry hentry hop htarget
  obtain ⟨cs, hcs, hold⟩ := selects_eq_ok_iff.1 h
  have hreadable : ¬ Unreadable entry.1 := (compile_eq_ok_iff.1 hcs).1 entry hentry
  have hpath : (groups (Criterion.spelled entry.1 entry.2).path).2 ≠ [] :=
    (groupsFrom_ne_nil [] _ (.inr (spelled_path_ne_nil hreadable entry.2))).2
  have hseeks :
      (Criterion.spelled entry.1 entry.2).target.isNull = (Criterion.spelled entry.1 entry.2).op.isNegated := by
    rw [spelled_target, hop, Value.isNull_eq_false_iff]
    exact htarget
  have hfound := exists_reaches_of_placedIn hpath hseeks (placedIn_of_compile_eq_ok hcs hentry) hold
  refine allHold_iff.2 (List.forall_mem_singleton.2 ?_)
  rw [Criterion.uncorrelated, holds_compare_iff, if_pos hseeks]
  exact hfound

/-- An inner group is met in an array of arrays, and its keys past an index; the leading `ANYINDEX` is a field. -/
theorem uncorrelated_of_selects_nested :
    let filter : Filter := [("ANYINDEX.a.ANYINDEX.b.ANYINDEX.0.c.gt", .int 1),
      ("ANYINDEX.a.ANYINDEX.b.ANYINDEX.0.d", .arr [.int 4, .int 5])]
    let doc : Value := .map [(.str "ANYINDEX", .map [(.str "a", .arr [.int 0, .map [(.str "b",
      .arr [.arr [.arr [.map [(.str "c", .int 2), (.str "d", .int 5)]]]])]])])]
    filter.selects doc = .ok true ∧
      allHold [.compare ["ANYINDEX", "a", "b", "0", "c"] .gt (.int 1)] doc = true ∧
      allHold [.compare ["ANYINDEX", "a", "b", "0", "d"] .eq (.arr [.int 4, .int 5])] doc = true := by
  intro filter doc
  have hcompile : compile filter = .ok [.each ["ANYINDEX", "a"] [.each ["b"] [.compare ["0", "c"] .gt (.int 1),
    .compare ["0", "d"] .eq (.arr [.int 4, .int 5])]]] := rfl
  have hselects : filter.selects doc = .ok true := selects_eq_ok_iff.2 ⟨_, hcompile, by decide +kernel⟩
  have hc : (Criterion.spelled "ANYINDEX.a.ANYINDEX.b.ANYINDEX.0.c.gt" (.int 1)).uncorrelated =
      .compare ["ANYINDEX", "a", "b", "0", "c"] .gt (.int 1) := rfl
  have hd : (Criterion.spelled "ANYINDEX.a.ANYINDEX.b.ANYINDEX.0.d" (.arr [.int 4, .int 5])).uncorrelated =
      .compare ["ANYINDEX", "a", "b", "0", "d"] .eq (.arr [.int 4, .int 5]) := rfl
  have huncorrelated := uncorrelated_of_selects hselects
  simp only [filter, List.forall_mem_cons, hc, hd] at huncorrelated
  exact ⟨hselects, huncorrelated.1 rfl nofun, huncorrelated.2.1 rfl nofun⟩

end RecordStore.Query
