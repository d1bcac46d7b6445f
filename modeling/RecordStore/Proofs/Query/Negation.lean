import RecordStore.Proofs.Query.Compile
import RecordStore.Proofs.Query.Reach

/-!
# Negated operators

Nothing negates the outcome of a walk. A negated operator tests the opposite of what its counterpart tests and seeks
the opposite outcome, so its walk settles on the opposite (`walk_not`), through arrays, missing members and scalars
alike. So of a filter by `eq` and one by `neq`, or by `cont` and by `ncont`, exactly one selects a document
(`selects_negated`), as long as the path has no group: a group asks for one element in both.
-/

namespace RecordStore.Query

/-- A walk that seeks the opposite outcome of the opposite test ends opposite. -/
theorem walk_not (seeks : Bool) (test : Value → Bool) (path : List String) (v : Value) :
    walk (!seeks) (fun x => !test x) path v = !walk seeks test path v := by
  have h : walk (!seeks) (fun x => !test x) path v = !seeks ↔ walk seeks test path v = seeks := by
    rw [walk_eq_seeks_iff, walk_eq_seeks_iff]
    simp only [Bool.not_inj_iff]
  by_cases hw : walk seeks test path v = seeks
  · rw [h.2 hw, hw]
  · rw [Bool.not_eq_not.1 (mt h.1 hw), Bool.eq_not.2 hw, Bool.not_not]

/-- One operator holds of the same contents as another does not. -/
structure Operator.Negates (neg op : Operator) : Prop where
  isNegated : neg.isNegated = !op.isNegated
  holds (target content : Value) : neg.holds target content = !op.holds target content

theorem neq_negates_eq : Operator.neq.Negates .eq := ⟨rfl, fun _ _ => rfl⟩

theorem ncont_negates_cont : Operator.ncont.Negates .cont := ⟨rfl, fun _ _ => rfl⟩

theorem Operator.Negates.holds_compare {neg op : Operator} (h : neg.Negates op) (path : List String)
    (target v : Value) : (Condition.compare path neg target).holds v = !(Condition.compare path op target).holds v := by
  have hseeks : neg.seeks target = !op.seeks target := by
    rw [seeks, seeks, h.isNegated]
    cases target.isNull <;> cases op.isNegated <;> rfl
  have htest : neg.holds target = fun x => !op.holds target x := funext (h.holds target)
  rw [Condition.holds, Condition.holds, hseeks, htest, walk_not]

/-- Of the filters `path.eq` and `path.neq` with one target exactly one selects a document, and so of `path.cont` and
`path.ncont`. -/
theorem selects_negated {path : List String} (hne : path ≠ []) (hpath : ∀ s ∈ path, s ≠ "" ∧ '.' ∉ s.toList)
    (hinner : ¬ HasInnerAnyIndex path) (target v : Value) :
    ∃ equal contained,
      Filter.selects [(keyOf (Path.dotted path) .eq, target)] v = .ok equal ∧
        Filter.selects [(keyOf (Path.dotted path) .neq, target)] v = .ok (!equal) ∧
      Filter.selects [(keyOf (Path.dotted path) .cont, target)] v = .ok contained ∧
        Filter.selects [(keyOf (Path.dotted path) .ncont, target)] v = .ok (!contained) := by
  have hsegments := Path.segments?_dotted hne hpath
  have hselects (op : Operator) := selects_keyOf hsegments hinner op target v
  refine ⟨_, _, hselects .eq, ?_, hselects .cont, ?_⟩
  · rw [hselects .neq, neq_negates_eq.holds_compare]
  · rw [hselects .ncont, ncont_negates_cont.holds_compare]

/-- Null is sought in nested arrays, at an index, in a map without the member, and past a number. -/
theorem selects_negated_nested :
    let doc : Value := .map [(.str "a", .arr [.arr [.map [(.str "b", .null)], .int 3], .map [], .arr []])]
    let path := ["a", "0", "b", "ANYINDEX"]
    (∀ s ∈ path, s ≠ "" ∧ '.' ∉ s.toList) ∧ ¬ HasInnerAnyIndex path ∧
      ∃ equal contained,
        Filter.selects [("a.0.b.ANYINDEX.eq", .null)] doc = .ok equal ∧
          Filter.selects [("a.0.b.ANYINDEX.neq", .null)] doc = .ok (!equal) ∧
        Filter.selects [("a.0.b.ANYINDEX.cont", .null)] doc = .ok contained ∧
          Filter.selects [("a.0.b.ANYINDEX.ncont", .null)] doc = .ok (!contained) := by
  intro doc path
  have hne : path ≠ [] := by decide
  have hpath : ∀ s ∈ path, s ≠ "" ∧ '.' ∉ s.toList := by decide
  have hinner : ¬ HasInnerAnyIndex path := by decide
  exact ⟨hpath, hinner, selects_negated hne hpath hinner .null doc⟩

end RecordStore.Query
