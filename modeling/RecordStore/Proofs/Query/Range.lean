import RecordStore.Proofs.Query.Compile
import RecordStore.Proofs.Query.Reach

/-!
# Range operators

With a target other than null, a range operator selects a document iff its path leads to some content that stands to the
target as the operator asks. No document stands to null in any way, so with null as the target no content passes; but a
null target also turns the search round, which then asks that every content passes. Hence the operator selects just the
documents in which the path leads to nothing: those with a scalar in the way, or with arrays that have no element to
follow the path in (`selects_range`).
-/

namespace RecordStore

theorem Value.compare_null (v : Value) : v.compare .null = .incomparable := by
  cases v <;> rfl

namespace Query

namespace Operator

/-- The operators that ask how the content stands to the target. -/
def isRange : Operator → Bool
  | gt | gte | lt | lte => true
  | _ => false

/-- The ways of standing to the target that a range operator asks for. -/
def Asks : Operator → Comparison → Prop
  | gt, c => c = .greater
  | gte, c => c = .greater ∨ c = .equivalent
  | lt, c => c = .less
  | lte, c => c = .less ∨ c = .equivalent
  | _, _ => False

variable {op : Operator}

theorem isNegated_of_isRange (h : op.isRange = true) : op.isNegated = false := by
  cases op <;> first | rfl | cases h

/-- What is incomparable is not asked for. -/
theorem not_asks_incomparable (op : Operator) : ¬ op.Asks .incomparable := by
  cases op <;> simp [Asks]

theorem holds_iff_asks (h : op.isRange = true) (target content : Value) :
    op.holds target content = true ↔ op.Asks (content.compare target) := by
  cases op with
  | gt | gte | lt | lte =>
    simp only [holds, Asks]
    cases content.compare target <;> decide
  | _ => cases h

theorem holds_null_target (h : op.isRange = true) (content : Value) : op.holds .null content = false := by
  rw [← Bool.not_eq_true, holds_iff_asks h, Value.compare_null]
  exact not_asks_incomparable op

end Operator

section Range

variable {path : List String} {op : Operator} {target v : Value}

theorem holds_range_iff (hop : op.isRange = true) (htarget : target ≠ .null) :
    (Condition.compare path op target).holds v = true ↔ ∃ x, Reaches path v x ∧ op.Asks (x.compare target) := by
  have hseeks : target.isNull = op.isNegated := by
    rw [Operator.isNegated_of_isRange hop, Value.isNull_eq_false_iff]
    exact htarget
  rw [holds_compare_iff, if_pos hseeks]
  simp only [Operator.holds_iff_asks hop]

theorem holds_range_null_iff (hop : op.isRange = true) :
    (Condition.compare path op .null).holds v = true ↔ ∀ x, ¬ Reaches path v x := by
  have hseeks : ¬ Value.null.isNull = op.isNegated := by
    rw [Operator.isNegated_of_isRange hop]
    decide
  rw [holds_compare_iff, if_neg hseeks]
  simp only [Operator.holds_null_target hop, Bool.false_eq_true, imp_false]

theorem not_asks_null (op : Operator) (x : Value) : ¬ op.Asks (x.compare .null) := by
  rw [Value.compare_null]
  exact op.not_asks_incomparable

/-- A filter by a range operator selects the documents in which its path leads to some content that stands to the target
as the operator asks; but if the target is null, those in which its path leads to nothing. So wherever it selects a
document there is such a content, unless the target is null and the path leads to nothing. -/
theorem selects_range (hne : path ≠ []) (hpath : ∀ s ∈ path, s ≠ "" ∧ '.' ∉ s.toList)
    (hinner : ¬ HasInnerAnyIndex path) (hop : op.isRange = true) (target v : Value) :
    ∃ selected, Filter.selects [(keyOf (Path.dotted path) op, target)] v = .ok selected ∧
      (target ≠ .null → (selected = true ↔ ∃ x, Reaches path v x ∧ op.Asks (x.compare target))) ∧
      (target = .null → (selected = true ↔ ∀ x, ¬ Reaches path v x)) ∧
      ((selected = true → ∃ x, Reaches path v x ∧ op.Asks (x.compare target)) ↔
        (target = .null → ∃ x, Reaches path v x)) := by
  have hselects := selects_keyOf (Path.segments?_dotted hne hpath) hinner op target v
  refine ⟨_, hselects, fun h => holds_range_iff hop h, ?_, ?_⟩
  · rintro rfl
    exact holds_range_null_iff hop
  · by_cases htarget : target = .null
    · subst htarget
      rw [holds_range_null_iff hop]
      constructor
      · intro h _
        refine Classical.byContradiction fun hnone => ?_
        obtain ⟨x, -, hasks⟩ := h fun x hx => hnone ⟨x, hx⟩
        exact not_asks_null op x hasks
      · intro h hnone
        obtain ⟨x, hx⟩ := h rfl
        exact absurd hx (hnone x)
    · exact ⟨fun _ h => absurd h htarget, fun _ => (holds_range_iff hop htarget).1⟩

/-- An element of an inner array stands to the target as asked, beside a text, a null and a scalar in the way. -/
theorem selects_range_nested :
    let doc : Value := .map [(.str "a", .arr [.int 7, .arr [.map [(.str "b", .str "x")], .map [(.str "b", .int 3)]],
      .map []])]
    let path := ["a", "1", "b"]
    (path ≠ [] ∧ (∀ s ∈ path, s ≠ "" ∧ '.' ∉ s.toList) ∧ ¬ HasInnerAnyIndex path ∧ Operator.gte.isRange = true) ∧
      Filter.selects [("a.1.b.gte", .int 3)] doc = .ok true ∧
      ∃ x, Reaches path doc x ∧ Operator.gte.Asks (x.compare (.int 3)) := by
  intro doc path
  have hne : path ≠ [] := by decide
  have hpath : ∀ s ∈ path, s ≠ "" ∧ '.' ∉ s.toList := by decide
  have hinner : ¬ HasInnerAnyIndex path := by
    rw [hasInnerAnyIndex_iff]
    decide
  have hop : Operator.gte.isRange = true := rfl
  have hreaches : Reaches path doc (.int 3) :=
    .member rfl (.index rfl (.element (.tail _ (.head _)) (.member rfl (.here _))))
  have hasks : Operator.gte.Asks ((Value.int 3).compare (.int 3)) := .inr rfl
  have hkey : keyOf (Path.dotted path) .gte = "a.1.b.gte" := rfl
  obtain ⟨selected, hselected, hiff, -⟩ := selects_range hne hpath hinner hop (.int 3) doc
  obtain rfl : selected = true := (hiff nofun).2 ⟨_, hreaches, hasks⟩
  rw [hkey] at hselected
  exact ⟨⟨hne, hpath, hinner, hop⟩, hselected, _, hreaches, hasks⟩

/-- A scalar in the way, or an empty array, is selected by a range operator with null as its target, though no content
of the path is greater than null. -/
theorem selects_range_null_of_nothing_reached :
    let inWay : Value := .map [(.str "a", .int 4)]
    let empty : Value := .map [(.str "a", .arr [])]
    (Filter.selects [("a.b.gt", .null)] inWay = .ok true ∧
        ¬ ∃ x, Reaches ["a", "b"] inWay x ∧ Operator.gt.Asks (x.compare .null)) ∧
      Filter.selects [("a.b.gt", .null)] empty = .ok true ∧
        ¬ ∃ x, Reaches ["a", "b"] empty x ∧ Operator.gt.Asks (x.compare .null) := by
  intro inWay empty
  have hnone (doc : Value) : ¬ ∃ x, Reaches ["a", "b"] doc x ∧ Operator.gt.Asks (x.compare .null) := by
    rintro ⟨x, -, hasks⟩
    exact not_asks_null .gt x hasks
  exact ⟨⟨rfl, hnone inWay⟩, rfl, hnone empty⟩

end Range

end Query

end RecordStore
