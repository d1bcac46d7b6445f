import RecordStore.Proofs.Value.Equality
import RecordStore.Query.Match

/-!
# Comparison and equality of documents

Comparing two documents the other way round turns the result round (`compare_swap`): the first pair of unequal elements
of two arrays is the same from both sides, as equality is symmetric. And documents are equivalent just where they are
equal and of a kind that is ordered (`compare_eq_equivalent_iff`): of unequal elements the pair that decides is never
equivalent, so it is left to the lengths only when the shorter array is the beginning of the other one. `compare_laws`
says both, and what they make of the operators.
-/

namespace RecordStore

namespace Comparison

section Orders

variable {α : Type} [Ord α] {x y : α}

theorem swap_ofOrdering_compare [Std.OrientedOrd α] :
    (ofOrdering (Ord.compare x y)).swap = ofOrdering (Ord.compare y x) := by
  rw [swap_ofOrdering, ← Std.OrientedOrd.eq_swap]

theorem ofOrdering_compare_eq_equivalent_iff [Std.LawfulEqOrd α] [BEq α] [LawfulBEq α] :
    ofOrdering (Ord.compare x y) = equivalent ↔ (x == y) = true := by
  rw [beq_iff_eq, ← Std.LawfulEqOrd.compare_eq_iff_eq (a := x)]
  cases Ord.compare x y <;> decide

end Orders

theorem eq_equivalent_iff {c : Comparison} :
    c.isGreaterOrEquivalent = true ∧ c.isLessOrEquivalent = true ↔ c = equivalent := by
  cases c <;> decide

end Comparison

namespace Value

open Comparison

/-- The kinds of documents that are ordered: numbers, strings, booleans and arrays. -/
def isOrdered : Value → Bool
  | null | map _ => false
  | _ => true

/-! ## From the other side -/

mutual

theorem compare_swap : ∀ a b : Value, (a.compare b).swap = b.compare a
  | .null, b => by cases b <;> rfl
  | .bool x, b => by
    cases b with
    | bool y => exact swap_ofOrdering_compare
    | _ => rfl
  | .int i, b => by
    cases b with
    | int j => exact swap_ofOrdering_compare
    | real y => exact Binary64.compare_swap _ _
    | _ => rfl
  | .real x, b => by
    cases b with
    | int _ | real _ => exact Binary64.compare_swap _ _
    | _ => rfl
  | .str s, b => by
    cases b with
    | str t => exact swap_ofOrdering_compare
    | _ => rfl
  | .arr as, b => by
    cases b with
    | arr bs => exact compareItems_swap as bs
    | _ => rfl
  | .map ms, b => by cases b <;> rfl

theorem compareItems_swap : ∀ as bs, (compareItems as bs).swap = compareItems bs as
  | [], bs => by cases bs <;> rfl
  | a :: as, bs => by
    cases bs with
    | nil => rfl
    | cons b bs =>
      rw [compareItems, compareItems, beq_comm b a]
      split
      · exact compareItems_swap as bs
      · exact compare_swap a b

end

/-! ## Equivalence -/

mutual

theorem compare_eq_equivalent_iff :
    ∀ a b : Value, a.compare b = .equivalent ↔ (a == b) = true ∧ a.isOrdered = true
  | .null, b => by cases b <;> exact ⟨nofun, nofun⟩
  | .bool x, b => by
    cases b with
    | bool y => exact ofOrdering_compare_eq_equivalent_iff.trans (and_iff_left rfl).symm
    | _ => exact ⟨nofun, nofun⟩
  | .int i, b => by
    cases b with
    | int j => exact ofOrdering_compare_eq_equivalent_iff.trans (and_iff_left rfl).symm
    | real y => exact Binary64.compare_eq_equivalent_iff.trans (and_iff_left rfl).symm
    | _ => exact ⟨nofun, nofun⟩
  | .real x, b => by
    cases b with
    | int _ | real _ => exact Binary64.compare_eq_equivalent_iff.trans (and_iff_left rfl).symm
    | _ => exact ⟨nofun, nofun⟩
  | .str s, b => by
    cases b with
    | str t => exact ofOrdering_compare_eq_equivalent_iff.trans (and_iff_left rfl).symm
    | _ => exact ⟨nofun, nofun⟩
  | .arr as, b => by
    cases b with
    | arr bs => exact (compareItems_eq_equivalent_iff as bs).trans (and_iff_left rfl).symm
    | _ => exact ⟨nofun, nofun⟩
  | .map ms, b => by cases b <;> exact ⟨nofun, nofun⟩

theorem compareItems_eq_equivalent_iff : ∀ as bs, compareItems as bs = .equivalent ↔ beqItems as bs = true
  | [], bs => by cases bs <;> simp [compareItems, beqItems]
  | a :: as, bs => by
    cases bs with
    | nil => exact ⟨nofun, nofun⟩
    | cons b bs =>
      rw [compareItems, beqItems, Bool.and_eq_true]
      split
      case isTrue hab => exact (compareItems_eq_equivalent_iff as bs).trans (and_iff_right hab).symm
      case isFalse hab =>
        -- the pair that decides is not equal, so it is not equivalent either
        exact ⟨fun h => absurd ((compare_eq_equivalent_iff a b).1 h).1 hab, fun h => absurd h.1 hab⟩

end

/-- Only documents of an ordered kind are comparable. -/
theorem isOrdered_of_compare_ne {a b : Value} (h : a.compare b ≠ .incomparable) : a.isOrdered = true := by
  cases a with
  | null | map _ => cases b <;> exact absurd rfl h
  | _ => rfl

/-- A comparison seen from the other side is turned round; documents are equivalent just where they are equal and of an
ordered kind; and of two comparable documents one meets the other as a target both from above and from below just where
they are equal. -/
theorem compare_laws (a b : Value) :
    b.compare a = (a.compare b).swap ∧
      (a.compare b = .equivalent ↔ (a == b) = true ∧ a.isOrdered = true) ∧
      (Query.Operator.gte.holds b a = true ∧ Query.Operator.lte.holds b a = true ↔
        a.compare b ≠ .incomparable ∧ (a == b) = true) := by
  have hequivalent := compare_eq_equivalent_iff a b
  refine ⟨(compare_swap a b).symm, hequivalent, ?_⟩
  rw [Query.Operator.holds, Query.Operator.holds, eq_equivalent_iff]
  constructor
  · intro h
    rw [h]
    exact ⟨nofun, (hequivalent.1 h).1⟩
  · rintro ⟨hcomparable, heq⟩
    exact hequivalent.2 ⟨heq, isOrdered_of_compare_ne hcomparable⟩

end Value

end RecordStore
