import RecordStore.Query.Operator
import RecordStore.Value.Order

/-!
# Conditions

A condition compares the content at a path with a target, or asks for an array at a path with one element that
satisfies all nested conditions. A predicate is a list of conditions that all have to hold.
-/

namespace RecordStore.Query

/-- One condition on a document. -/
inductive Condition where
  | compare (path : List String) (op : Operator) (target : Value)
  | each (path : List String) (conditions : List Condition)
deriving Repr

namespace Condition

/-- Induction on a condition, through the conditions of a group. -/
@[elab_as_elim]
protected theorem induction {motive : Condition → Prop} (compare : ∀ path op target, motive (compare path op target))
    (each : ∀ path conditions, (∀ c ∈ conditions, motive c) → motive (each path conditions)) : ∀ c, motive c
  | .compare path op target => compare path op target
  | .each path conditions => each path conditions fun c _ => Condition.induction compare each c
termination_by c => sizeOf c
decreasing_by
  have := List.sizeOf_lt_of_mem ‹c ∈ conditions›
  simp only [Condition.each.sizeOf_spec]
  omega

mutual

/-- Conditions of one shape with equal targets. -/
protected def beq : Condition → Condition → Bool
  | compare path op target, compare path' op' target' => path == path' && op == op' && target == target'
  | each path conditions, each path' conditions' => path == path' && beqList conditions conditions'
  | _, _ => false

def beqList : List Condition → List Condition → Bool
  | [], [] => true
  | c :: cs, d :: ds => c.beq d && beqList cs ds
  | _, _ => false

end

instance : BEq Condition := ⟨Condition.beq⟩

end Condition

end RecordStore.Query
