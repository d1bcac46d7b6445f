/-!
# Outcomes of a comparison

Documents are only partially ordered: two numbers one of which is not a number are *unordered*, and two documents of
different kinds are *incomparable*. Turning a comparison round is `Comparison.swap`, an involution (`swap_swap`).
-/

namespace RecordStore

/-- How one document stands to another. -/
inductive Comparison where
  | less
  | equivalent
  | greater
  | unordered
  | incomparable
deriving DecidableEq, Repr

namespace Comparison

/-- The comparison seen from the other side. -/
def swap : Comparison → Comparison
  | less => greater
  | greater => less
  | c => c

def ofOrdering : Ordering → Comparison
  | .lt => less
  | .eq => equivalent
  | .gt => greater

def isLess : Comparison → Bool
  | less => true
  | _ => false

def isGreater : Comparison → Bool
  | greater => true
  | _ => false

def isLessOrEquivalent : Comparison → Bool
  | less | equivalent => true
  | _ => false

def isGreaterOrEquivalent : Comparison → Bool
  | greater | equivalent => true
  | _ => false

@[simp] theorem swap_swap (c : Comparison) : c.swap.swap = c := by
  cases c <;> rfl

@[simp] theorem swap_ofOrdering (o : Ordering) : (ofOrdering o).swap = ofOrdering o.swap := by
  cases o <;> rfl

end Comparison

end RecordStore
