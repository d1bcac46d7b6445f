/-!
# Comparison operators

The last segment of a filter key may name an operator; without one the key asks for equality.
-/

namespace RecordStore.Query

/-- How the content at a path is compared with a target. -/
inductive Operator where
  | eq
  | neq
  | gt
  | gte
  | lt
  | lte
  | cont
  | ncont
deriving DecidableEq, Repr

namespace Operator

def name : Operator → String
  | eq => "eq"
  | neq => "neq"
  | gt => "gt"
  | gte => "gte"
  | lt => "lt"
  | lte => "lte"
  | cont => "cont"
  | ncont => "ncont"

/-- The operator of a name; `ne` is a second name of `neq`. -/
def ofName? : String → Option Operator
  | "eq" => some eq
  | "ne" => some neq
  | "neq" => some neq
  | "gt" => some gt
  | "gte" => some gte
  | "lt" => some lt
  | "lte" => some lte
  | "cont" => some cont
  | "ncont" => some ncont
  | _ => none

def isName (text : String) : Bool := (ofName? text).isSome

/-- The operators that hold where another one fails. -/
def isNegated : Operator → Bool
  | neq | ncont => true
  | _ => false

@[simp] theorem ofName?_name (op : Operator) : ofName? op.name = some op := by
  cases op <;> rfl

end Operator

end RecordStore.Query
