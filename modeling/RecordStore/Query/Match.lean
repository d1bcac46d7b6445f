import RecordStore.Path
import RecordStore.Query.Condition

/-!
# Matching documents

`walk` follows a path through a document and tests the contents that it leads to. On an array it tries every element at
the same place of the path and, if the segment is an index, that element at the next place; it seeks one outcome of the
test and settles for the other when it has not met it. A comparison seeks success, but a negated one seeks failure, and
a null target turns this round (`seeks`). What is absent is tested as null, and a scalar in the way gives the outcome
that is not sought.
-/

namespace RecordStore.Query

/-! ## Testing one content -/

/-- The content is the target or has it: an array holds it as an element, and of a list of targets one is enough. -/
def equalsOrContains : (content target : Value) → Bool
  | .arr items, .arr wanted => items.any fun item => Value.listContains wanted item
  | content, .arr wanted => Value.listContains wanted content
  | .arr items, target => Value.listContains items target
  | content, target => content == target

/-- A comparison with the content at the end of a path. -/
def Operator.holds (op : Operator) (target content : Value) : Bool :=
  match op with
  | eq | cont => equalsOrContains content target
  | neq | ncont => !equalsOrContains content target
  | gt => (content.compare target).isGreater
  | gte => (content.compare target).isGreaterOrEquivalent
  | lt => (content.compare target).isLess
  | lte => (content.compare target).isLessOrEquivalent

/-- The outcome that a comparison looks for among the contents of a path. -/
def Operator.seeks (op : Operator) (target : Value) : Bool := target.isNull == op.isNegated

/-! ## Following a path -/

section Walk

variable (seeks : Bool) (missing : Bool) (segment : String) (next : Value → Bool)

mutual

/-- Follows one segment and goes on with `next`; `missing` is the outcome for null. -/
def step : Value → Bool
  | .null => missing
  | .map ms => next ((Path.child? ms segment).getD .null)
  | .arr items =>
    if stepFinds items || ((Path.element? items segment).map next == some seeks) then seeks else !seeks
  | _ => !seeks

/-- One of the elements gives the outcome that is sought. -/
def stepFinds : List Value → Bool
  | [] => false
  | v :: vs => step v == seeks || stepFinds vs

end

end Walk

/-- Follows a path and tests what it leads to. -/
def walk (seeks : Bool) (test : Value → Bool) : List String → Value → Bool
  | [], v => test v
  | s :: path, v => step seeks (test .null) s (walk seeks test path) v

/-! ## Conditions -/

mutual

def Condition.holds : Condition → Value → Bool
  | .compare path op target, v => walk (op.seeks target) (op.holds target) path v
  | .each path conditions, v =>
    walk true (fun content =>
      match content with
      | .arr items => items.any fun item => allHold conditions item
      | _ => false) path v

/-- All conditions hold of the document. -/
def allHold : List Condition → Value → Bool
  | [], _ => true
  | c :: cs, v => c.holds v && allHold cs v

end

end RecordStore.Query
