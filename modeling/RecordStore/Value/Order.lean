import RecordStore.Value.Basic

/-!
# Equality and order of documents

An integer equals a real when the real nearest to it does; two integers are compared exactly. All other equal documents
are of one kind and equal part by part. Only numbers, strings, booleans and arrays are ordered, each with its own kind;
of two arrays the first pair of unequal elements decides, and without one the lengths do.
-/

namespace RecordStore.Value

mutual

/-- Documents that hold the same, an integer and a real by numeric value. -/
protected def beq : Value → Value → Bool
  | null, null => true
  | bool a, bool b => a == b
  | int i, int j => i == j
  | int i, real y => (Binary64.ofInt i.toInt).equal y
  | real x, int j => x.equal (.ofInt j.toInt)
  | real x, real y => x.equal y
  | str s, str t => s == t
  | arr as, arr bs => beqItems as bs
  | map ms, map ns => beqMembers ms ns
  | _, _ => false

def beqItems : List Value → List Value → Bool
  | [], [] => true
  | a :: as, b :: bs => a.beq b && beqItems as bs
  | _, _ => false

def beqMembers : List (Key × Value) → List (Key × Value) → Bool
  | [], [] => true
  | (k, a) :: ms, (l, b) :: ns => k == l && a.beq b && beqMembers ms ns
  | _, _ => false

end

instance : BEq Value := ⟨Value.beq⟩

mutual

/-- How one document stands to another. -/
def compare : Value → Value → Comparison
  | int i, int j => .ofOrdering (Ord.compare i j)
  | int i, real y => (Binary64.ofInt i.toInt).compare y
  | real x, int j => x.compare (.ofInt j.toInt)
  | real x, real y => x.compare y
  | str s, str t => .ofOrdering (Ord.compare s t)
  | bool a, bool b => .ofOrdering (Ord.compare a b)
  | arr as, arr bs => compareItems as bs
  | _, _ => .incomparable

def compareItems : List Value → List Value → Comparison
  | [], [] => .equivalent
  | [], _ :: _ => .less
  | _ :: _, [] => .greater
  | a :: as, b :: bs => if a == b then compareItems as bs else a.compare b

end

/-- Some element equals the item. -/
def listContains (items : List Value) (item : Value) : Bool := items.any (· == item)

end RecordStore.Value
