import RecordStore.Path

/-!
# Making room at a path

`populate` makes a path lead somewhere: a null becomes a map, a missing member is created, and an array is padded with
nulls up to the index asked for. It fails at a scalar, at an array under a segment that is no index, and at an index too
far past the end. Once anything has been created only nulls follow, so a failure leaves the document as it was.
-/

namespace RecordStore.Update

/-- Why a path cannot be made to lead anywhere. -/
inductive Obstacle where
  | notAnIndex (segment : String)
  | tooFar (segment : String)
  | scalar (v : Value)
deriving Repr

/-- An obstacle and the segments before it. -/
structure Blocked where
  before : List String
  obstacle : Obstacle
deriving Repr

/-- The same obstacle seen from one level further out. -/
def Blocked.under (segment : String) (b : Blocked) : Blocked := { b with before := segment :: b.before }

/-- How far past the end of an array an index may lie. -/
def maxPadding : Nat := 10000

/-- The array with nulls after it, long enough to have the index. -/
def padded (items : List Value) (i : Nat) : List Value := items ++ List.replicate (i + 1 - items.length) .null

/-- The document with something at the path: what was there already, or null. -/
def populate : List String → Value → Except Blocked Value
  | [], v => .ok v
  | s :: path, .null => ((populate path .null).mapError (.under s)).map fun member => .map [(.str s, member)]
  | s :: path, .map ms =>
    ((populate path ((Path.child? ms s).getD .null)).mapError (.under s)).map fun member =>
      .map (Entries.insert (Path.key ms s) member ms)
  | s :: path, .arr items =>
    match Path.index? s with
    | none => .error ⟨[], .notAnIndex s⟩
    | some i =>
      if maxPadding < i - items.length then .error ⟨[], .tooFar s⟩
      else
        ((populate path (items.getD i .null)).mapError (.under s)).map fun element =>
          .arr ((padded items i).set i element)
  | _ :: _, v => .error ⟨[], .scalar v⟩

end RecordStore.Update
