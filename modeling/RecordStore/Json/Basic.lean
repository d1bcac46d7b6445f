import RecordStore.Value.Basic

/-!
# JSON documents

What a JSON text denotes: integers up to 64 bits, signed or not, are kept apart from reals, and the fields of an object
are listed in key order. A document becomes JSON by writing its integer keys in decimal (`Value.toJson`), and JSON
becomes a document by reading integers that need an unsigned word as reals (`Json.toValue`).
-/

namespace RecordStore

/-- A JSON document. -/
inductive Json where
  | null
  | bool (b : Bool)
  | int (n : Int)
  | real (x : Binary64)
  | str (s : String)
  | arr (items : List Json)
  | obj (fields : List (String × Json))
deriving Repr

namespace Json

instance : Inhabited Json := ⟨null⟩

/-- The word for the kind of a JSON document. -/
def typeName : Json → String
  | null => "null"
  | bool _ => "boolean"
  | int _ | real _ => "number"
  | str _ => "string"
  | arr _ => "array"
  | obj _ => "object"

/-- The integers that JSON keeps exact: the signed and the unsigned 64-bit words. -/
def IsWord (n : Int) : Prop := -9223372036854775808 ≤ n ∧ n ≤ 18446744073709551615

instance (n : Int) : Decidable (IsWord n) := inferInstanceAs (Decidable (_ ∧ _))

mutual

/-- The document that the JSON stands for; all its keys are strings. -/
def toValue : Json → Value
  | null => .null
  | bool b => .bool b
  | int n => if n ≤ 9223372036854775807 then .int (.ofInt n) else .real (.ofInt n)
  | real x => .real x
  | str s => .str s
  | arr items => .arr (toItems items)
  | obj fields => .map (toMembers fields)

def toItems : List Json → List Value
  | [] => []
  | j :: js => j.toValue :: toItems js

def toMembers : List (String × Json) → List (Key × Value)
  | [] => []
  | (name, j) :: fields => (.str name, j.toValue) :: toMembers fields

end

end Json

namespace Value

mutual

/-- The document as JSON. Where an integer key and a string key have one text, the member of the string key is kept,
because it comes later in key order. -/
def toJson : Value → Json
  | null => .null
  | bool b => .bool b
  | int i => .int i.toInt
  | real x => .real x
  | str s => .str s
  | arr items => .arr (toJsonItems items)
  | map ms => .obj (toJsonFields ms [])

def toJsonItems : List Value → List Json
  | [] => []
  | v :: vs => v.toJson :: toJsonItems vs

/-- Adds the members to fields that are already there. -/
def toJsonFields : List (Key × Value) → List (String × Json) → List (String × Json)
  | [], fields => fields
  | (k, v) :: ms, fields => toJsonFields ms (Entries.insert k.text v.toJson fields)

end

end Value

end RecordStore
