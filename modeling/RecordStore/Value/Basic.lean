import RecordStore.Entries
import RecordStore.Number.Binary64

/-!
# Documents

A document is a scalar, an array of documents or a map from keys to documents. Keys are 64-bit integers or strings, and
integer keys come before string keys: `Key.compare_eq_eq_iff` says that the order tells all keys apart. The members of
a map are listed in key order (`Value.Sorted`).
-/

namespace RecordStore

/-- The name of a member of a map. Integer key `1` and string key `"1"` differ. -/
inductive Key where
  | int (i : Int64)
  | str (s : String)
deriving DecidableEq, Repr

namespace Key

/-- Integers first, in their order; then strings, in the order of their characters. -/
protected def compare : Key → Key → Ordering
  | int i, int j => Ord.compare i j
  | int _, str _ => .lt
  | str _, int _ => .gt
  | str s, str t => Ord.compare s t

instance : Ord Key := ⟨Key.compare⟩

/-- The decimal text of an integer key, and a string key as it is. -/
def text : Key → String
  | int i => toString i.toInt
  | str s => s

theorem compare_eq_eq_iff {k l : Key} : Ord.compare k l = .eq ↔ k = l := by
  cases k with
  | int i =>
    cases l with
    | int j => exact (Std.compare_eq_iff_eq (a := i) (b := j)).trans (by rw [int.injEq])
    | str t => exact ⟨nofun, nofun⟩
  | str s =>
    cases l with
    | int j => exact ⟨nofun, nofun⟩
    | str t => exact (Std.compare_eq_iff_eq (a := s) (b := t)).trans (by rw [str.injEq])

end Key

/-- A document. -/
inductive Value where
  | null
  | bool (b : Bool)
  | int (i : Int64)
  | real (x : Binary64)
  | str (s : String)
  | arr (items : List Value)
  | map (members : List (Key × Value))
deriving Repr

/-- The integers that a document can hold. -/
def IsInt64 (n : Int) : Prop := -9223372036854775808 ≤ n ∧ n ≤ 9223372036854775807

instance (n : Int) : Decidable (IsInt64 n) := inferInstanceAs (Decidable (_ ∧ _))

/-- The members of a map, in key order. -/
abbrev Members := List (Key × Value)

namespace Value

instance : Inhabited Value := ⟨null⟩

/-- Induction on a document, through the elements of arrays and the members of maps. -/
@[elab_as_elim]
protected theorem induction {motive : Value → Prop} (null : motive null) (bool : ∀ b, motive (bool b))
    (int : ∀ i, motive (int i)) (real : ∀ x, motive (real x)) (str : ∀ s, motive (str s))
    (arr : ∀ items : List Value, (∀ v ∈ items, motive v) → motive (arr items))
    (map : ∀ ms : Members, (∀ e ∈ ms, motive e.2) → motive (map ms)) : ∀ v, motive v
  | .null => null
  | .bool b => bool b
  | .int i => int i
  | .real x => real x
  | .str s => str s
  | .arr items => arr items fun v _ => Value.induction null bool int real str arr map v
  | .map ms => map ms fun e _ => Value.induction null bool int real str arr map e.2
termination_by v => sizeOf v
decreasing_by
  · have := List.sizeOf_lt_of_mem ‹v ∈ items›
    simp only [Value.arr.sizeOf_spec]
    omega
  · have := List.sizeOf_lt_of_mem ‹e ∈ ms›
    obtain ⟨k, v⟩ := e
    simp only [Value.map.sizeOf_spec, Prod.mk.sizeOf_spec] at this ⊢
    omega

/-- The word for the kind of a document. -/
def typeName : Value → String
  | null => "null"
  | bool _ => "boolean"
  | int _ => "integer"
  | real _ => "real"
  | str _ => "string"
  | arr _ => "array"
  | map _ => "object"

def isNull : Value → Bool
  | null => true
  | _ => false

theorem isNull_eq_true_iff {v : Value} : v.isNull = true ↔ v = null := by
  cases v <;> simp [isNull]

theorem isNull_eq_false_iff {v : Value} : v.isNull = false ↔ v ≠ null := by
  rw [← Bool.not_eq_true, isNull_eq_true_iff]

def isMap : Value → Bool
  | map _ => true
  | _ => false

/-- Every document but arrays and maps. -/
def isScalar : Value → Bool
  | arr _ | map _ => false
  | _ => true

/-- The number of elements or members; a scalar has none. -/
def size : Value → Nat
  | arr items => items.length
  | map members => members.length
  | _ => 0

/-- The numeric content as a real. -/
def number? : Value → Option Binary64
  | int i => some (.ofInt i.toInt)
  | real x => some x
  | _ => none

/-- The members of a map; there are none to be had of any other document. -/
def members? : Value → Option Members
  | map ms => some ms
  | _ => none

/-- The document if it is a map, and otherwise an empty one. -/
def asMap (v : Value) : Value := if v.isMap then v else map []

/-- The members of a map; any other document counts as an empty one. -/
def members : Value → Members
  | map ms => ms
  | _ => []

theorem members?_asMap (v : Value) : v.asMap.members? = some v.members := by
  cases v <;> rfl

/-! ## Members by key -/

/-- The member under a key; there is none outside maps. -/
def find? (k : Key) : Value → Option Value
  | map ms => Entries.find? k ms
  | _ => none

def contains (k : Key) (v : Value) : Bool := (v.find? k).isSome

/-- The document without the member; only a map has one to lose. -/
def erase (k : Key) : Value → Value
  | map ms => map (Entries.erase k ms)
  | v => v

/-- The document with the member set, a null counting as an empty map; `none` for any other document. -/
def put? (v : Value) (k : Key) (member : Value) : Option Value :=
  match v with
  | null => some (map [(k, member)])
  | map ms => some (map (Entries.insert k member ms))
  | _ => none

/-- The member under a key, null when it is absent, with the document that surely has it. -/
def subscript? (v : Value) (k : Key) : Option (Value × Value) := do
  let member := (v.find? k).getD null
  return (member, ← v.put? k member)

/-! ## Key order -/

mutual

/-- The members of all maps in the document are in strictly ascending key order. -/
def Sorted : Value → Prop
  | arr items => SortedItems items
  | map ms => (ms.map Prod.fst).Pairwise (fun k l => Ord.compare k l = .lt) ∧ SortedMembers ms
  | _ => True

def SortedItems : List Value → Prop
  | [] => True
  | v :: vs => v.Sorted ∧ SortedItems vs

def SortedMembers : List (Key × Value) → Prop
  | [] => True
  | (_, v) :: ms => v.Sorted ∧ SortedMembers ms

end

end Value

end RecordStore
