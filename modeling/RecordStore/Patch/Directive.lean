import RecordStore.Patch.Error
import RecordStore.Selector.Loader
import RecordStore.Value.Order

/-!
# Directives of an array edit

A map whose keys all start with `$` edits an array. Each key is a directive: `$[i]` addresses an element by index and
`$selector` every element that a selector matches; with a plus sign after the `$` it inserts at an index, or appends
unless some element matches, and `$+` alone always appends.
-/

namespace RecordStore.Patch

/-! ## Kinds of patch nodes -/

/-- What the keys of a map say about it. -/
inductive Kind where
  | plain
  | arrayEdit
  | mixed
deriving DecidableEq, Repr

def isDirective : Key → Bool
  | .str s => s.toList.head? = some '$'
  | .int _ => false

/-- Directives only, other keys only, or both; the empty map is plain. -/
def kind (ms : Members) : Kind :=
  if ms.all fun e => !isDirective e.1 then .plain
  else if ms.all fun e => isDirective e.1 then .arrayEdit
  else .mixed

/-! ## Reading a directive -/

/-- What a directive asks for. A negative index counts from the end. -/
inductive Directive where
  | edit (index : Int)
  | editMatching (selector : Value)
  | insert (index : Int)
  | append
  | appendUnless (selector : Value)
deriving Repr

/-- The integer that an optional sign and decimal digits write, within 64 bits; a plus sign may stand before a minus
sign. -/
def index? (cs : List Char) : Option Int :=
  let signed := match cs with
    | '+' :: rest => rest
    | _ => cs
  let (negative, digits) := match signed with
    | '-' :: rest => (true, rest)
    | _ => (false, signed)
  if digits = [] then none
  else
    (Text.numeral? 10 digits).bind fun n =>
      let i := if negative then -(n : Int) else n
      if IsInt64 i then some i else none

/-- What stands between brackets, if the text begins and ends with them. -/
def bracketed? : List Char → Option (List Char)
  | '[' :: rest => if rest.getLast? = some ']' then some rest.dropLast else none
  | _ => none

/-- The address after the sign characters of a directive. -/
def Directive.ofAddress (inserts : Bool) (address : List Char) : Except Cause Directive :=
  match bracketed? address with
  | some inner =>
    match index? inner with
    | some i => .ok (if inserts then .insert i else .edit i)
    | none => .error .badIndex
  | none =>
    if address = [] then if inserts then .ok .append else .error .emptyDirective
    else
      match Selector.parse (.ofList address) with
      | .ok selector => .ok (if inserts then .appendUnless selector else .editMatching selector)
      | .error e => .error (.badSelector e.message)

/-- Reads what stands after the `$` of a key; what it inserts must not be null. -/
def Directive.ofSigned (value : Value) : List Char → Except Cause Directive
  | '+' :: address => if value.isNull then .error .nullInsertion else ofAddress true address
  | address => ofAddress false address

/-- Reads a key that starts with `$`. Only the text of a key can be read, and its first character has to be there. -/
def Directive.ofKey (key : Key) (value : Value) : Except Cause Directive :=
  match key with
  | .int _ => .error (.fault .badAccess)
  | .str text =>
    match text.toList with
    | [] => .error (.fault .badPosition)
    | _ :: signed => ofSigned value signed

/-! ## Addressing elements -/

/-- A selector matches an element that equals it and an array that holds it; a map selects the maps that have all its
members. -/
def elementMatches (element selector : Value) : Bool :=
  match selector with
  | .map wanted =>
    match element with
    | .map ms => wanted.all fun e => (Entries.find? e.1 ms).any (· == e.2)
    | _ => false
  | _ =>
    element == selector ||
      match element with
      | .arr inner => Value.listContains inner selector
      | _ => false

/-- The positions of the elements that a selector matches, counted from `start`. -/
def matchingFrom (selector : Value) (start : Nat) : List Value → List Nat
  | [] => []
  | v :: vs =>
    if elementMatches v selector then start :: matchingFrom selector (start + 1) vs
    else matchingFrom selector (start + 1) vs

/-- The position that an index stands for in an array of the given size; below the start it is the start. -/
def position (size : Nat) (index : Int) : Nat := (if index < 0 then index + size else index).toNat

end RecordStore.Patch
