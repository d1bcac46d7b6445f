import RecordStore.Json.Basic
import RecordStore.Number.Shortest

/-!
# JSON text: printing

Compact text has no blanks. Indented text has each item on a line of its own, and a blank after the colon; empty arrays
and objects stay on one line. In strings only the quote, the backslash and control characters are escaped. A real is
written by its shortest digits; infinities and words that are not a number have no JSON form and become null.
-/

namespace RecordStore.Json

/-! ## Strings -/

/-- A hexadecimal digit, in lower case. -/
def hexDigit (n : Nat) : Char := Nat.digitChar (n % 16)

/-- A character as it stands inside a quoted string. -/
def escape (c : Char) : List Char :=
  if c = '"' then ['\\', '"']
  else if c = '\\' then ['\\', '\\']
  else if c = '\x08' then ['\\', 'b']
  else if c = '\x0c' then ['\\', 'f']
  else if c = '\n' then ['\\', 'n']
  else if c = '\r' then ['\\', 'r']
  else if c = '\t' then ['\\', 't']
  else if c.toNat < 0x20 then ['\\', 'u', '0', '0', hexDigit (c.toNat / 16), hexDigit c.toNat]
  else [c]

def quoted (s : String) : List Char := '"' :: (s.toList.flatMap escape ++ ['"'])

/-! ## Numbers -/

def integerText (n : Int) : List Char :=
  if n < 0 then '-' :: Nat.toDigits 10 n.natAbs else Nat.toDigits 10 n.natAbs

/-- Where positional notation ends: the point of a number so written stands less than four places before its digits and
not more than fifteen places after the first. -/
structure PositionalRange where
  first : Int
  last : Int

/-- The numbers from 0.0001 up to, but not including, 1e15 are written positionally. -/
def positional : PositionalRange := ⟨-3, 15⟩

/-- A decimal exponent: its sign and at least two digits. -/
def exponentText (e : Int) : List Char :=
  let digits := Nat.toDigits 10 e.natAbs
  'e' :: (if e < 0 then '-' else '+') :: (if digits.length < 2 then '0' :: digits else digits)

/-- The digits of a positive number with its point or its exponent. -/
def digitsText (d : Binary64.Digits) : List Char :=
  if positional.first ≤ d.point ∧ d.point ≤ positional.last then
    if d.point ≤ 0 then '0' :: '.' :: (List.replicate (-d.point).toNat '0' ++ d.digits)
    else if d.point < d.digits.length then d.digits.take d.point.toNat ++ '.' :: d.digits.drop d.point.toNat
    else d.digits ++ List.replicate (d.point.toNat - d.digits.length) '0' ++ ['.', '0']
  else
    match d.digits with
    | [] => []
    | first :: [] => first :: exponentText (d.point - 1)
    | first :: rest => first :: '.' :: (rest ++ exponentText (d.point - 1))

def realText (x : Binary64) : List Char :=
  if !x.isFinite then ['n', 'u', 'l', 'l']
  else
    let unsigned := if x.magnitude = 0 then ['0', '.', '0'] else digitsText x.shortest
    if x.isNegative then '-' :: unsigned else unsigned

/-! ## Layout -/

/-- What stands before an item or a closing bracket: nothing in compact text, else a line break and the indentation. -/
def lineBreak (indent : Option Nat) (depth : Nat) : List Char :=
  match indent with
  | none => []
  | some width => '\n' :: List.replicate (width * depth) ' '

def fieldMark (indent : Option Nat) : List Char :=
  match indent with
  | none => [':']
  | some _ => [':', ' ']

mutual

/-- The text of a JSON document whose first line is at the given depth. -/
def print (indent : Option Nat) (depth : Nat) : Json → List Char
  | null => ['n', 'u', 'l', 'l']
  | bool true => ['t', 'r', 'u', 'e']
  | bool false => ['f', 'a', 'l', 's', 'e']
  | int n => integerText n
  | real x => realText x
  | str s => quoted s
  | arr [] => ['[', ']']
  | arr (j :: js) =>
    '[' :: (lineBreak indent (depth + 1) ++ print indent (depth + 1) j ++ printItems indent (depth + 1) js
      ++ lineBreak indent depth ++ [']'])
  | obj [] => ['{', '}']
  | obj ((name, j) :: fields) =>
    '{' :: (lineBreak indent (depth + 1) ++ quoted name ++ fieldMark indent ++ print indent (depth + 1) j
      ++ printFields indent (depth + 1) fields ++ lineBreak indent depth ++ ['}'])

/-- All items but the first, each after a comma. -/
def printItems (indent : Option Nat) (depth : Nat) : List Json → List Char
  | [] => []
  | j :: js => ',' :: (lineBreak indent depth ++ print indent depth j ++ printItems indent depth js)

/-- All fields but the first, each after a comma. -/
def printFields (indent : Option Nat) (depth : Nat) : List (String × Json) → List Char
  | [] => []
  | (name, j) :: fields =>
    ',' :: (lineBreak indent depth ++ quoted name ++ fieldMark indent ++ print indent depth j
      ++ printFields indent depth fields)

end

/-- The text of a JSON document; a negative indentation asks for compact text. -/
def dump (j : Json) (indent : Int) : String :=
  String.ofList (j.print (if indent < 0 then none else some indent.toNat) 0)

end RecordStore.Json

namespace RecordStore.Value

/-- The JSON text of a document; a negative indentation asks for compact text. -/
def dump (v : Value) (indent : Int) : String := v.toJson.dump indent

/-- The JSON text of a document on one line. -/
def compact (v : Value) : String := v.dump (-1)

end RecordStore.Value
