import RecordStore.Json.Basic
import RecordStore.Number.Decimal
import RecordStore.Text.Numeral

/-!
# JSON text: reading

A strict reader: no blanks but the four of JSON, no control character or unpaired surrogate in a string, and no number
past the largest real. An integer that no 64-bit word holds is read as the nearest real; of several fields with one
name the last stays. Every call works on a shorter rest than its caller or was made by one that does, so twice the
length of the text bounds the depth of calls.
-/

namespace RecordStore.Json

def isBlank (c : Char) : Bool := c = ' ' || c = '\t' || c = '\n' || c = '\r'

def skipBlank (cs : List Char) : List Char := cs.dropWhile isBlank

/-- What follows the word, if the text begins with it. -/
def afterWord? : (word : List Char) → List Char → Option (List Char)
  | [], cs => some cs
  | _ :: _, [] => none
  | w :: word, c :: cs => if w = c then afterWord? word cs else none

/-! ## Strings -/

/-- The 16-bit unit that four hexadecimal digits spell. -/
def unit? : List Char → Option (Nat × List Char)
  | a :: b :: c :: d :: rest => (Text.numeral? 16 [a, b, c, d]).map fun unit => (unit, rest)
  | _ => none

/-- The character that the units after a backslash and a `u` stand for; a high surrogate needs a low one after it. -/
def unicode? (cs : List Char) : Option (Char × List Char) := do
  let (high, rest) ← unit? cs
  if high < 0xD800 ∨ 0xDFFF < high then return (Char.ofNat high, rest)
  else if 0xDC00 ≤ high then none
  else
    let (low, rest) ← unit? (← afterWord? ['\\', 'u'] rest)
    if low < 0xDC00 ∨ 0xDFFF < low then none
    else return (Char.ofNat (0x10000 + (high - 0xD800) * 0x400 + (low - 0xDC00)), rest)

/-- The character that stands after a backslash. -/
def unescape? : List Char → Option (Char × List Char)
  | [] => none
  | c :: rest =>
    if c = '"' ∨ c = '\\' ∨ c = '/' then some (c, rest)
    else if c = 'b' then some ('\x08', rest)
    else if c = 'f' then some ('\x0c', rest)
    else if c = 'n' then some ('\n', rest)
    else if c = 'r' then some ('\r', rest)
    else if c = 't' then some ('\t', rest)
    else if c = 'u' then unicode? rest
    else none

/-- The characters up to the closing quote, and what follows it. -/
def readString : (fuel : Nat) → List Char → Option (List Char × List Char)
  | 0, _ => none
  | _, [] => none
  | fuel + 1, c :: rest =>
    if c = '"' then some ([], rest)
    else if c = '\\' then do
      let (d, rest) ← unescape? rest
      let (ds, rest) ← readString fuel rest
      return (d :: ds, rest)
    else if c.toNat < 0x20 then none
    else do
      let (ds, rest) ← readString fuel rest
      return (c :: ds, rest)

/-! ## Numbers -/

/-- One or more digits, and what follows them. -/
def digits? (cs : List Char) : Option (List Char × List Char) :=
  match cs.takeWhile Char.isDigit with
  | [] => none
  | ds => some (ds, cs.dropWhile Char.isDigit)

/-- The digits after a point; there are none without a point. -/
def fraction? : List Char → Option (List Char × List Char)
  | [] => some ([], [])
  | c :: rest => if c = '.' then digits? rest else some ([], c :: rest)

/-- The exponent, if there is one. -/
def exponent? : List Char → Option (Option Int × List Char)
  | [] => some (none, [])
  | c :: rest =>
    if c = 'e' ∨ c = 'E' then do
      let (negative, rest) := match rest with
        | '-' :: r => (true, r)
        | '+' :: r => (false, r)
        | r => (false, r)
      let (ds, rest) ← digits? rest
      let n := Nat.ofDigitChars 10 ds 0
      return (some (if negative then -(n : Int) else n), rest)
    else some (none, c :: rest)

/-- The integer where a word holds it, else the nearest real. -/
def ofInteger? (n : Int) : Option Json :=
  if IsWord n then some (int n)
  else
    let x := Decimal.nearest (n < 0) ⟨n.natAbs, 0⟩
    if x.isFinite then some (real x) else none

/-- A number without its sign. A zero before the point stands alone. -/
def readNumber (negative : Bool) (cs : List Char) : Option (Json × List Char) := do
  let (whole, rest) ← digits? cs
  if whole.head? = some '0' ∧ 1 < whole.length then none
  else
    let (fraction, rest) ← fraction? rest
    let (exponent, rest) ← exponent? rest
    if fraction = [] ∧ exponent = none then
      let n := Nat.ofDigitChars 10 whole 0
      return (← ofInteger? (if negative then -(n : Int) else n), rest)
    else
      let x := Decimal.nearest negative (.ofDigits whole fraction (exponent.getD 0))
      if x.isFinite then return (real x, rest) else none

/-! ## Documents -/

mutual

/-- The JSON document at the start of the text, and what follows it. -/
def readValue : (fuel : Nat) → List Char → Option (Json × List Char)
  | 0, _ => none
  | fuel + 1, cs =>
    match skipBlank cs with
    | [] => none
    | c :: rest =>
      if c = '[' then
        match skipBlank rest with
        | ']' :: rest => some (arr [], rest)
        | rest => do
          let (items, rest) ← readItems fuel rest
          return (arr items, rest)
      else if c = '{' then
        match skipBlank rest with
        | '}' :: rest => some (obj [], rest)
        | rest => do
          let (fields, rest) ← readFields fuel [] rest
          return (obj fields, rest)
      else if c = '"' then do
        let (s, rest) ← readString fuel rest
        return (str (.ofList s), rest)
      else if c = '-' then readNumber true rest
      else if c.isDigit then readNumber false (c :: rest)
      else if c = 'n' then (afterWord? ['u', 'l', 'l'] rest).map fun rest => (null, rest)
      else if c = 't' then (afterWord? ['r', 'u', 'e'] rest).map fun rest => (bool true, rest)
      else if c = 'f' then (afterWord? ['a', 'l', 's', 'e'] rest).map fun rest => (bool false, rest)
      else none

/-- Items up to the closing bracket. -/
def readItems : (fuel : Nat) → List Char → Option (List Json × List Char)
  | 0, _ => none
  | fuel + 1, cs => do
    let (item, rest) ← readValue fuel cs
    match skipBlank rest with
    | ']' :: rest => return ([item], rest)
    | ',' :: rest =>
      let (items, rest) ← readItems fuel rest
      return (item :: items, rest)
    | _ => none

/-- Fields up to the closing brace, added to the ones before. -/
def readFields : (fuel : Nat) → List (String × Json) → List Char → Option (List (String × Json) × List Char)
  | 0, _, _ => none
  | fuel + 1, fields, cs =>
    match skipBlank cs with
    | '"' :: rest => do
      let (name, rest) ← readString fuel rest
      match skipBlank rest with
      | ':' :: rest =>
        let (j, rest) ← readValue fuel rest
        let fields := Entries.insert (String.ofList name) j fields
        match skipBlank rest with
        | '}' :: rest => return (fields, rest)
        | ',' :: rest => readFields fuel fields rest
        | _ => none
      | _ => none
    | _ => none

end

/-- The document that the characters spell, blanks around it allowed. -/
def readAll (cs : List Char) : Option Json := do
  let (j, rest) ← readValue (2 * cs.length + 2) cs
  if skipBlank rest = [] then return j else none

/-- The JSON document that a text spells; a byte-order mark before it is skipped. -/
def parse? (text : String) : Option Json :=
  match text.toList with
  | '\uFEFF' :: cs => readAll cs
  | cs => readAll cs

end RecordStore.Json
