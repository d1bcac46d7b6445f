import RecordStore.Text.Numeral
import RecordStore.Text.Pieces

/-!
# Integer notations of plain scalars

After an optional sign an integer is written in binary (`0b101`), hexadecimal (`0x1f`), octal (`017`), decimal (`42`)
or in base 60 (`1:30:00`); underscores may stand among the digits, and a base mark may even have nothing but
underscores after it. `isInteger` recognises a notation. `int64?` reads one, by words of 64 bits; it gives nothing where
the integer does not fit into 64 bits.
-/

namespace RecordStore.Selector

/-- Whether a minus sign stands first, and what follows an optional sign. -/
def takeSign : List Char → Bool × List Char
  | '-' :: cs => (true, cs)
  | '+' :: cs => (false, cs)
  | cs => (false, cs)

def withoutUnderscores (cs : List Char) : List Char := cs.filter (· ≠ '_')

/-! ## Recognising a notation -/

/-- A digit of the base or an underscore. -/
def isSpacedDigit (base : Nat) (c : Char) : Bool := (Text.digit? base c).isSome || c = '_'

/-- One or two digits worth less than sixty. -/
def isSexagesimalDigit : List Char → Bool
  | [d] => (Text.digit? 10 d).isSome
  | [t, d] => (Text.digit? 6 t).isSome && (Text.digit? 10 d).isSome
  | _ => false

/-- A notation without its sign. -/
def isMagnitude : List Char → Bool
  | '0' :: 'b' :: ds => ds ≠ [] && ds.all (isSpacedDigit 2)
  | '0' :: 'x' :: ds => ds ≠ [] && ds.all (isSpacedDigit 16)
  | '0' :: ds => ds.all (isSpacedDigit 8)
  | cs =>
    match Text.pieces ':' cs with
    | (d :: ds) :: parts => (Text.digit? 10 d).isSome && ds.all (isSpacedDigit 10) && parts.all isSexagesimalDigit
    | _ => false

def isInteger (cs : List Char) : Bool := isMagnitude (takeSign cs).2

/-! ## Reading a notation -/

/-- The word that digits of the base write, if there is one; no digits at all are worth zero. -/
def word? (base : Nat) (ds : List Char) : Option UInt64 :=
  ((Text.numeral? base ds).filter (· < UInt64.size)).map UInt64.ofNat

def maxWord : UInt64 := 18446744073709551615

/-- The value of a numeral in base 60 with one more digit. -/
def accumulate? (value digit : UInt64) : Option UInt64 :=
  if value > (maxWord - digit) / 60 then none else some (value * 60 + digit)

/-- The value of a numeral in base 60 whose first parts are worth `value`. -/
def sexagesimal? (value : UInt64) : List (List Char) → Option UInt64
  | [] => some value
  | part :: parts => do sexagesimal? (← accumulate? value (← word? 10 part)) parts

/-- The value of a notation without its sign and underscores. -/
def magnitude? : List Char → Option UInt64
  | '0' :: 'b' :: ds => word? 2 ds
  | '0' :: 'x' :: ds => word? 16 ds
  | cs =>
    if ':' ∈ cs then sexagesimal? 0 (Text.pieces ':' cs)
    else
      match cs with
      | '0' :: d :: ds => word? 8 (d :: ds)
      | _ => word? 10 cs

/-- The greatest signed integer of 64 bits, as a word. -/
def maxSigned : UInt64 := 9223372036854775807

/-- The integer of a sign and a magnitude. -/
def signed? (negative : Bool) (magnitude : UInt64) : Option Int64 :=
  if negative then
    if magnitude > maxSigned + 1 then none
    else some (if magnitude = maxSigned + 1 then Int64.minValue else -magnitude.toInt64)
  else if magnitude > maxSigned then none
  else some magnitude.toInt64

/-- The integer that a notation denotes. -/
def int64? (cs : List Char) : Option Int64 :=
  let (negative, body) := takeSign (withoutUnderscores cs)
  (magnitude? body).bind (signed? negative)

end RecordStore.Selector
