/-!
# Numerals in a base

The digits of all bases up to sixteen, letters in either case; a digit has to be below the base.
-/

namespace RecordStore.Text

/-- The value of a hexadecimal digit. -/
def digitValue? (c : Char) : Option Nat :=
  if c.isDigit then some (c.toNat - '0'.toNat)
  else if 'a' ≤ c && c ≤ 'f' then some (c.toNat - 'a'.toNat + 10)
  else if 'A' ≤ c && c ≤ 'F' then some (c.toNat - 'A'.toNat + 10)
  else none

/-- The value of a digit of the base. -/
def digit? (base : Nat) (c : Char) : Option Nat := (digitValue? c).filter (· < base)

/-- Continues a numeral whose value so far is `value`. -/
def continue? (base : Nat) (value : Nat) : List Char → Option Nat
  | [] => some value
  | c :: cs => do continue? base (value * base + (← digit? base c)) cs

/-- The value of a numeral; no digits at all are worth zero. -/
def numeral? (base : Nat) (cs : List Char) : Option Nat := continue? base 0 cs

end RecordStore.Text
