import RecordStore.Number.Binary64

/-!
# Decimal numerals

A numeral in positional or scientific form denotes `digits * 10 ^ exponent`, and is read as the nearest binary64
number. Its size is known from its digit count, so a numeral far outside the range is not multiplied out.
-/

namespace RecordStore

/-- A decimal numeral, worth `digits * 10 ^ exponent`. -/
structure Decimal where
  digits : Nat
  exponent : Int
deriving DecidableEq, Repr

namespace Decimal

/-- The numeral `whole.fraction` times ten to the exponent. -/
def ofDigits (whole fraction : List Char) (exponent : Int) : Decimal :=
  ⟨Nat.ofDigitChars 10 (whole ++ fraction) 0, exponent - fraction.length⟩

/-- The numeral lies below `10 ^ order`, and not below a tenth of that. -/
def order (d : Decimal) : Int := (Nat.toDigits 10 d.digits).length + d.exponent

/-- The number nearest to the numeral: infinity past the largest number, zero below half of the smallest. -/
def nearest (negative : Bool) (d : Decimal) : Binary64 :=
  if d.digits = 0 ∨ d.order < -330 then .ofMagnitude negative 0
  else if 310 < d.order then .ofMagnitude negative Binary64.infinityMagnitude
  else if 0 ≤ d.exponent then .ofQuotient negative (d.digits * Nat.pow 10 d.exponent.toNat) 1
  else .ofQuotient negative d.digits (Nat.pow 10 (-d.exponent).toNat)

end Decimal

end RecordStore
