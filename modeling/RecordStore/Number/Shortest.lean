import RecordStore.Number.Binary64

/-!
# Shortest decimal text of a binary64 number

Among the decimals that read back as a given number, `Binary64.shortest` picks one with the fewest digits, and of those
the nearest to the number. A decimal reads back exactly when it lies between the midpoints to the two neighbours, ends
included when the number's magnitude is even. Positions are measured in quarters of the gap above the number, so that
both midpoints are whole.
-/

namespace RecordStore

namespace Binary64

/-- The decimals that round to one number: those between `low / den` and `high / den`, the two ends among them where
`closed` holds. The number itself is `middle / den`. -/
structure Basin where
  low : Nat
  middle : Nat
  high : Nat
  den : Nat
  closed : Bool

/-- The decimals that round to a positive finite number. Below a power of two the gap is half of that above it. -/
def basin (x : Binary64) : Basin :=
  let below := if x.fraction = 0 ∧ 1 < x.exponent then 1 else 2
  let scale := x.exponent - 1
  { low := (4 * x.significand - below) <<< scale
    middle := (4 * x.significand) <<< scale
    high := (4 * x.significand + 2) <<< scale
    den := 4 * unitsInOne
    closed := x.magnitude % 2 = 0 }

/-- The decimal `c * 10 ^ p` lies in the basin. -/
def Basin.has (b : Basin) (c : Nat) (p : Int) : Bool :=
  let d := c * Nat.pow 10 p.toNat * b.den
  let unit := Nat.pow 10 (-p).toNat
  if b.closed then b.low * unit ≤ d && d ≤ b.high * unit else b.low * unit < d && d < b.high * unit

/-- The place of the first digit: the number lies below `10 ^ order` and not below a tenth of that. -/
def Basin.order (b : Basin) : Int :=
  if b.den ≤ b.middle then (Nat.toDigits 10 (b.middle / b.den)).length
  else 1 - ((Nat.toDigits 10 ((b.den - 1) / b.middle)).length : Int)

/-- The nearest decimal in the basin on the grid `10 ^ p`, if one of the two around the number is in it. -/
def Basin.onGrid? (b : Basin) (p : Int) : Option Nat :=
  let num := b.middle * Nat.pow 10 (-p).toNat
  let den := b.den * Nat.pow 10 p.toNat
  let c := num / den
  let r := num % den
  match b.has c p, b.has (c + 1) p with
  | false, false => none
  | true, false => some c
  | false, true => some (c + 1)
  | true, true => some (if 2 * r < den ∨ (2 * r = den ∧ c % 2 = 0) then c else c + 1)

/-- The first grid with a decimal in the basin, from `width` digits on; seventeen digits always have one. -/
def Basin.search (b : Basin) (width : Nat) : (tries : Nat) → Nat × Int
  | 0 => (0, 0)
  | tries + 1 =>
    let p := b.order - width
    match b.onGrid? p with
    | some c => (c, p)
    | none => b.search (width + 1) tries

/-- Digits without a last zero, and the place of the point before the first of them. -/
structure Digits where
  digits : List Char
  point : Int
deriving DecidableEq, Repr

/-- The shortest decimal that reads back as a positive finite number: `0.d₁d₂…` times ten to the `point`. -/
def shortest (x : Binary64) : Digits :=
  let found := x.basin.search 1 17
  let all := Nat.toDigits 10 found.1
  { digits := (all.reverse.dropWhile (· = '0')).reverse
    point := found.2 + all.length }

end Binary64

end RecordStore
