import RecordStore.Comparison

/-!
# Binary64 numbers

A real is its 64-bit word: a sign bit above the *magnitude*, the other 63 bits. Magnitudes of finite numbers are
numbered in the order of the numbers, so comparing two reals is comparing two integers (`rank`), and infinity and the
words that are not a number come after all finite ones. Values are exact multiples of 2^-1074 (`units`), so rounding
is exact arithmetic on natural numbers as well.

* `compare_swap`: a comparison seen from the other side is turned round.
* `equal_eq_true_iff`: equality is equality of ranks where both are numbers.
-/

namespace RecordStore

/-- A double-precision number, by its word. -/
structure Binary64 where
  bits : UInt64
deriving DecidableEq, Repr

namespace Binary64

/-! ## Fields of the word -/

/-- The bits below the sign. -/
def magnitude (x : Binary64) : Nat := x.bits.toNat % (1 <<< 63)

def isNegative (x : Binary64) : Bool := 1 <<< 63 ≤ x.bits.toNat

/-- The eleven bits below the sign. -/
def exponent (x : Binary64) : Nat := x.magnitude >>> 52

/-- The lowest 52 bits. -/
def fraction (x : Binary64) : Nat := x.magnitude % (1 <<< 52)

/-- The fraction with the leading bit that the word of a normal number leaves out. -/
def significand (x : Binary64) : Nat := if x.exponent = 0 then x.fraction else (1 <<< 52) + x.fraction

/-- The magnitude of infinity: all exponent bits and no fraction. -/
def infinityMagnitude : Nat := 2047 <<< 52

def isNaN (x : Binary64) : Bool := infinityMagnitude < x.magnitude

def isFinite (x : Binary64) : Bool := x.magnitude < infinityMagnitude

def ofMagnitude (negative : Bool) (m : Nat) : Binary64 :=
  ⟨UInt64.ofNat (if negative then (1 <<< 63) + m else m)⟩

def zero : Binary64 := ⟨0⟩

def infinity : Binary64 := ofMagnitude false infinityMagnitude

def nan : Binary64 := ofMagnitude false (infinityMagnitude + (1 <<< 51))

/-- The number with the other sign. -/
def neg (x : Binary64) : Binary64 := ofMagnitude (!x.isNegative) x.magnitude

/-- The same number with one word for all that are not a number. -/
def canonical (x : Binary64) : Binary64 := if x.isNaN then nan else x

/-! ## Order -/

/-- The place of a number among all numbers; both zeros have rank 0. -/
def rank (x : Binary64) : Int := if x.isNegative then -(x.magnitude : Int) else x.magnitude

def equal (x y : Binary64) : Bool := !x.isNaN && !y.isNaN && x.rank == y.rank

def compare (x y : Binary64) : Comparison :=
  if x.isNaN || y.isNaN then .unordered else .ofOrdering (Ord.compare x.rank y.rank)

theorem compare_swap (x y : Binary64) : (x.compare y).swap = y.compare x := by
  unfold compare
  rw [Bool.or_comm y.isNaN]
  split
  · rfl
  · rw [Comparison.swap_ofOrdering, ← Std.OrientedOrd.eq_swap]

theorem equal_eq_true_iff {x y : Binary64} :
    x.equal y = true ↔ x.isNaN = false ∧ y.isNaN = false ∧ x.rank = y.rank := by
  simp [equal, and_assoc]

theorem equal_comm (x y : Binary64) : x.equal y = y.equal x := by
  unfold equal
  rw [Bool.and_comm (!x.isNaN), BEq.comm]

theorem equal_trans {x y z : Binary64} (hxy : x.equal y = true) (hyz : y.equal z = true) : x.equal z = true := by
  rw [equal_eq_true_iff] at hxy hyz ⊢
  exact ⟨hxy.1, hyz.2.1, hxy.2.2.trans hyz.2.2⟩

theorem equal_self {x : Binary64} (h : x.isNaN = false) : x.equal x = true := equal_eq_true_iff.2 ⟨h, h, rfl⟩

theorem compare_eq_equivalent_iff {x y : Binary64} : x.compare y = .equivalent ↔ x.equal y = true := by
  rw [equal_eq_true_iff]
  unfold compare
  cases hx : x.isNaN <;> cases hy : y.isNaN <;> simp
  constructor
  · intro h
    cases hc : Ord.compare x.rank y.rank <;> rw [hc] at h <;> cases h
    exact Std.LawfulEqOrd.eq_of_compare hc
  · intro h
    rw [h, Std.ReflOrd.compare_self]
    rfl

/-! ## Values and rounding -/

/-- How many units of 2^-1074 make one. -/
def unitsInOne : Nat := 1 <<< 1074

/-- The value of a finite number without its sign, in units of 2^-1074. -/
def units (x : Binary64) : Nat := x.significand <<< (x.exponent - 1)

/-- The quotient to the nearest whole number, a half to the even one. -/
def roundedQuotient (num den : Nat) : Nat :=
  let whole := num / den
  let twice := 2 * (num % den)
  if den < twice ∨ (twice = den ∧ whole % 2 = 1) then whole + 1 else whole

/-- The magnitude nearest to `num / den`, that of infinity where no finite one is. Between two powers of two magnitudes
are `2 ^ shift` units apart, and the word of the first of them is `(shift + 1) * 2 ^ 52`. -/
def nearestMagnitude (num den : Nat) : Nat :=
  let scaled := num * unitsInOne
  let shift := Nat.log2 (scaled / den) - 52
  min ((shift <<< 52) + roundedQuotient scaled (den <<< shift)) infinityMagnitude

/-- The number nearest to the quotient, with the sign. -/
def ofQuotient (negative : Bool) (num den : Nat) : Binary64 := ofMagnitude negative (nearestMagnitude num den)

/-- The number nearest to an integer. -/
def ofInt (n : Int) : Binary64 := ofQuotient (n < 0) n.natAbs 1

theorem magnitude_ofMagnitude {m : Nat} (negative : Bool) (h : m < 1 <<< 63) :
    (ofMagnitude negative m).magnitude = m := by
  have hpow : 1 <<< 63 = 9223372036854775808 := by decide
  unfold magnitude ofMagnitude
  rw [hpow] at h ⊢
  cases negative <;> simp only [UInt64.toNat_ofNat'] <;> simp <;> omega

/-- What rounding gives is a number. -/
theorem isNaN_ofQuotient (negative : Bool) (num den : Nat) : (ofQuotient negative num den).isNaN = false := by
  have hle : nearestMagnitude num den ≤ infinityMagnitude := Nat.min_le_right _ _
  have hlt : infinityMagnitude < 1 <<< 63 := by decide
  unfold isNaN ofQuotient
  rw [magnitude_ofMagnitude _ (by omega)]
  simpa using hle

/-- The whole part of a finite number, toward zero. -/
def truncate (x : Binary64) : Int :=
  let whole := Int.ofNat (x.units / unitsInOne)
  if x.isNegative then -whole else whole

/-- One digit more in a positional numeral: `acc * radix` rounded, then `digit` added and rounded. Neither operand is
negative. -/
def appendDigit (radix : Nat) (acc digit : Binary64) : Binary64 :=
  let scaled := if acc.isFinite then ofQuotient false (acc.units * radix) unitsInOne else acc
  if scaled.isFinite && digit.isFinite then ofQuotient false (scaled.units + digit.units) unitsInOne else infinity

end Binary64

end RecordStore
