import Mathlib.Algebra.Order.Field.Basic
import Mathlib.Algebra.Order.Field.Power
import Mathlib.Data.Rat.Cast.Order
import Mathlib.Tactic.Ring
import RecordStore.Number.Decimal
import RecordStore.Proofs.Number.Rounding

/-!
# Decimals outside the range of reals

A number rounds to zero up to half of the smallest real, 2^-1074, and to infinity from halfway between the largest real
and 2^1024 on; both borders are ties, and the even side of them is out of range (`InRange`). So the real nearest to a
decimal is finite, and zero only for zero itself, just if the decimal is in range (`Decimal.nearest_spec`): the
digit count, by which a decimal far away is told without multiplying it out, decides no other way.
-/

namespace RecordStore

/-- A number whose nearest real is finite, and zero only for zero itself. -/
def InRange (q : ℚ) : Prop := q = 0 ∨ 1 / 2 ^ 1075 < q ∧ q < 2 ^ 1024 - 2 ^ 970

namespace Binary64

/-! ## Borders of rounding -/

variable {num den : Nat}

/-- Just half of the divisor is rounded down to zero. -/
theorem roundedQuotient_eq_zero_iff (hden : 0 < den) : roundedQuotient num den = 0 ↔ 2 * num ≤ den := by
  unfold roundedQuotient
  dsimp only
  rcases Nat.lt_or_ge num den with hlt | hge
  · rw [Nat.div_eq_of_lt hlt, Nat.mod_eq_of_lt hlt]
    split <;> omega
  · have hpos : 0 < num / den := Nat.div_pos hge hden
    split <;> omega

/-- Halfway above an odd number is rounded up. -/
theorem lt_roundedQuotient_iff {whole : Nat} (hden : 0 < den) (hodd : whole % 2 = 1) :
    whole < roundedQuotient num den ↔ (2 * whole + 1) * den ≤ 2 * num := by
  obtain ⟨hlow, hhigh⟩ := roundedQuotient_bounds num den
  have hnum := Nat.div_add_mod num den
  have hrest := Nat.mod_lt num hden
  have hborder : (2 * whole + 1) * den = 2 * (den * whole) + den := by ring
  rw [hborder]
  rcases Nat.lt_trichotomy (num / den) whole with hlt | heq | hgt
  · have hle : den * (num / den + 1) ≤ den * whole := Nat.mul_le_mul_left den hlt
    rw [Nat.mul_add] at hle
    omega
  · unfold roundedQuotient
    dsimp only
    rw [heq] at hnum ⊢
    split <;> omega
  · have hle : den * (whole + 1) ≤ den * (num / den) := Nat.mul_le_mul_left den hgt
    rw [Nat.mul_add] at hle
    omega

theorem nearestMagnitude_eq_zero_iff (hden : 0 < den) :
    nearestMagnitude num den = 0 ↔ 2 * (num * unitsInOne) ≤ den := by
  have hpos : infinityMagnitude ≠ 0 := by decide
  unfold nearestMagnitude
  generalize num * unitsInOne = scaled
  dsimp only
  constructor
  · intro h
    have hshift : (Nat.log2 (scaled / den) - 52) <<< 52 = 0 := by omega
    have hquot : roundedQuotient scaled (den <<< (Nat.log2 (scaled / den) - 52)) = 0 := by omega
    have hlog : Nat.log2 (scaled / den) - 52 = 0 := by
      rw [Nat.shiftLeft_eq] at hshift
      omega
    rw [hlog] at hquot
    exact (roundedQuotient_eq_zero_iff hden).1 hquot
  · intro h
    have hquot : scaled / den = 0 := Nat.div_eq_of_lt (by omega)
    have hzero : roundedQuotient scaled den = 0 := (roundedQuotient_eq_zero_iff hden).2 h
    rw [hquot]
    show min (0 + roundedQuotient scaled den) infinityMagnitude = 0
    omega

/-- The magnitude of a power of two is reached from halfway below it on: the last magnitude before it is odd. -/
theorem pow_two_le_nearest_iff {scaled : Nat} (hden : 0 < den) (shift : Nat) :
    (shift + 2) * 2 ^ 52 ≤ (Nat.log2 (scaled / den) - 52) * 2 ^ 52 +
        roundedQuotient scaled (den <<< (Nat.log2 (scaled / den) - 52)) ↔
      (2 * (2 ^ 53 - 1) + 1) * (den * 2 ^ shift) ≤ 2 * scaled := by
  rcases Nat.lt_trichotomy (Nat.log2 (scaled / den) - 52) shift with hlt | heq | hgt
  · refine iff_of_false ?_ ?_
    · have hle := roundedQuotient_le_pow scaled den
      omega
    · have hquot : scaled / den < 2 ^ 52 * 2 ^ shift := by
        rw [← Nat.pow_add]
        exact Nat.lt_of_lt_of_le Nat.lt_log2_self (Nat.pow_le_pow_right (by decide) (by omega))
      have hscaled : scaled < 2 ^ 52 * (den * 2 ^ shift) := by
        rw [← Nat.mul_assoc, Nat.mul_right_comm]
        exact (Nat.div_lt_iff_lt_mul hden).1 hquot
      omega
  · have hunit : 0 < den * 2 ^ shift := Nat.mul_pos hden (Nat.two_pow_pos _)
    rw [heq, Nat.shiftLeft_eq, ← lt_roundedQuotient_iff hunit (by decide)]
    omega
  · refine iff_of_true ?_ ?_
    · have hle : 2 ^ 52 ≤ roundedQuotient scaled (den <<< (Nat.log2 (scaled / den) - 52)) :=
        pow_le_roundedQuotient (by omega)
      omega
    · have hne : scaled / den ≠ 0 := by
        intro hzero
        rw [hzero] at hgt
        exact absurd hgt (Nat.not_lt_zero shift)
      have hquot : 2 ^ 53 * 2 ^ shift ≤ scaled / den := by
        rw [← Nat.pow_add]
        exact Nat.le_trans (Nat.pow_le_pow_right (by decide) (by omega)) (Nat.log2_self_le hne)
      have hscaled : 2 ^ 53 * (den * 2 ^ shift) ≤ scaled := by
        rw [Nat.mul_left_comm, Nat.mul_comm den]
        exact (Nat.le_div_iff_mul_le hden).1 hquot
      omega

theorem infinityMagnitude_le_nearestMagnitude_iff (hden : 0 < den) :
    infinityMagnitude ≤ nearestMagnitude num den ↔
      (2 * (2 ^ 53 - 1) + 1) * (den * 2 ^ (970 + 1075)) ≤ 2 * (num * unitsInOne) := by
  have hinfinity : infinityMagnitude = (970 + 1075 + 2) * 2 ^ 52 := by decide
  rw [← pow_two_le_nearest_iff hden, nearestMagnitude, Nat.le_min, and_iff_left (Nat.le_refl _), hinfinity,
    Nat.shiftLeft_eq _ 52]

/-! ## The same borders as numbers -/

theorem two_mul_shiftLeft {e f : Nat} (h : f = e + 1) (num : Nat) : 2 * (num * 1 <<< e) = num * 2 ^ f := by
  rw [Nat.one_shiftLeft, Nat.mul_left_comm, h, Nat.pow_succ']

theorem two_mul_units (num : Nat) : 2 * (num * unitsInOne) = num * 2 ^ 1075 := by
  rw [unitsInOne]
  exact two_mul_shiftLeft (by decide) num

theorem quotient_le_iff (hden : 0 < den) (e : Nat) : num * 2 ^ e ≤ den ↔ (num / den : ℚ) ≤ 1 / 2 ^ e := by
  have hden' : (0 : ℚ) < den := Nat.cast_pos.2 hden
  rw [div_le_div_iff₀ hden' (pow_pos two_pos e), one_mul]
  exact_mod_cast Iff.rfl

theorem le_quotient_iff (hden : 0 < den) (e f : Nat) :
    (2 * (2 ^ 53 - 1) + 1) * (den * 2 ^ (e + f)) ≤ num * 2 ^ f ↔ (2 ^ (54 + e) - 2 ^ e : ℚ) ≤ num / den := by
  have hden' : (0 : ℚ) < den := Nat.cast_pos.2 hden
  rw [pow_add, ← mul_assoc, ← mul_assoc, Nat.mul_le_mul_right_iff (Nat.two_pow_pos f), le_div_iff₀ hden',
    ← Nat.cast_le (α := ℚ), pow_add]
  push_cast
  ring_nf

theorem nearestMagnitude_eq_zero_iff_le (hden : 0 < den) :
    nearestMagnitude num den = 0 ↔ (num / den : ℚ) ≤ 1 / 2 ^ 1075 := by
  rw [nearestMagnitude_eq_zero_iff hden, two_mul_units, quotient_le_iff hden]

theorem nearestMagnitude_lt_infinityMagnitude_iff (hden : 0 < den) :
    nearestMagnitude num den < infinityMagnitude ↔ (num / den : ℚ) < 2 ^ 1024 - 2 ^ 970 := by
  rw [← not_le, ← not_le, infinityMagnitude_le_nearestMagnitude_iff hden, two_mul_units, le_quotient_iff hden]

theorem magnitude_ofQuotient (negative : Bool) (num den : Nat) :
    (ofQuotient negative num den).magnitude = nearestMagnitude num den := by
  have hle : nearestMagnitude num den ≤ infinityMagnitude := Nat.min_le_right _ _
  have hlt : infinityMagnitude < 1 <<< 63 := by decide
  exact magnitude_ofMagnitude negative (by omega)

/-- Rounding a quotient gives a finite real, and zero only for zero itself, just if it is in range. -/
theorem ofQuotient_spec (negative : Bool) (hden : 0 < den) :
    (ofQuotient negative num den).isFinite = true ∧ ((ofQuotient negative num den).magnitude = 0 → num = 0) ↔
      InRange (num / den) := by
  have hden' : (den : ℚ) ≠ 0 := Nat.cast_ne_zero.2 hden.ne'
  have hzero : (num / den : ℚ) = 0 ↔ num = 0 := by rw [div_eq_zero_iff, or_iff_left hden', Nat.cast_eq_zero]
  rw [isFinite, decide_eq_true_iff, magnitude_ofQuotient, nearestMagnitude_lt_infinityMagnitude_iff hden,
    nearestMagnitude_eq_zero_iff_le hden, InRange, hzero, ← not_lt]
  by_cases h : num = 0
  · have hborder : (0 : ℚ) < 2 ^ 1024 - 2 ^ 970 := sub_pos.2 (pow_lt_pow_right₀ one_lt_two (by decide))
    refine iff_of_true ⟨?_, fun _ => h⟩ (.inl h)
    rwa [h, Nat.cast_zero, zero_div]
  · rw [imp_iff_not h, not_not, or_iff_right h, and_comm]

end Binary64

namespace Decimal

variable {d : Decimal}

/-! ## Decimals -/

/-- The number that the decimal denotes. -/
def value (d : Decimal) : ℚ := d.digits * 10 ^ d.exponent

theorem value_lt_pow_order (d : Decimal) : d.value < 10 ^ d.order := by
  have hdigits : d.digits < 10 ^ (Nat.toDigits 10 d.digits).length :=
    (Nat.length_toDigits_le_iff (by decide) Nat.length_toDigits_pos).1 (Nat.le_refl _)
  rw [value, order, zpow_add₀ (by norm_num), zpow_natCast]
  exact mul_lt_mul_of_pos_right (by exact_mod_cast hdigits) (zpow_pos (by norm_num) _)

theorem pow_order_le_value (h : d.digits ≠ 0) : 10 ^ (d.order - 1) ≤ d.value := by
  obtain ⟨k, hk⟩ : ∃ k, (Nat.toDigits 10 d.digits).length = k + 1 :=
    Nat.exists_eq_add_of_le' Nat.length_toDigits_pos
  have hdigits : 10 ^ k ≤ d.digits := by
    rcases Nat.eq_zero_or_pos k with rfl | hpos
    · exact Nat.pos_of_ne_zero h
    · refine Nat.le_of_not_lt fun hlt => ?_
      have hle := (Nat.length_toDigits_le_iff (by decide) hpos).2 hlt
      omega
  have horder : d.order - 1 = k + d.exponent := by
    rw [order, hk]
    omega
  rw [value, horder, zpow_add₀ (by norm_num), zpow_natCast]
  exact mul_le_mul_of_nonneg_right (by exact_mod_cast hdigits) (zpow_nonneg (by norm_num) _)

theorem value_pos (h : d.digits ≠ 0) : 0 < d.value :=
  lt_of_lt_of_le (zpow_pos (by norm_num) _) (pow_order_le_value h)

theorem value_eq_zero_iff : d.value = 0 ↔ d.digits = 0 := by
  refine ⟨fun h => ?_, fun h => by rw [value, h, Nat.cast_zero, zero_mul]⟩
  by_contra hdigits
  exact (value_pos hdigits).ne' h

/-- Where the decimal is multiplied out, it is rounded as a quotient. -/
theorem ofQuotient_spec (negative : Bool) {num den : Nat} (hden : 0 < den) (hvalue : (num / den : ℚ) = d.value) :
    (Binary64.ofQuotient negative num den).isFinite = true ∧
        ((Binary64.ofQuotient negative num den).magnitude = 0 → d.digits = 0) ↔ InRange d.value := by
  have hden' : (den : ℚ) ≠ 0 := Nat.cast_ne_zero.2 hden.ne'
  have hzero : num = 0 ↔ d.digits = 0 := by
    rw [← value_eq_zero_iff, ← hvalue, div_eq_zero_iff, or_iff_left hden', Nat.cast_eq_zero]
  rw [← hzero, ← hvalue]
  exact Binary64.ofQuotient_spec negative hden

theorem cast_pow_le {m n : Nat} (h : 2 ^ m ≤ 10 ^ n) : (2 : ℚ) ^ m ≤ 10 ^ n := by exact_mod_cast h

theorem not_inRange_of_order_lt (h : d.digits ≠ 0) (horder : d.order < -330) : ¬ InRange d.value := by
  have hpow : (2 : ℚ) ^ 1075 ≤ 10 ^ 330 := cast_pow_le (by decide +kernel)
  have hsmall : d.value ≤ 1 / 2 ^ 1075 :=
    calc d.value ≤ 10 ^ d.order := (value_lt_pow_order d).le
      _ ≤ 10 ^ (-(330 : Nat) : ℤ) := zpow_le_zpow_right₀ (by norm_num) horder.le
      _ = 1 / 10 ^ 330 := by rw [zpow_neg, zpow_natCast, one_div]
      _ ≤ 1 / 2 ^ 1075 := one_div_le_one_div_of_le (pow_pos two_pos _) hpow
  rintro (hzero | ⟨hlow, -⟩)
  · exact (value_pos h).ne' hzero
  · exact not_lt.2 hsmall hlow

theorem not_inRange_of_lt_order (h : d.digits ≠ 0) (horder : 310 < d.order) : ¬ InRange d.value := by
  have hpow : (2 : ℚ) ^ 1024 ≤ 10 ^ 310 := cast_pow_le (by decide +kernel)
  have hlarge : 2 ^ 1024 - 2 ^ 970 ≤ d.value :=
    calc (2 ^ 1024 - 2 ^ 970 : ℚ) ≤ 2 ^ 1024 := sub_le_self _ (pow_pos two_pos _).le
      _ ≤ 10 ^ 310 := hpow
      _ = 10 ^ ((310 : Nat) : ℤ) := (zpow_natCast _ _).symm
      _ ≤ 10 ^ (d.order - 1) := zpow_le_zpow_right₀ (by norm_num) (by omega)
      _ ≤ d.value := pow_order_le_value h
  rintro (hzero | ⟨-, hhigh⟩)
  · exact (value_pos h).ne' hzero
  · exact not_lt.2 hlarge hhigh

/-- The real nearest to a decimal is finite, and zero only for zero itself, just if the decimal is in range. -/
theorem nearest_spec (negative : Bool) (d : Decimal) :
    (d.nearest negative).isFinite = true ∧ ((d.nearest negative).magnitude = 0 → d.digits = 0) ↔
      InRange d.value := by
  have hzero : (Binary64.ofMagnitude negative 0).magnitude = 0 := Binary64.magnitude_ofMagnitude negative (by decide)
  have hinfinity : (Binary64.ofMagnitude negative Binary64.infinityMagnitude).magnitude = Binary64.infinityMagnitude :=
    Binary64.magnitude_ofMagnitude negative (by decide)
  unfold nearest
  split
  case isTrue hsmall =>
    rw [Binary64.isFinite, hzero]
    by_cases hdigits : d.digits = 0
    · exact iff_of_true ⟨rfl, fun _ => hdigits⟩ (.inl (value_eq_zero_iff.2 hdigits))
    · exact iff_of_false (fun h => hdigits (h.2 rfl))
        (not_inRange_of_order_lt hdigits (hsmall.resolve_left hdigits))
  case isFalse hsmall =>
    obtain ⟨hdigits, -⟩ := not_or.1 hsmall
    split
    case isTrue hlarge =>
      rw [Binary64.isFinite, hinfinity]
      exact iff_of_false (fun h => absurd h.1 (by decide)) (not_inRange_of_lt_order hdigits hlarge)
    case isFalse =>
      split
      case isTrue hexponent =>
        obtain ⟨e, he⟩ := Int.eq_ofNat_of_zero_le hexponent
        refine ofQuotient_spec negative Nat.one_pos ?_
        rw [value, he, Int.toNat_natCast, zpow_natCast, Nat.cast_one, div_one, Nat.pow_eq, Nat.cast_mul,
          Nat.cast_pow, Nat.cast_ofNat]
      case isFalse hexponent =>
        obtain ⟨e, he⟩ := Int.eq_ofNat_of_zero_le (a := -d.exponent) (by omega)
        refine ofQuotient_spec negative (Nat.pow_pos (by decide)) ?_
        rw [value, ← neg_neg d.exponent, he, neg_neg, Int.toNat_natCast, zpow_neg, zpow_natCast, div_eq_mul_inv,
          Nat.pow_eq, Nat.cast_pow, Nat.cast_ofNat]

end Decimal

end RecordStore
