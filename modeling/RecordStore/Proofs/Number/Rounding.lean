import Mathlib.Algebra.Group.Nat.Defs
import RecordStore.Number.Binary64

/-!
# Rounding keeps the order

The magnitude nearest to a quotient does not fall when the numerator grows (`nearestMagnitude_mono`): between two powers
of two it is a rounded quotient by one denominator, and at a power of two it passes from one word to the next. So the
reals nearest to integers stand in the order of the integers (`rank_ofInt_mono`), though some may coincide.
-/

namespace RecordStore.Binary64

variable {m n den : Nat}

/-! ## Quotients -/

theorem roundedQuotient_bounds (num den : Nat) :
    num / den ≤ roundedQuotient num den ∧ roundedQuotient num den ≤ num / den + 1 := by
  unfold roundedQuotient
  dsimp only
  split <;> omega

theorem roundedQuotient_mono (h : m ≤ n) : roundedQuotient m den ≤ roundedQuotient n den := by
  obtain ⟨-, hm⟩ := roundedQuotient_bounds m den
  obtain ⟨hn, -⟩ := roundedQuotient_bounds n den
  rcases Nat.lt_or_ge (m / den) (n / den) with hlt | hge
  · omega
  · have hwhole : m / den = n / den := Nat.le_antisymm (Nat.div_le_div_right h) hge
    have hrest : m % den ≤ n % den := by
      have hm := Nat.div_add_mod m den
      have hn := Nat.div_add_mod n den
      rw [hwhole] at hm
      omega
    unfold roundedQuotient
    dsimp only
    rw [hwhole]
    split <;> split <;> omega

/-! ## Magnitudes -/

theorem log2_mono (h : m ≤ n) : m.log2 ≤ n.log2 := by
  by_cases hm : m = 0
  · simp [hm]
  · have hpow : 2 ^ m.log2 ≤ n := Nat.le_trans (Nat.log2_self_le hm) h
    exact (Nat.le_log2 (by omega)).2 hpow

/-- Below the next power of two a quotient has at most 53 bits, rounded up to the power perhaps. -/
theorem roundedQuotient_le_pow (num den : Nat) :
    roundedQuotient num (den <<< (Nat.log2 (num / den) - 52)) ≤ 2 ^ 53 := by
  have hpow : num / den < 2 ^ 53 * 2 ^ (Nat.log2 (num / den) - 52) := by
    rw [← Nat.pow_add]
    exact Nat.lt_of_lt_of_le Nat.lt_log2_self (Nat.pow_le_pow_right (by decide) (by omega))
  have hquot : num / (den <<< (Nat.log2 (num / den) - 52)) < 2 ^ 53 := by
    rw [Nat.shiftLeft_eq, ← Nat.div_div_eq_div_mul]
    exact Nat.div_lt_of_lt_mul (by rwa [Nat.mul_comm])
  obtain ⟨-, hle⟩ := roundedQuotient_bounds num (den <<< (Nat.log2 (num / den) - 52))
  omega

/-- From 53 bits on the quotient is cut to 53. -/
theorem pow_le_roundedQuotient {num : Nat} (h : 52 ≤ Nat.log2 (num / den)) :
    2 ^ 52 ≤ roundedQuotient num (den <<< (Nat.log2 (num / den) - 52)) := by
  have hne : num / den ≠ 0 := by
    intro hzero
    rw [hzero] at h
    exact absurd h (by decide)
  have hpow : 2 ^ 52 * 2 ^ (Nat.log2 (num / den) - 52) ≤ num / den := by
    rw [← Nat.pow_add, Nat.add_sub_cancel' h]
    exact Nat.log2_self_le hne
  have hquot : 2 ^ 52 ≤ num / (den <<< (Nat.log2 (num / den) - 52)) := by
    rw [Nat.shiftLeft_eq, ← Nat.div_div_eq_div_mul]
    exact (Nat.le_div_iff_mul_le (Nat.two_pow_pos _)).2 hpow
  exact Nat.le_trans hquot (roundedQuotient_bounds _ _).1

theorem nearestMagnitude_mono (h : m ≤ n) : nearestMagnitude m den ≤ nearestMagnitude n den := by
  unfold nearestMagnitude
  have hscaled : m * unitsInOne ≤ n * unitsInOne := Nat.mul_le_mul_right _ h
  generalize m * unitsInOne = s at hscaled ⊢
  generalize n * unitsInOne = t at hscaled ⊢
  have hlog : Nat.log2 (s / den) ≤ Nat.log2 (t / den) := log2_mono (Nat.div_le_div_right hscaled)
  suffices hle : ((Nat.log2 (s / den) - 52) <<< 52) + roundedQuotient s (den <<< (Nat.log2 (s / den) - 52)) ≤
      ((Nat.log2 (t / den) - 52) <<< 52) + roundedQuotient t (den <<< (Nat.log2 (t / den) - 52)) by
    dsimp only
    omega
  rcases Nat.lt_or_ge (Nat.log2 (s / den) - 52) (Nat.log2 (t / den) - 52) with hlt | hge
  · -- the word of the lower one ends where that of the next power of two begins
    have hlow := roundedQuotient_le_pow s den
    have hhigh : 2 ^ 52 ≤ roundedQuotient t (den <<< (Nat.log2 (t / den) - 52)) := pow_le_roundedQuotient (by omega)
    rw [Nat.shiftLeft_eq _ 52, Nat.shiftLeft_eq _ 52]
    omega
  · have hshift : Nat.log2 (s / den) - 52 = Nat.log2 (t / den) - 52 := by omega
    rw [hshift]
    exact Nat.add_le_add_left (roundedQuotient_mono hscaled) _

/-! ## Integers -/

theorem isNegative_ofMagnitude (negative : Bool) (h : m < 1 <<< 63) :
    (ofMagnitude negative m).isNegative = negative := by
  have hpow : 1 <<< 63 = 9223372036854775808 := by decide
  unfold isNegative ofMagnitude
  rw [hpow] at h ⊢
  cases negative <;> simp only [UInt64.toNat_ofNat'] <;> simp <;> omega

theorem rank_ofQuotient (negative : Bool) (num den : Nat) : (ofQuotient negative num den).rank =
    if negative then -(nearestMagnitude num den : Int) else nearestMagnitude num den := by
  have hle : nearestMagnitude num den ≤ infinityMagnitude := Nat.min_le_right _ _
  have hlt : infinityMagnitude < 1 <<< 63 := by decide
  have hbound : nearestMagnitude num den < 1 <<< 63 := by omega
  unfold rank ofQuotient
  rw [magnitude_ofMagnitude _ hbound, isNegative_ofMagnitude _ hbound]

/-- The reals nearest to integers stand in the order of the integers. -/
theorem rank_ofInt_mono {i j : Int} (h : i ≤ j) : (ofInt i).rank ≤ (ofInt j).rank := by
  unfold ofInt
  rw [rank_ofQuotient, rank_ofQuotient]
  simp only [decide_eq_true_eq]
  split
  case isTrue hi =>
    split
    case isTrue hj =>
      have hle : nearestMagnitude j.natAbs 1 ≤ nearestMagnitude i.natAbs 1 := nearestMagnitude_mono (by omega)
      omega
    case isFalse hj => omega
  case isFalse hi =>
    rw [if_neg (by omega)]
    have hle : nearestMagnitude i.natAbs 1 ≤ nearestMagnitude j.natAbs 1 := nearestMagnitude_mono (by omega)
    omega

end RecordStore.Binary64
