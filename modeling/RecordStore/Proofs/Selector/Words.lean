import RecordStore.Proofs.Text.Numeral
import RecordStore.Selector.Integer

/-!
# Reading integers by words

Every step of reading an integer gives the word of its exact result where that is a word, and otherwise nothing:
digits of a base (`word?_eq_some_iff`), one more digit in base 60 (`accumulate?_eq_some_iff`) and so all of them
(`sexagesimal?_eq_some_iff`), and the sign (`signed?_eq_some_iff`). None of the operations carried out wraps
(`noWrap`).
-/

namespace RecordStore.Selector

variable {value digit magnitude w : UInt64} {base : Nat} {ds : List Char}

theorem toNat_maxWord : maxWord.toNat = 18446744073709551615 := by decide

theorem toNat_maxSigned : maxSigned.toNat = 9223372036854775807 := by decide

/-! ## Digits -/

theorem word?_eq_some_iff : word? base ds = some w ↔ Text.numeral? base ds = some w.toNat := by
  unfold word?
  cases Text.numeral? base ds with
  | none => simp
  | some n =>
    rw [Option.filter_some]
    split
    case isTrue hlt =>
      have hword : (UInt64.ofNat n).toNat = n := UInt64.toNat_ofNat_of_lt' (of_decide_eq_true hlt)
      rw [Option.map_some, Option.some_inj, Option.some_inj, ← UInt64.toNat_inj, hword]
    case isFalse hge =>
      have hne : n ≠ w.toNat := by
        rintro rfl
        exact hge (decide_eq_true w.toNat_lt)
      simpa using hne

/-! ## Base 60 -/

theorem toNat_room (digit : UInt64) : (maxWord - digit).toNat + digit.toNat = maxWord.toNat := by
  have hdigit : digit.toNat ≤ maxWord.toNat := by
    have := digit.toNat_lt
    rw [toNat_maxWord]
    omega
  rw [UInt64.toNat_sub_of_le _ _ (UInt64.le_iff_toNat_le.2 hdigit)]
  exact Nat.sub_add_cancel hdigit

/-- The guard leaves room for the product and the sum, and for nothing more. -/
theorem guard_iff : value > (maxWord - digit) / 60 ↔ 2 ^ 64 ≤ value.toNat * 60 + digit.toNat := by
  have hroom := toNat_room digit
  have hsixty : (60 : UInt64).toNat = 60 := rfl
  rw [toNat_maxWord] at hroom
  rw [gt_iff_lt, UInt64.lt_iff_toNat_lt, UInt64.toNat_div, hsixty]
  omega

theorem toNat_product (h : value.toNat * 60 + digit.toNat < 2 ^ 64) : (value * 60).toNat = value.toNat * 60 := by
  have hsixty : (60 : UInt64).toNat = 60 := rfl
  rw [UInt64.toNat_mul, hsixty, Nat.mod_eq_of_lt (by omega)]

theorem toNat_sum (h : value.toNat * 60 + digit.toNat < 2 ^ 64) :
    (value * 60 + digit).toNat = value.toNat * 60 + digit.toNat := by
  rw [UInt64.toNat_add, toNat_product h, Nat.mod_eq_of_lt h]

/-- One more digit gives the exact value, wherever that is a word. -/
theorem accumulate?_eq_some_iff :
    accumulate? value digit = some w ↔ w.toNat = value.toNat * 60 + digit.toNat := by
  unfold accumulate?
  split
  case isTrue hguard =>
    have hge := guard_iff.1 hguard
    have hw := w.toNat_lt
    simp only [reduceCtorEq, false_iff]
    omega
  case isFalse hguard =>
    have hlt := Nat.lt_of_not_le (mt guard_iff.2 hguard)
    rw [Option.some_inj, ← UInt64.toNat_inj, toNat_sum hlt, eq_comm]

theorem le_foldl (value : Nat) (digits : List Nat) :
    value ≤ digits.foldl (fun value d => value * 60 + d) value := by
  induction digits generalizing value with
  | nil => exact Nat.le_refl value
  | cons d digits ih =>
    have hstep : value ≤ value * 60 + d := by omega
    exact Nat.le_trans hstep (ih _)

/-- The same for the digit that a part writes. -/
theorem bind_accumulate?_eq_some_iff {part : List Char} {d : Nat} (h : Text.numeral? 10 part = some d) :
    (word? 10 part).bind (accumulate? value) = some w ↔ w.toNat = value.toNat * 60 + d := by
  rw [Option.bind_eq_some_iff]
  constructor
  · rintro ⟨digit, hword, haccumulate⟩
    cases h.symm.trans (word?_eq_some_iff.1 hword)
    exact accumulate?_eq_some_iff.1 haccumulate
  · intro hw
    have hlt : d < 2 ^ 64 := by
      have := w.toNat_lt
      omega
    have hd : (UInt64.ofNat d).toNat = d := UInt64.toNat_ofNat_of_lt' hlt
    exact ⟨.ofNat d, word?_eq_some_iff.2 (by rw [hd, h]), accumulate?_eq_some_iff.2 (by rw [hd, hw])⟩

/-- A numeral in base 60 gives its exact value, wherever that is a word: a value that is none does not become one. -/
theorem sexagesimal?_eq_some_iff {parts : List (List Char)}
    (h : ∀ part ∈ parts, Text.numeral? 10 part = some (Text.worth 10 part)) : sexagesimal? value parts = some w ↔
      w.toNat = (parts.map (Text.worth 10)).foldl (fun value d => value * 60 + d) value.toNat := by
  induction parts generalizing value with
  | nil =>
    rw [sexagesimal?, Option.some_inj, ← UInt64.toNat_inj, eq_comm]
    rfl
  | cons part parts ih =>
    obtain ⟨hpart, hparts⟩ := List.forall_mem_cons.1 h
    have hcons : sexagesimal? value (part :: parts) =
        ((word? 10 part).bind (accumulate? value)).bind (sexagesimal? · parts) := (Option.bind_assoc _ _ _).symm
    rw [hcons, Option.bind_eq_some_iff, List.map_cons, List.foldl_cons]
    constructor
    · rintro ⟨next, hnext, hrest⟩
      rw [← (bind_accumulate?_eq_some_iff hpart).1 hnext]
      exact (ih hparts).1 hrest
    · intro hw
      have hle := le_foldl (value.toNat * 60 + Text.worth 10 part) (parts.map (Text.worth 10))
      have hlt : value.toNat * 60 + Text.worth 10 part < 2 ^ 64 := Nat.lt_of_le_of_lt (hw ▸ hle) w.toNat_lt
      have hnext : (UInt64.ofNat (value.toNat * 60 + Text.worth 10 part)).toNat =
          value.toNat * 60 + Text.worth 10 part := UInt64.toNat_ofNat_of_lt' hlt
      exact ⟨_, (bind_accumulate?_eq_some_iff hpart).2 hnext, (ih hparts).2 (by rw [hnext, hw])⟩

/-! ## The sign -/

theorem toInt_toInt64 (h : magnitude ≤ maxSigned) : magnitude.toInt64.toInt = magnitude.toNat := by
  have hle : magnitude.toNat ≤ 9223372036854775807 := toNat_maxSigned ▸ UInt64.le_iff_toNat_le.1 h
  refine BitVec.toInt_eq_toNat_of_lt ?_
  show 2 * magnitude.toNat < 2 ^ 64
  omega

theorem toInt_neg_toInt64 (h : magnitude ≤ maxSigned) : (-magnitude.toInt64).toInt = -magnitude.toNat := by
  have hle : magnitude.toNat ≤ 9223372036854775807 := toNat_maxSigned ▸ UInt64.le_iff_toNat_le.1 h
  rw [Int64.toInt_neg, toInt_toInt64 h, Int.bmod_eq_of_le (by omega) (by omega)]

/-- A sign and a magnitude give the exact integer, wherever that has 64 bits. -/
theorem signed?_eq_some_iff {negative : Bool} {i : Int64} : signed? negative magnitude = some i ↔
    i.toInt = if negative then -(magnitude.toNat : Int) else magnitude.toNat := by
  have hmin := Int64.le_toInt i
  have hmax := Int64.toInt_lt i
  have hlimit : (maxSigned + 1).toNat = 9223372036854775808 := by decide
  have hmaxSigned := toNat_maxSigned
  unfold signed?
  cases negative with
  | true =>
    rw [if_pos rfl, if_pos rfl]
    split
    case isTrue hgt =>
      have hgt := UInt64.lt_iff_toNat_lt.1 hgt
      simp only [reduceCtorEq, false_iff]
      omega
    case isFalse hle =>
      rw [Option.some_inj, ← Int64.toInt_inj]
      split
      case isTrue heq =>
        rw [heq, hlimit, Int64.toInt_minValue, eq_comm]
        rfl
      case isFalse hne =>
        have hle := UInt64.le_iff_toNat_le.1 (UInt64.not_lt.1 hle)
        have hne := mt UInt64.toNat_inj.1 hne
        rw [toInt_neg_toInt64 (UInt64.le_iff_toNat_le.2 (by omega)), eq_comm]
  | false =>
    rw [if_neg Bool.false_ne_true, if_neg Bool.false_ne_true]
    split
    case isTrue hgt =>
      have hgt := UInt64.lt_iff_toNat_lt.1 hgt
      simp only [reduceCtorEq, false_iff]
      omega
    case isFalse hle =>
      rw [Option.some_inj, ← Int64.toInt_inj, toInt_toInt64 (UInt64.not_lt.1 hle), eq_comm]

/-! ## No operation wraps -/

/-- The operations on words by which a notation is read have their exact results wherever they are carried out. -/
structure NoWrap : Prop where
  digits : ∀ base ds w, word? base ds = some w → Text.numeral? base ds = some w.toNat
  room : ∀ digit : UInt64, (maxWord - digit).toNat + digit.toNat = maxWord.toNat
  product : ∀ value digit, accumulate? value digit ≠ none → (value * 60).toNat = value.toNat * 60
  sum : ∀ value digit next, accumulate? value digit = some next → next.toNat = (value * 60).toNat + digit.toNat
  limit : (maxSigned + 1).toNat = maxSigned.toNat + 1
  cast : ∀ negative magnitude, signed? negative magnitude ≠ none → magnitude ≠ maxSigned + 1 →
    magnitude.toInt64.toInt = magnitude.toNat
  sign : ∀ negative magnitude i, signed? negative magnitude = some i →
    i.toInt = if negative then -(magnitude.toNat : Int) else magnitude.toNat

theorem noWrap : NoWrap := by
  have hfits {value digit next : UInt64} (h : accumulate? value digit = some next) :
      value.toNat * 60 + digit.toNat < 2 ^ 64 := accumulate?_eq_some_iff.1 h ▸ next.toNat_lt
  refine ⟨fun _ _ _ => word?_eq_some_iff.1, toNat_room, fun value digit h => ?_, fun value digit next h => ?_,
    by decide, fun negative magnitude h hne => ?_, fun _ _ _ => signed?_eq_some_iff.1⟩
  · obtain ⟨next, h⟩ := Option.ne_none_iff_exists'.1 h
    exact toNat_product (hfits h)
  · rw [toNat_product (hfits h), accumulate?_eq_some_iff.1 h]
  · obtain ⟨i, h⟩ := Option.ne_none_iff_exists'.1 h
    have hi := signed?_eq_some_iff.1 h
    have hmin := Int64.le_toInt i
    have hmax := Int64.toInt_lt i
    have hne := mt UInt64.toNat_inj.1 hne
    have hlimit : (maxSigned + 1).toNat = 9223372036854775808 := by decide
    refine toInt_toInt64 (UInt64.le_iff_toNat_le.2 ?_)
    rw [toNat_maxSigned]
    cases negative <;> simp at hi <;> omega

end RecordStore.Selector
