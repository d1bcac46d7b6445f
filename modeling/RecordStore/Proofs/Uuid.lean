import Mathlib.Algebra.GroupWithZero.Nat
import RecordStore.Uuid

/-!
# Random ids are well formed and lose no random bit

Whatever the random words are, their id is the text of a UUID of version 4 (`isVersion4_ofWords`). Without its hyphens
it is the hexadecimal text of the bytes (`filter_grouped`), which determines them (`eq_of_flatMap_hexByte`). The bytes
of a word lose just the bits that a stamp takes (`bytesOf_modify_eq_iff`), and these are six of the two words
(`bytes_eq_iff`). So two draws have one id just if they agree on the 122 other bits (`ofWords_eq_iff`).
-/

namespace RecordStore.Uuid

/-! ## The bits of a draw -/

/-- A bit of two random words, those of the low word first. -/
def bit (low high : UInt64) (i : Nat) : Bool := if i < 64 then low.toNat.testBit i else high.toNat.testBit (i - 64)

/-- The bits that version and variant are stamped over. -/
def overwritten : List Nat := [52, 53, 54, 55, 70, 71]

/-- The other bits. -/
def kept : List Nat := (List.range 128).filter (· ∉ overwritten)

variable {low high low' high' w w' : UInt64} {b b' : UInt8} {bs bs' : List UInt8}

/-! ## Stamps -/

/-- A stamp leaves the lower bits of a byte and sets the others. -/
theorem stamp_eq_iff {n : Nat} {mask stamp : UInt8} (hmask : mask.toNat = 2 ^ n - 1)
    (hstamp : stamp.toNat % 2 ^ n = 0) :
    b &&& mask ||| stamp = b' &&& mask ||| stamp ↔ ∀ j < n, b.toNat.testBit j = b'.toNat.testBit j := by
  have hbit (b : UInt8) (j : Nat) : (b &&& mask ||| stamp).toNat.testBit j =
      (decide (j < n) && b.toNat.testBit j || stamp.toNat.testBit j) := by
    rw [UInt8.toNat_or, UInt8.toNat_and, hmask, Nat.and_two_pow_sub_one_eq_mod, Nat.testBit_or, Nat.testBit_mod_two_pow]
  constructor
  · intro h j hj
    have hfree : stamp.toNat.testBit j = false := by
      have := Nat.testBit_mod_two_pow stamp.toNat n j
      rw [hstamp, Nat.zero_testBit, decide_eq_true hj, Bool.true_and] at this
      exact this.symm
    have hsame := hbit b j
    rw [h, hbit, decide_eq_true hj, hfree, Bool.true_and, Bool.true_and, Bool.or_false, Bool.or_false] at hsame
    exact hsame.symm
  · intro h
    refine UInt8.toNat_inj.1 (Nat.eq_of_testBit_eq fun j => ?_)
    rw [hbit, hbit]
    by_cases hj : j < n
    · rw [h j hj]
    · rw [decide_eq_false hj, Bool.false_and, Bool.false_and]

theorem stampVersion_eq_iff : stampVersion b = stampVersion b' ↔ ∀ j < 4, b.toNat.testBit j = b'.toNat.testBit j :=
  stamp_eq_iff (by decide) (by decide)

theorem stampVariant_eq_iff : stampVariant b = stampVariant b' ↔ ∀ j < 6, b.toNat.testBit j = b'.toNat.testBit j :=
  stamp_eq_iff (by decide) (by decide)

/-- The first digit of a stamped byte. -/
theorem stamp_div (b mask stamp : UInt8) :
    (b &&& mask ||| stamp).toNat / 16 = b.toNat / 16 &&& mask.toNat / 16 ||| stamp.toNat / 16 := by
  have hdiv (n : Nat) : n / 16 = n >>> 4 := (Nat.shiftRight_eq_div_pow n 4).symm
  simp only [hdiv, UInt8.toNat_or, UInt8.toNat_and, Nat.shiftRight_or_distrib, Nat.shiftRight_and_distrib]

theorem stampVersion_div (b : UInt8) : (stampVersion b).toNat / 16 = 4 := by
  rw [stampVersion, stamp_div]
  exact congrArg (· ||| 4) (Nat.and_zero _)

theorem stampVariant_div (b : UInt8) : 8 ≤ (stampVariant b).toNat / 16 ∧ (stampVariant b).toNat / 16 < 12 := by
  have hdigits : ∀ d < 4, 8 ≤ d ||| 8 ∧ d ||| 8 < 12 := by decide
  rw [stampVariant, stamp_div]
  exact hdigits (b.toNat / 16 &&& 3) (Nat.lt_succ_of_le Nat.and_le_right)

/-! ## Bytes of a word -/

theorem getElem?_bytesOf (w : UInt64) {i : Nat} (h : i < 8) :
    (bytesOf w)[i]? = some (.ofNat (w.toNat >>> (8 * i))) := by
  rw [bytesOf, List.getElem?_map, List.getElem?_range h, Option.map_some]

theorem length_bytesOf (w : UInt64) : (bytesOf w).length = 8 := by rw [bytesOf, List.length_map, List.length_range]

theorem testBit_byte {n i j : Nat} (h : j < 8) :
    (UInt8.ofNat (n >>> (8 * i))).toNat.testBit j = n.testBit (8 * i + j) := by
  rw [UInt8.toNat_ofNat', Nat.testBit_mod_two_pow, Nat.testBit_shiftRight, decide_eq_true h, Bool.true_and]

theorem eq_iff_testBit : b = b' ↔ ∀ j < 8, b.toNat.testBit j = b'.toNat.testBit j := by
  refine ⟨fun h _ _ => by rw [h], fun h => UInt8.toNat_inj.1 (Nat.eq_of_testBit_eq fun j => ?_)⟩
  by_cases hj : j < 8
  · exact h j hj
  · have hhigh (b : UInt8) : b.toNat.testBit j = false :=
      Nat.testBit_lt_two_pow (Nat.lt_of_lt_of_le b.toNat_lt (Nat.pow_le_pow_right (by decide) (Nat.le_of_not_lt hj)))
    rw [hhigh, hhigh]

section Stamped

variable {k n : Nat} {stamp : UInt8 → UInt8} (hn : n ≤ 8)
  (hstamp : ∀ {b b'}, stamp b = stamp b' ↔ ∀ j < n, b.toNat.testBit j = b'.toNat.testBit j)

include hn hstamp

theorem getElem?_modify_eq_iff {i : Nat} (hi : i < 8) :
    ((bytesOf w).modify k stamp)[i]? = ((bytesOf w').modify k stamp)[i]? ↔
      ∀ j < 8, ¬ (i = k ∧ n ≤ j) → w.toNat.testBit (8 * i + j) = w'.toNat.testBit (8 * i + j) := by
  simp only [List.getElem?_modify, getElem?_bytesOf _ hi, Option.map_eq_map, Option.map_some, Option.some_inj]
  by_cases hk : k = i
  · rw [if_pos hk, if_pos hk, hstamp]
    constructor
    · intro h j hj hkept
      rw [← testBit_byte hj, ← testBit_byte hj]
      exact h j (Nat.lt_of_not_le fun hle => hkept ⟨hk.symm, hle⟩)
    · intro h j hj
      have hj' : j < 8 := Nat.lt_of_lt_of_le hj hn
      rw [testBit_byte hj', testBit_byte hj']
      exact h j hj' fun ⟨_, hle⟩ => Nat.not_le_of_lt hj hle
  · rw [if_neg hk, if_neg hk, eq_iff_testBit]
    refine forall₂_congr fun j hj => ?_
    rw [testBit_byte hj, testBit_byte hj]
    exact ⟨fun h _ => h, fun h => h fun ⟨heq, _⟩ => hk heq.symm⟩

/-- Of the bits of a word, only those are lost that a stamp on one of its bytes takes. -/
theorem bytesOf_modify_eq_iff : (bytesOf w).modify k stamp = (bytesOf w').modify k stamp ↔
    ∀ i < 64, ¬ (i / 8 = k ∧ n ≤ i % 8) → w.toNat.testBit i = w'.toNat.testBit i := by
  rw [List.ext_getElem?_iff]
  constructor
  · intro h i hi hkept
    have hbit := (getElem?_modify_eq_iff hn hstamp (by omega)).1 (h (i / 8)) (i % 8) (by omega) hkept
    rwa [Nat.div_add_mod] at hbit
  · intro h i
    by_cases hi : i < 8
    · refine (getElem?_modify_eq_iff hn hstamp hi).2 fun j hj hkept => h _ (by omega) ?_
      have hplace : (8 * i + j) / 8 = i ∧ (8 * i + j) % 8 = j := by omega
      rwa [hplace.1, hplace.2]
    · have hnone (w : UInt64) : ((bytesOf w).modify k stamp)[i]? = none := by
        rw [List.getElem?_eq_none_iff, List.length_modify, length_bytesOf]
        exact Nat.le_of_not_lt hi
      rw [hnone, hnone]

end Stamped

theorem mem_kept_iff {i : Nat} : i ∈ kept ↔ i < 128 ∧ ¬ (52 ≤ i ∧ i ≤ 55) ∧ ¬ (70 ≤ i ∧ i ≤ 71) := by
  simp only [kept, overwritten, List.mem_filter, List.mem_range, List.mem_cons, List.not_mem_nil, or_false,
    decide_eq_true_eq]
  omega

theorem mem_kept_low {i : Nat} (h : i < 64) : i ∈ kept ↔ ¬ (i / 8 = 6 ∧ 4 ≤ i % 8) := by
  rw [mem_kept_iff]
  omega

theorem mem_kept_high {i : Nat} (h : i < 64) : i + 64 ∈ kept ↔ ¬ (i / 8 = 0 ∧ 6 ≤ i % 8) := by
  rw [mem_kept_iff]
  omega

theorem bit_low {i : Nat} (h : i < 64) : bit low high i = low.toNat.testBit i := if_pos h

theorem bit_high (i : Nat) : bit low high (i + 64) = high.toNat.testBit i := by
  rw [bit, if_neg (by omega), Nat.add_sub_cancel]

/-- Draws with the same bytes agree on the bits that are kept, and no draws do but these. -/
theorem bytes_eq_iff : bytes low high = bytes low' high' ↔ ∀ i ∈ kept, bit low high i = bit low' high' i := by
  have hparts : bytes low high = bytes low' high' ↔
      (bytesOf low).modify 6 stampVersion = (bytesOf low').modify 6 stampVersion ∧
        (bytesOf high).modify 0 stampVariant = (bytesOf high').modify 0 stampVariant := by
    have hlength (w : UInt64) : ((bytesOf w).modify 6 stampVersion).length = 8 := by
      rw [List.length_modify, length_bytesOf]
    refine ⟨fun h => List.append_inj h ((hlength low).trans (hlength low').symm), ?_⟩
    rintro ⟨hlow, hhigh⟩
    rw [bytes, bytes, hlow, hhigh]
  rw [hparts, bytesOf_modify_eq_iff (by decide) stampVersion_eq_iff,
    bytesOf_modify_eq_iff (by decide) stampVariant_eq_iff]
  constructor
  · rintro ⟨hlow, hhigh⟩ i hi
    by_cases hi64 : i < 64
    · rw [bit_low hi64, bit_low hi64]
      exact hlow i hi64 ((mem_kept_low hi64).1 hi)
    · obtain ⟨j, rfl⟩ := Nat.exists_eq_add_of_le' (Nat.le_of_not_lt hi64)
      have hj : j < 64 := by
        have := (mem_kept_iff.1 hi).1
        omega
      rw [bit_high, bit_high]
      exact hhigh j hj ((mem_kept_high hj).1 hi)
  · intro h
    refine ⟨fun i hi hkept => ?_, fun i hi hkept => ?_⟩
    · have hbit := h i ((mem_kept_low hi).2 hkept)
      rwa [bit_low hi, bit_low hi] at hbit
    · have hbit := h (i + 64) ((mem_kept_high hi).2 hkept)
      rwa [bit_high, bit_high] at hbit

theorem length_bytes (low high : UInt64) : (bytes low high).length = 16 := by
  rw [bytes, List.length_append, List.length_modify, List.length_modify, length_bytesOf, length_bytesOf]

/-! ## Hexadecimal text -/

theorem digitChar_inj : ∀ d < 16, ∀ d' < 16, Nat.digitChar d = Nat.digitChar d' → d = d' := by decide

theorem isHexDigit_digitChar : ∀ d < 16, isHexDigit (Nat.digitChar d) = true := by decide

theorem isHexDigit_of_mem_hexByte {c : Char} (h : c ∈ hexByte b) : isHexDigit c = true := by
  have hb := b.toNat_lt
  obtain rfl | h := List.mem_cons.1 h
  · exact isHexDigit_digitChar _ (by omega)
  · rw [List.mem_singleton.1 h]
    exact isHexDigit_digitChar _ (by omega)

theorem hexByte_injective (h : hexByte b = hexByte b') : b = b' := by
  have hb := b.toNat_lt
  have hb' := b'.toNat_lt
  obtain ⟨hhigh, hlow⟩ := List.cons.inj h
  have hhigh := digitChar_inj _ (by omega) _ (by omega) hhigh
  have hlow := digitChar_inj _ (by omega) _ (by omega) (List.cons.inj hlow).1
  exact UInt8.toNat_inj.1 (by omega)

/-- The digits of bytes determine the bytes. -/
theorem eq_of_flatMap_hexByte (h : bs.flatMap hexByte = bs'.flatMap hexByte) : bs = bs' := by
  induction bs generalizing bs' with
  | nil =>
    cases bs' with
    | nil => rfl
    | cons b' bs' => cases h
  | cons b bs ih =>
    cases bs' with
    | nil => cases h
    | cons b' bs' =>
      rw [List.flatMap_cons, List.flatMap_cons] at h
      obtain ⟨hbyte, hrest⟩ := List.append_inj h rfl
      rw [hexByte_injective hbyte, ih hrest]

/-- Without the hyphens the text of groups is the digits of their bytes. -/
theorem filter_grouped (sizes : List Nat) (bs : List UInt8) :
    (grouped sizes bs).filter (· ≠ '-') = (bs.take sizes.sum).flatMap hexByte := by
  have hdigits (bs : List UInt8) : (bs.flatMap hexByte).filter (· ≠ '-') = bs.flatMap hexByte := by
    refine List.filter_eq_self.2 fun c hc => ?_
    obtain ⟨b, -, hc⟩ := List.mem_flatMap.1 hc
    rw [decide_eq_true_eq]
    rintro rfl
    exact absurd (isHexDigit_of_mem_hexByte hc) (by decide)
  fun_induction grouped sizes bs with
  | case1 => rfl
  | case2 n bs => rw [hdigits, List.sum_singleton]
  | case3 bs n sizes hne ih =>
    rw [List.filter_append, hdigits, List.filter_cons_of_neg (by decide), ih, List.sum_cons, List.take_add,
      List.flatMap_append]

/-- One draw has the id of another just when they agree on the bits that are kept. -/
theorem ofWords_eq_iff : ofWords low high = ofWords low' high' ↔ ∀ i ∈ kept, bit low high i = bit low' high' i := by
  rw [← bytes_eq_iff]
  constructor
  · intro h
    have hfilter := congrArg (List.filter (· ≠ '-')) (String.ofList_injective h)
    have hall (low high : UInt64) : (bytes low high).take groupSizes.sum = bytes low high :=
      List.take_of_length_le (Nat.le_of_eq (length_bytes low high))
    rw [filter_grouped, filter_grouped, hall, hall] at hfilter
    exact eq_of_flatMap_hexByte hfilter
  · intro h
    rw [ofWords, ofWords, h]

/-! ## The form of an id -/

/-- Groups of sixteen bytes have the form of an id, if the stamped digits are as they should be. -/
theorem isVersion4_grouped (hlength : bs.length = 16) (hversion : ∀ b ∈ bs[6]?, b.toNat / 16 = 4)
    (hvariant : ∀ b ∈ bs[8]?, 8 ≤ b.toNat / 16 ∧ b.toNat / 16 < 12) :
    isVersion4 (.ofList (grouped groupSizes bs)) = true := by
  have hhigh (b : UInt8) : isHexDigit (Nat.digitChar (b.toNat / 16)) = true :=
    isHexDigit_of_mem_hexByte List.mem_cons_self
  have hlow (b : UInt8) : isHexDigit (Nat.digitChar (b.toNat % 16)) = true :=
    isHexDigit_of_mem_hexByte (List.mem_cons_of_mem _ List.mem_cons_self)
  match bs, hlength with
  | [_, _, _, _, _, _, b6, _, b8, _, _, _, _, _, _, _], _ =>
    have hversion : b6.toNat / 16 = 4 := hversion b6 rfl
    have hvariant : b8.toNat / 16 = 8 ∨ b8.toNat / 16 = 9 ∨ b8.toNat / 16 = 10 ∨ b8.toNat / 16 = 11 := by
      have := hvariant b8 rfl
      omega
    -- each of the 36 characters at its place
    simp [isVersion4, grouped, groupSizes, hexByte, fits, hhigh, hlow, hversion, hvariant]

theorem isVersion4_ofWords (low high : UInt64) : isVersion4 (ofWords low high) = true := by
  refine isVersion4_grouped (length_bytes low high) ?_ ?_
  · rintro _ ⟨⟩
    exact stampVersion_div _
  · rintro _ ⟨⟩
    exact stampVariant_div _

/-- Every draw makes a well-formed id, and two draws make the same one just when they agree on the 122 bits that are
kept. -/
theorem text_of_kept_bits (low high low' high' : UInt64) :
    isVersion4 (ofWords low high) = true ∧ kept.length = 122 ∧
      (ofWords low high = ofWords low' high' ↔ ∀ i ∈ kept, bit low high i = bit low' high' i) :=
  ⟨isVersion4_ofWords low high, rfl, ofWords_eq_iff⟩

end RecordStore.Uuid
