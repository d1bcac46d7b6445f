import RecordStore.Proofs.Text.Numeral

/-!
# Decimal text

A numeral consists of digits and has the value that they are worth (`numeral?_ten_eq_some_iff`). The digits of a number
are a numeral of its value (`numeral?_toDigits`), and a numeral without a needless zero is made of the digits of its
value (`toDigits_of_numeral?`); the digits of a number have no needless zero (`head?_toDigits`).
-/

namespace RecordStore.Text

variable {n d value : Nat} {c : Char} {cs : List Char}

/-- A decimal digit is the character of its value. -/
theorem digitChar_of_digit? (h : digit? 10 c = some d) : d < 10 ∧ Nat.digitChar d = c := by
  obtain ⟨hvalue, hd⟩ := Option.filter_eq_some_iff.1 h
  replace hd : d < 10 := by simpa using hd
  refine ⟨hd, ?_⟩
  unfold digitValue? at hvalue
  split at hvalue
  case isTrue hdigit =>
    have hle : 48 ≤ c.toNat := (Char.isDigit_iff_toNat.1 hdigit).1
    have hc : c.toNat - 48 = d := Option.some.inj hvalue
    apply Char.toNat_inj.1
    rw [Nat.toNat_digitChar_of_lt_ten hd]
    omega
  case isFalse =>
    -- letters are worth ten and more
    split at hvalue
    · have := Option.some.inj hvalue
      omega
    · split at hvalue
      · have := Option.some.inj hvalue
        omega
      · cases hvalue

theorem continue?_cons_eq_some : continue? 10 value (c :: cs) = some n ↔
    ∃ d, digit? 10 c = some d ∧ continue? 10 (value * 10 + d) cs = some n := by
  rw [continue?, Option.bind_eq_bind, Option.bind_eq_some_iff]

theorem all_isDigit_of_continue? (h : continue? 10 value cs = some n) : cs.all Char.isDigit = true := by
  induction cs generalizing value with
  | nil => rfl
  | cons c cs ih =>
    obtain ⟨d, hd, hrest⟩ := continue?_cons_eq_some.1 h
    obtain ⟨hlt, rfl⟩ := digitChar_of_digit? hd
    rw [List.all_cons, ih hrest, Bool.and_true, Nat.isDigit_digitChar, decide_eq_true hlt]

/-- Digits that continue a number come after its own digits in the text of the whole. -/
theorem toDigits_append (hvalue : 0 < value) (h : continue? 10 value cs = some n) :
    Nat.toDigits 10 value ++ cs = Nat.toDigits 10 n := by
  induction cs generalizing value with
  | nil =>
    cases h
    exact List.append_nil _
  | cons c cs ih =>
    obtain ⟨d, hd, hrest⟩ := continue?_cons_eq_some.1 h
    obtain ⟨hlt, rfl⟩ := digitChar_of_digit? hd
    have hdigits : Nat.toDigits 10 value ++ [Nat.digitChar d] = Nat.toDigits 10 (value * 10 + d) := by
      rw [← Nat.toDigits_of_lt_base hlt, Nat.toDigits_append_toDigits (by decide) hvalue hlt, Nat.mul_comm]
    rw [← ih (by omega) hrest, ← hdigits, List.append_assoc, List.singleton_append]

/-- Decimal text that begins with another digit than zero is the text of its value. -/
theorem toDigits_of_numeral? (hc : c ≠ '0') (h : numeral? 10 (c :: cs) = some n) :
    c :: cs = Nat.toDigits 10 n := by
  obtain ⟨d, hd, hrest⟩ := continue?_cons_eq_some.1 h
  obtain ⟨hlt, rfl⟩ := digitChar_of_digit? hd
  have hpos : 0 < d := by
    refine Nat.pos_of_ne_zero ?_
    rintro rfl
    exact hc rfl
  rw [Nat.zero_mul, Nat.zero_add] at hrest
  rw [← toDigits_append hpos hrest, Nat.toDigits_of_lt_base hlt, List.singleton_append]

/-! ## The digits of a number -/

theorem digit?_of_isDigit (h : c.isDigit = true) : digit? 10 c = some (c.toNat - '0'.toNat) := by
  have hlt : c.toNat - '0'.toNat < 10 := by
    have hle : c.toNat ≤ 57 := (Char.isDigit_iff_toNat.1 h).2
    show c.toNat - 48 < 10
    omega
  rw [digit?, digitValue?, if_pos h]
  exact Option.filter_eq_some_iff.2 ⟨rfl, by simpa using hlt⟩

/-- Digits are worth what they are worth after one another. -/
theorem continue?_of_isDigit (h : ∀ c ∈ cs, c.isDigit = true) (value : Nat) :
    continue? 10 value cs = some (Nat.ofDigitChars 10 cs value) := by
  induction cs generalizing value with
  | nil => rfl
  | cons c cs ih =>
    obtain ⟨hc, hcs⟩ := List.forall_mem_cons.1 h
    rw [continue?_cons_eq_some]
    refine ⟨_, digit?_of_isDigit hc, ?_⟩
    rw [ih hcs, Nat.ofDigitChars_cons, Nat.mul_comm]

/-- Decimal digits are a numeral of what they are worth, and nothing else is a numeral in base ten. -/
theorem numeral?_ten_eq_some_iff :
    numeral? 10 cs = some n ↔ (∀ c ∈ cs, c.isDigit = true) ∧ worth 10 cs = n := by
  have hvalue (h : ∀ c ∈ cs, c.isDigit = true) : numeral? 10 cs = some (worth 10 cs) :=
    numeral?_eq_some fun c hc => Option.isSome_iff_exists.2 ⟨_, digit?_of_isDigit (h c hc)⟩
  constructor
  · intro h
    have hdigits := List.all_eq_true.1 (all_isDigit_of_continue? h)
    rw [hvalue hdigits] at h
    exact ⟨hdigits, Option.some.inj h⟩
  · rintro ⟨hdigits, rfl⟩
    exact hvalue hdigits

theorem numeral?_toDigits (n : Nat) : numeral? 10 (Nat.toDigits 10 n) = some n := by
  have hdigits : ∀ c ∈ Nat.toDigits 10 n, c.isDigit = true := fun c hc =>
    Nat.isDigit_of_mem_toDigits (by decide) (by decide) hc
  rw [numeral?, continue?_of_isDigit hdigits, Nat.ofDigitChars_ten_toDigits]

theorem digitChar_ne_zero : ∀ d < 10, 0 < d → Nat.digitChar d ≠ '0' := by decide

/-- Decimal text begins with a zero for zero alone. -/
theorem head?_toDigits {n : Nat} (h : 0 < n) : (Nat.toDigits 10 n).head? ≠ some '0' := by
  induction n using Nat.strongRecOn with
  | ind n ih =>
    by_cases hn : n < 10
    · rw [Nat.toDigits_of_lt_base hn, List.head?_cons]
      exact fun hzero => digitChar_ne_zero n hn h (Option.some.inj hzero)
    · have hle : 10 ≤ n := by omega
      have hfirst := ih (n / 10) (by omega) (by omega)
      rw [Nat.toDigits_of_base_le (by decide) hle]
      cases hds : Nat.toDigits 10 (n / 10) with
      | nil => exact absurd hds Nat.toDigits_ne_nil
      | cons d ds =>
        rw [hds] at hfirst
        exact hfirst

end RecordStore.Text
