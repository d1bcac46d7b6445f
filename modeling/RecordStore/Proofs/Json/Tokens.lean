import RecordStore.Json.Printer
import RecordStore.Json.Reader
import RecordStore.Proofs.Text.Decimal

/-!
# Strings and integers in JSON text

The escape of a character is read as that character (`readString_escape`), so a string is read back from its escapes and
the quote after them (`readString_flatMap_escape`). Decimal text has no needless zero, so an integer is read back from
it where nothing comes next that could be a part of a number (`readNumber_toDigits`): after a value there is a comma, a
closing bracket or a line break in printed text (`Delimited`).
-/

namespace RecordStore.Json

variable {rest : List Char}

/-! ## Strings -/

/-- The last two digits of an escaped control character give its number. -/
theorem numeral?_hexDigit : ∀ n < 32, Text.numeral? 16 ['0', '0', hexDigit (n / 16), hexDigit n] = some n := by decide

theorem unicode?_of_control {n : Nat} (h : n < 32) (rest : List Char) :
    unicode? ('0' :: '0' :: hexDigit (n / 16) :: hexDigit n :: rest) = some (Char.ofNat n, rest) := by
  have hlow : n < 0xD800 := by omega
  simp [unicode?, unit?, numeral?_hexDigit n h, hlow]

/-- The characters whose escape is a backslash and one character more. -/
def shortEscapes : List Char := ['"', '\\', '\x08', '\x0c', '\n', '\r', '\t']

/-- A character stands for itself, or has an escape that is read as that character. -/
theorem escape_cases (c : Char) :
    (escape c = [c] ∧ c ≠ '"' ∧ c ≠ '\\' ∧ ¬ c.toNat < 0x20) ∨
      ∃ code, escape c = '\\' :: code ∧ ∀ rest, unescape? (code ++ rest) = some (c, rest) := by
  by_cases hshort : c ∈ shortEscapes
  · right
    simp only [shortEscapes, List.mem_cons, List.not_mem_nil, or_false] at hshort
    rcases hshort with rfl | rfl | rfl | rfl | rfl | rfl | rfl <;> exact ⟨[_], rfl, fun _ => rfl⟩
  · simp only [shortEscapes, List.mem_cons, List.not_mem_nil, or_false, not_or] at hshort
    obtain ⟨hquote, hbackslash, hb, hf, hn, hr, ht⟩ := hshort
    by_cases hcontrol : c.toNat < 0x20
    · right
      refine ⟨['u', '0', '0', hexDigit (c.toNat / 16), hexDigit c.toNat], by simp [escape, *], fun rest => ?_⟩
      have hunicode := unicode?_of_control hcontrol rest
      rw [Char.ofNat_toNat] at hunicode
      exact hunicode
    · exact .inl ⟨by simp [escape, *], hquote, hbackslash, hcontrol⟩

/-- An escaped character is read as it was. -/
theorem readString_escape (fuel : Nat) (c : Char) (rest : List Char) :
    readString (fuel + 1) (escape c ++ rest) = (readString fuel rest).map fun (cs, rest) => (c :: cs, rest) := by
  rcases escape_cases c with ⟨hescape, hquote, hbackslash, hcontrol⟩ | ⟨code, hescape, hcode⟩
  · rw [hescape, List.singleton_append, readString, if_neg hquote, if_neg hbackslash, if_neg hcontrol]
    cases readString fuel rest <;> rfl
  · rw [hescape, List.cons_append, readString, if_neg (by decide), if_pos rfl, hcode]
    show (readString fuel rest).bind _ = _
    cases readString fuel rest <;> rfl

theorem readString_flatMap_escape {fuel : Nat} {cs : List Char} (hfuel : cs.length < fuel) (rest : List Char) :
    readString fuel (cs.flatMap escape ++ '"' :: rest) = some (cs, rest) := by
  induction cs generalizing fuel with
  | nil =>
    obtain ⟨fuel, rfl⟩ := Nat.exists_eq_add_one.2 hfuel
    rfl
  | cons c cs ih =>
    obtain ⟨fuel, rfl⟩ := Nat.exists_eq_add_one.2 (Nat.zero_lt_of_lt hfuel)
    have hcs : cs.length < fuel := by simpa using hfuel
    rw [List.flatMap_cons, List.append_assoc, readString_escape, ih hcs]
    rfl

theorem length_le_flatMap_escape (cs : List Char) : cs.length ≤ (cs.flatMap escape).length := by
  induction cs with
  | nil => simp
  | cons c cs ih =>
    have hc : 1 ≤ (escape c).length := by
      rcases escape_cases c with ⟨hescape, -⟩ | ⟨code, hescape, -⟩ <;> simp [hescape]
    simp only [List.flatMap_cons, List.length_append, List.length_cons]
    omega

/-! ## Integers -/

/-- What may come after a value in printed text. -/
def Delimited (rest : List Char) : Prop := ∀ c ∈ rest.head?, c = ',' ∨ c = ']' ∨ c = '}' ∨ c = '\n'

theorem Delimited.not_isDigit (h : Delimited rest) : ∀ c ∈ rest.head?, c.isDigit = false := by
  intro c hc
  rcases h c hc with rfl | rfl | rfl | rfl <;> rfl

theorem digits?_append {ds : List Char} (hne : ds ≠ []) (hds : ∀ c ∈ ds, c.isDigit = true) (hrest : Delimited rest) :
    digits? (ds ++ rest) = some (ds, rest) := by
  have hstop : rest.takeWhile Char.isDigit = [] ∧ rest.dropWhile Char.isDigit = rest := by
    cases rest with
    | nil => exact ⟨rfl, rfl⟩
    | cons c rest => simp [hrest.not_isDigit c rfl]
  rw [digits?, List.takeWhile_append_of_pos hds, List.dropWhile_append_of_pos hds, hstop.1, hstop.2, List.append_nil]
  cases ds with
  | nil => exact absurd rfl hne
  | cons d ds => rfl

theorem fraction?_of_delimited (h : Delimited rest) : fraction? rest = some ([], rest) := by
  cases rest with
  | nil => rfl
  | cons c rest => rcases h c rfl with rfl | rfl | rfl | rfl <;> rfl

theorem exponent?_of_delimited (h : Delimited rest) : exponent? rest = some (none, rest) := by
  cases rest with
  | nil => rfl
  | cons c rest => rcases h c rfl with rfl | rfl | rfl | rfl <;> rfl

theorem readNumber_toDigits {negative : Bool} {n : Nat} (hword : IsWord (if negative then -(n : Int) else n))
    (hrest : Delimited rest) :
    readNumber negative (Nat.toDigits 10 n ++ rest) = some (int (if negative then -(n : Int) else n), rest) := by
  have hdigits : ∀ c ∈ Nat.toDigits 10 n, c.isDigit = true := fun c hc =>
    Nat.isDigit_of_mem_toDigits (by decide) (by decide) hc
  have hzero : ¬ ((Nat.toDigits 10 n).head? = some '0' ∧ 1 < (Nat.toDigits 10 n).length) := by
    rintro ⟨hhead, hlength⟩
    rcases Nat.eq_zero_or_pos n with rfl | hn
    · simp at hlength
    · exact Text.head?_toDigits hn hhead
  simp [readNumber, digits?_append Nat.toDigits_ne_nil hdigits hrest, hzero, fraction?_of_delimited hrest,
    exponent?_of_delimited hrest, ofInteger?, Nat.ofDigitChars_ten_toDigits, hword]

end RecordStore.Json
