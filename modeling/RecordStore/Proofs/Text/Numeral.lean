import Mathlib.Data.Nat.Digits.Defs
import RecordStore.Text.Numeral

/-!
# What a numeral is worth

Each digit counts by its position (`worth`). Reading digits one after another comes to the same (`numeral?_eq_some`).
-/

namespace RecordStore.Text

/-- What the digits of the base among the characters are worth, the last one the units. -/
def worth (base : Nat) (cs : List Char) : Nat := Nat.ofDigits base (cs.filterMap (digit? base)).reverse

example : worth 16 ['1', '_', 'f', 'F'] = 0x1ff := by decide

variable {base : Nat} {c : Char} {cs : List Char}

/-- The value by position, with the digits read from the first one on. -/
theorem ofDigits_reverse (base : Nat) (ds : List Nat) :
    Nat.ofDigits base ds.reverse = ds.foldl (fun value d => value * base + d) 0 := by
  rw [Nat.ofDigits_eq_foldr, List.foldr_reverse]
  congr 1
  funext value d
  rw [Nat.cast_id, Nat.mul_comm, Nat.add_comm]

theorem continue?_eq_some (h : ∀ c ∈ cs, (digit? base c).isSome = true) (value : Nat) :
    continue? base value cs = some ((cs.filterMap (digit? base)).foldl (fun value d => value * base + d) value) := by
  induction cs generalizing value with
  | nil => rfl
  | cons c cs ih =>
    obtain ⟨hc, hcs⟩ := List.forall_mem_cons.1 h
    obtain ⟨d, hd⟩ := Option.isSome_iff_exists.1 hc
    rw [continue?, hd, List.filterMap_cons_some hd, List.foldl_cons]
    exact ih hcs _

theorem numeral?_eq_some (h : ∀ c ∈ cs, (digit? base c).isSome = true) : numeral? base cs = some (worth base cs) := by
  rw [numeral?, continue?_eq_some h, worth, ofDigits_reverse]

/-- Characters that are no digits count for nothing. -/
theorem worth_filter {keep : Char → Bool} (h : ∀ c, keep c = false → digit? base c = none) (cs : List Char) :
    worth base (cs.filter keep) = worth base cs := by
  have hdigits : (cs.filter keep).filterMap (digit? base) = cs.filterMap (digit? base) := by
    induction cs with
    | nil => rfl
    | cons c cs ih =>
      cases hkeep : keep c with
      | true => rw [List.filter_cons_of_pos hkeep, List.filterMap_cons, List.filterMap_cons, ih]
      | false => rw [List.filter_cons_of_neg (Bool.eq_false_iff.1 hkeep), List.filterMap_cons_none (h c hkeep), ih]
  rw [worth, worth, hdigits]

/-! ## Digits among the characters -/

/-- Only characters of seven bits are digits. -/
theorem toNat_lt_of_isSome_digit? (h : (digit? base c).isSome = true) : c.toNat < 128 := by
  obtain ⟨d, hd⟩ := Option.isSome_iff_exists.1 h
  obtain ⟨hvalue, -⟩ := Option.filter_eq_some_iff.1 hd
  have hle {a : Char} (hc : c ≤ a) (ha : a.toNat < 128) : c.toNat < 128 := Nat.lt_of_le_of_lt hc ha
  unfold digitValue? at hvalue
  split at hvalue
  case isTrue hdigit =>
    exact Nat.lt_of_le_of_lt (Char.isDigit_iff_toNat.1 hdigit).2 (by decide)
  case isFalse =>
    split at hvalue
    case isTrue hlower => exact hle (of_decide_eq_true ((Bool.and_eq_true _ _).mp hlower).2) (by decide)
    case isFalse =>
      split at hvalue
      case isTrue hupper => exact hle (of_decide_eq_true ((Bool.and_eq_true _ _).mp hupper).2) (by decide)
      case isFalse => cases hvalue

end RecordStore.Text
