import RecordStore.Proofs.Selector.Loading
import RecordStore.Proofs.Selector.Notation
import RecordStore.Proofs.Selector.Plain
import RecordStore.Proofs.Selector.Words
import RecordStore.Proofs.Text.Decimal

/-!
# Integers in selectors

Reading a notation by words gives the integer that it denotes, wherever that has 64 bits
(`Denotes.int64?_eq_some_iff`). So a selector that is loaded as one plain scalar, a notation, has that integer for its
value, and is an error where the integer does not have 64 bits (`Denotes.parseWith`). Every notation is loaded so
(`Denotes.isPlain`); decimal text is a notation of its number, so it is read back (`parse_notation`).
-/

namespace RecordStore.Selector

/-! ## Reading notations -/

section Reading

variable {base : Nat} {cs ds : List Char} {d : Char} {parts : List (List Char)} {w : UInt64}

theorem isSome_digit?_of_mem {c : Char} (h : ∀ c ∈ ds, isSpacedDigit base c = true) (hc : c ∈ withoutUnderscores ds) :
    (Text.digit? base c).isSome = true := by
  obtain ⟨hmem, hne⟩ := List.mem_filter.1 hc
  exact ((Bool.or_eq_true _ _).mp (h c hmem)).resolve_right (by simpa using hne)

theorem worth_withoutUnderscores (base : Nat) (ds : List Char) :
    Text.worth base (withoutUnderscores ds) = Text.worth base ds := by
  refine Text.worth_filter (fun c hc => ?_) ds
  obtain rfl : c = '_' := by simpa using hc
  rfl

theorem numeral?_withoutUnderscores (h : ∀ c ∈ ds, isSpacedDigit base c = true) :
    Text.numeral? base (withoutUnderscores ds) = some (Text.worth base ds) := by
  rw [Text.numeral?_eq_some fun c hc => isSome_digit?_of_mem h hc, worth_withoutUnderscores]

theorem word?_withoutUnderscores (h : ∀ c ∈ ds, isSpacedDigit base c = true) :
    word? base (withoutUnderscores ds) = some w ↔ w.toNat = Text.worth base ds := by
  rw [word?_eq_some_iff, numeral?_withoutUnderscores h, Option.some_inj, eq_comm]

/-- A text that does not begin with zero is read as decimal or in base 60. -/
theorem magnitude?_of_ne (hd : d ≠ '0') (rest : List Char) : magnitude? (d :: rest) =
    if ':' ∈ d :: rest then sexagesimal? 0 (Text.pieces ':' (d :: rest)) else word? 10 (d :: rest) := by
  unfold magnitude?
  split
  case h_1 heq | h_2 heq =>
    cases heq
    exact absurd rfl hd
  case h_3 =>
    refine if_congr Iff.rfl rfl ?_
    split
    case h_1 heq =>
      cases heq
      exact absurd rfl hd
    case h_2 => rfl

theorem magnitude?_octal {c : Char} {rest : List Char} (hb : c ≠ 'b') (hx : c ≠ 'x') (hcolon : ':' ∉ c :: rest) :
    magnitude? ('0' :: c :: rest) = word? 8 (c :: rest) := by
  have hcolon : ':' ∉ '0' :: c :: rest := fun h => (List.mem_cons.1 h).elim (by decide) hcolon
  unfold magnitude?
  split
  case h_1 heq =>
    cases heq
    exact absurd rfl hb
  case h_2 heq =>
    cases heq
    exact absurd rfl hx
  case h_3 => exact if_neg hcolon

theorem withoutUnderscores_cons (hd : d ∈ decimals) (rest : List Char) :
    withoutUnderscores (d :: rest) = d :: withoutUnderscores rest := by
  have hne : d ≠ '_' := ne_of_mem_of_not_mem hd (by decide)
  exact List.filter_cons_of_pos (by simpa using hne)

/-- The parts in base 60 are worth together what the numeral denotes. -/
theorem sexagesimal?_withoutUnderscores (h : ∀ part ∈ parts, ∀ c ∈ part, isSpacedDigit 10 c = true) :
    sexagesimal? 0 (parts.map withoutUnderscores) = some w ↔
      w.toNat = Nat.ofDigits 60 (parts.map (Text.worth 10)).reverse := by
  have hparts : ∀ part ∈ parts.map withoutUnderscores, Text.numeral? 10 part = some (Text.worth 10 part) := by
    intro part hpart
    obtain ⟨spaced, hspaced, rfl⟩ := List.mem_map.1 hpart
    rw [numeral?_withoutUnderscores (h spaced hspaced), worth_withoutUnderscores]
  have hworth : Text.worth 10 ∘ withoutUnderscores = Text.worth 10 := funext (worth_withoutUnderscores 10)
  rw [sexagesimal?_eq_some_iff hparts, List.map_map, hworth, Text.ofDigits_reverse]
  rfl

/-- Reading a notation without its sign gives the number that it denotes, wherever that is a word. -/
theorem DenotesMagnitude.magnitude?_eq_some_iff {n : Nat} (h : DenotesMagnitude cs n) :
    magnitude? (withoutUnderscores cs) = some w ↔ w.toNat = n := by
  cases h with
  | binary _ hds => exact word?_withoutUnderscores fun c hc => (isSpacedDigit_two c).2 (hds hc)
  | hexadecimal _ hds => exact word?_withoutUnderscores fun c hc => (isSpacedDigit_sixteen c).2 (hds hc)
  | @octal ds hds =>
    have hdigits := word?_withoutUnderscores (w := w) fun c hc => (isSpacedDigit_eight c).2 (hds hc)
    have hmem : ∀ c ∈ withoutUnderscores ds, c ∈ '_' :: decimals.take 8 := fun c hc =>
      hds (List.mem_filter.1 hc).1
    rw [withoutUnderscores_cons (by decide), ← hdigits]
    cases hcs : withoutUnderscores ds with
    | nil => rfl
    | cons c rest =>
      rw [hcs] at hmem
      rw [magnitude?_octal]
      · rintro rfl
        exact absurd (hmem _ List.mem_cons_self) (by decide)
      · rintro rfl
        exact absurd (hmem _ List.mem_cons_self) (by decide)
      · exact fun hcolon => absurd (hmem _ hcolon) (by decide)
  | @decimal d ds hd hds =>
    obtain ⟨hd, hne⟩ := mem_tail_decimals_iff.1 hd
    have hall : ∀ c ∈ d :: ds, c ∈ '_' :: decimals := List.forall_mem_cons.2 ⟨List.mem_cons_of_mem _ hd, hds⟩
    have hcolon : ':' ∉ withoutUnderscores (d :: ds) := fun h =>
      absurd (hall _ (List.mem_filter.1 h).1) (by decide)
    have hdigits := word?_withoutUnderscores (w := w) fun c hc => (isSpacedDigit_ten c).2 (hall c hc)
    rw [withoutUnderscores_cons hd] at hcolon hdigits ⊢
    rw [magnitude?_of_ne hne, if_neg hcolon, hdigits]
  | @sexagesimal d ds parts hd hds hparts_ne hparts =>
    obtain ⟨hd, hne⟩ := mem_tail_decimals_iff.1 hd
    have hall : ∀ part ∈ (d :: ds) :: parts, ∀ c ∈ part, c ∈ '_' :: decimals :=
      List.forall_mem_cons.2 ⟨List.forall_mem_cons.2 ⟨List.mem_cons_of_mem _ hd, hds⟩,
        fun part hpart c hc => List.mem_cons_of_mem _ ((hparts part hpart).subset hc)⟩
    have hdigits := sexagesimal?_withoutUnderscores (w := w) fun part hpart c hc =>
      (isSpacedDigit_ten c).2 (hall part hpart c hc)
    have hpieces := pieces_withoutUnderscores ([':'].intercalate ((d :: ds) :: parts))
    rw [pieces_intercalate hd hds hparts] at hpieces
    obtain ⟨rest, hrest⟩ := exists_intercalate_eq d ds parts
    rw [hrest, withoutUnderscores_cons hd] at hpieces ⊢
    have hcolon : ':' ∈ d :: withoutUnderscores rest := by
      refine Classical.byContradiction fun hcolon => hparts_ne ?_
      rw [pieces_of_not_mem hcolon] at hpieces
      exact List.map_eq_nil_iff.1 (List.cons.inj hpieces).2.symm
    rw [magnitude?_of_ne hne, if_pos hcolon, hpieces, hdigits]

/-- With a sign the number gives an integer, wherever that has 64 bits: its magnitude is a word then. -/
theorem DenotesMagnitude.bind_signed?_eq_some_iff {n : Nat} {i : Int64} (h : DenotesMagnitude cs n) (negative : Bool) :
    (magnitude? (withoutUnderscores cs)).bind (signed? negative) = some i ↔
      i.toInt = if negative then -(n : Int) else n := by
  rw [Option.bind_eq_some_iff]
  constructor
  · rintro ⟨w, hw, hi⟩
    rw [signed?_eq_some_iff.1 hi, h.magnitude?_eq_some_iff.1 hw]
  · intro hi
    have hlt : n < 2 ^ 64 := by
      have hmin := Int64.le_toInt i
      have hmax := Int64.toInt_lt i
      cases negative <;> simp at hi <;> omega
    have hw : (UInt64.ofNat n).toNat = n := UInt64.toNat_ofNat_of_lt' hlt
    exact ⟨_, h.magnitude?_eq_some_iff.2 hw, signed?_eq_some_iff.2 (by rw [hw, hi])⟩

/-- Reading a notation gives the integer that it denotes, wherever that has 64 bits. -/
theorem Denotes.int64?_eq_some_iff {n : Int} {i : Int64} (h : Denotes cs n) : int64? cs = some i ↔ i.toInt = n := by
  cases h with
  | unsigned hm =>
    have hsign : takeSign (withoutUnderscores cs) = (false, withoutUnderscores cs) := by
      obtain ⟨d, rest, rfl, hd⟩ := hm.starts
      rw [withoutUnderscores_cons hd, takeSign_of_mem hd]
    rw [int64?, hsign]
    exact hm.bind_signed?_eq_some_iff false
  | plus hm => exact hm.bind_signed?_eq_some_iff false
  | minus hm => exact hm.bind_signed?_eq_some_iff true

end Reading

/-! ## The selector -/

section Parsing

variable {cs : List Char} {n : Int}

/-- The characters of notations. -/
def alphabet : List Char := '_' :: ':' :: '+' :: '-' :: 'b' :: 'x' :: decimals ++ letters

theorem DenotesMagnitude.subset_alphabet {m : Nat} (h : DenotesMagnitude cs m) : cs ⊆ alphabet := by
  have hdecimals : '_' :: decimals ⊆ alphabet := by decide
  cases h with
  | binary _ hds =>
    have hclass : '_' :: decimals.take 2 ⊆ alphabet := by decide
    exact List.cons_subset.2 ⟨by decide, List.cons_subset.2 ⟨by decide, fun c hc => hclass (hds hc)⟩⟩
  | hexadecimal _ hds =>
    have hclass : '_' :: decimals ++ letters ⊆ alphabet := by decide
    exact List.cons_subset.2 ⟨by decide, List.cons_subset.2 ⟨by decide, fun c hc => hclass (hds hc)⟩⟩
  | octal hds =>
    have hclass : '_' :: decimals.take 8 ⊆ alphabet := by decide
    exact List.cons_subset.2 ⟨by decide, fun c hc => hclass (hds hc)⟩
  | decimal hd hds =>
    exact List.cons_subset.2 ⟨hdecimals (List.mem_cons_of_mem _ (List.mem_of_mem_tail hd)),
      fun c hc => hdecimals (hds hc)⟩
  | @sexagesimal d ds parts hd hds _ hparts =>
    intro c hc
    by_cases hcolon : c = ':'
    · rw [hcolon]
      decide
    · have hd := List.mem_of_mem_tail hd
      obtain ⟨part, hpart, hmem⟩ := exists_mem_pieces hc hcolon
      rw [pieces_intercalate hd hds hparts] at hpart
      obtain rfl | hpart := List.mem_cons.1 hpart
      · exact hdecimals (List.cons_subset.2 ⟨List.mem_cons_of_mem _ hd, hds⟩ hmem)
      · exact hdecimals (List.mem_cons_of_mem _ ((hparts part hpart).subset hmem))

theorem DenotesMagnitude.getLast?_ne {m : Nat} (h : DenotesMagnitude cs m) : cs.getLast? ≠ some ':' := by
  intro hlast
  have hcolon : ':' ∈ cs := List.mem_of_getLast? hlast
  cases h with
  | binary _ hds => exact absurd (List.cons_subset_cons '0' (List.cons_subset_cons 'b' hds) hcolon) (by decide)
  | hexadecimal _ hds => exact absurd (List.cons_subset_cons '0' (List.cons_subset_cons 'x' hds) hcolon) (by decide)
  | octal hds => exact absurd (List.cons_subset_cons '0' hds hcolon) (by decide)
  | decimal hd hds =>
    obtain rfl | hcolon := List.mem_cons.1 hcolon
    · exact absurd hd (by decide)
    · exact absurd (hds hcolon) (by decide)
  | sexagesimal hd hds _ hparts =>
    have hnil := nil_mem_pieces hlast
    rw [pieces_intercalate (List.mem_of_mem_tail hd) hds hparts] at hnil
    obtain hnil | hnil := List.mem_cons.1 hnil
    · cases hnil
    · cases hparts [] hnil

/-- A notation is one plain scalar. -/
theorem Denotes.isPlain (h : Denotes cs n) : IsPlain cs := by
  have hunbroken {c : Char} (hc : c ∈ alphabet) : c ≠ ' ' ∧ c ≠ '\n' :=
    ⟨ne_of_mem_of_not_mem hc (by decide), ne_of_mem_of_not_mem hc (by decide)⟩
  have hmarks : decimals.all (· ∉ marks) = true := by decide
  have hmarks {c : Char} (hc : c ∈ decimals) : c ∉ marks := of_decide_eq_true (List.all_eq_true.1 hmarks c hc)
  have hsigned {sign : Char} {body : List Char} {m : Nat} (hm : DenotesMagnitude body m) (hsign : sign ∈ alphabet)
      (hmark : sign ∉ marks) : IsPlain (sign :: body) := by
    obtain ⟨d, rest, rfl, -⟩ := hm.starts
    refine ⟨⟨_, _, rfl, hmark⟩, List.forall_mem_cons.2 ⟨hunbroken hsign, fun c hc =>
      hunbroken (hm.subset_alphabet hc)⟩, ?_⟩
    rw [List.getLast?_cons_cons]
    exact hm.getLast?_ne
  cases h with
  | unsigned hm =>
    obtain ⟨d, rest, hcs, hd⟩ := hm.starts
    exact ⟨⟨d, rest, hcs, hmarks hd⟩, fun c hc => hunbroken (hm.subset_alphabet hc), hm.getLast?_ne⟩
  | plus hm => exact hsigned hm (by decide) (by decide)
  | minus hm => exact hsigned hm (by decide) (by decide)

/-- Decimal text is a notation of its number. -/
theorem denotesMagnitude_toDigits (m : Nat) : DenotesMagnitude (Nat.toDigits 10 m) m := by
  obtain rfl | hpos := Nat.eq_zero_or_pos m
  · exact .octal (List.nil_subset _)
  · have hdigits : ∀ c ∈ Nat.toDigits 10 m, (Text.digit? 10 c).isSome = true := fun c hc => by
      rw [Text.digit?_of_isDigit (Nat.isDigit_of_mem_toDigits (by decide) (by decide) hc)]
      rfl
    have hworth : Text.worth 10 (Nat.toDigits 10 m) = m :=
      Option.some.inj ((Text.numeral?_eq_some hdigits).symm.trans (Text.numeral?_toDigits m))
    have hhead := Text.head?_toDigits hpos
    cases hcs : Nat.toDigits 10 m with
    | nil => exact absurd hcs Nat.toDigits_ne_nil
    | cons d ds =>
      rw [hcs] at hdigits hworth hhead
      obtain ⟨hd, hds⟩ := List.forall_mem_cons.1 hdigits
      have hfirst : d ∈ decimals.tail :=
        mem_tail_decimals_iff.2 ⟨(isSome_digit?_ten d).1 hd, fun h => hhead (congrArg some h)⟩
      have hrest : ds ⊆ '_' :: decimals := fun c hc => List.mem_cons_of_mem _ ((isSome_digit?_ten c).1 (hds c hc))
      have hdenotes := DenotesMagnitude.decimal hfirst hrest
      rwa [hworth] at hdenotes

theorem denotes_toString (n : Int) : Denotes (toString n).toList n := by
  cases n with
  | ofNat m =>
    have htext : (toString (Int.ofNat m)).toList = Nat.toDigits 10 m := String.toList_ofList
    rw [htext]
    exact .unsigned (denotesMagnitude_toDigits m)
  | negSucc m =>
    have htext : (toString (Int.negSucc m)).toList = '-' :: Nat.toDigits 10 (m + 1) := by
      show ("-" ++ String.ofList (Nat.toDigits 10 (m + 1))).toList = _
      simp only [String.toList_append, String.toList_ofList]
      rfl
    rw [htext]
    exact .minus (denotesMagnitude_toDigits (m + 1))

theorem valueOfText_of_isInteger (h : isInteger cs = true) : valueOfText (.ofList cs) =
    (int64? cs).elim (.error (.integerOutOfRange (.ofList cs))) fun i => .ok (.int i) := by
  have hwords : ∀ text ∈ nullWords ++ trueWords ++ falseWords, isInteger text.toList = false := by decide +kernel
  have hnot {words : List String} (hsub : words ⊆ nullWords ++ trueWords ++ falseWords) : String.ofList cs ∉ words := by
    intro hmem
    have hfalse := hwords _ (hsub hmem)
    rw [String.toList_ofList] at hfalse
    cases h.symm.trans hfalse
  have hnull : String.ofList cs ∉ nullWords := hnot (by simp)
  have htrue : String.ofList cs ∉ trueWords := hnot (by simp)
  have hfalse : String.ofList cs ∉ falseWords := hnot (by simp)
  rw [valueOfText, if_neg hnull, if_neg htrue, if_neg hfalse, String.toList_ofList, if_pos h]
  cases int64? cs <;> rfl

theorem isInt64_toInt (i : Int64) : IsInt64 i.toInt := by
  have hmin := Int64.le_toInt i
  have hmax := Int64.toInt_lt i
  constructor <;> omega

theorem exists_toInt_eq (h : IsInt64 n) : ∃ i : Int64, i.toInt = n :=
  ⟨.ofInt n, Int64.toInt_ofInt_of_le h.1 (Int.lt_add_one_of_le h.2)⟩

/-- Whatever loads a notation as one plain scalar, its value is the integer that it denotes, if that has 64 bits, and
else there is an error. -/
theorem Denotes.parseWith {load : String → Option (List Node)} {text : String} (h : Denotes cs n)
    (hload : load text = some [plainNode (.ofList cs)]) :
    (IsInt64 n → ∃ i : Int64, i.toInt = n ∧ Selector.parseWith load text = .ok (.int i)) ∧
      (¬ IsInt64 n → Selector.parseWith load text = .error (.integerOutOfRange (.ofList cs))) := by
  rw [parseWith_of_plain hload, valueOfText_of_isInteger (isInteger_iff.2 ⟨n, h⟩)]
  constructor
  · intro hn
    obtain ⟨i, hi⟩ := exists_toInt_eq hn
    refine ⟨i, hi, ?_⟩
    rw [h.int64?_eq_some_iff.2 hi, Option.elim_some]
  · intro hn
    cases hread : int64? cs with
    | none => rfl
    | some i => exact absurd (h.int64?_eq_some_iff.1 hread ▸ isInt64_toInt i) hn

/-- A notation of an integer of 64 bits has that one for its value. -/
theorem Denotes.parseWith_eq_ok {load : String → Option (List Node)} {text : String} {i : Int64}
    (h : Denotes cs i.toInt) (hload : load text = some [plainNode (.ofList cs)]) :
    Selector.parseWith load text = .ok (.int i) := by
  obtain ⟨j, hj, hparse⟩ := (h.parseWith hload).1 (isInt64_toInt i)
  rw [hparse, Int64.toInt_inj.1 hj]

/-- A text that is loaded as one plain scalar, a notation, has for its value the integer that it denotes, if that has 64
bits, and else is an error; so the decimal text of every such integer is read back. The selector is one that loads
notations so. Notations are just the texts that it takes for integers, and no operation on words by which they are read
wraps. -/
theorem parse_notation :
    (∀ load text cs n, load text = some [plainNode (.ofList cs)] → Denotes cs n →
      (IsInt64 n → ∃ i : Int64, i.toInt = n ∧ parseWith load text = .ok (.int i)) ∧
        (¬ IsInt64 n → parseWith load text = .error (.integerOutOfRange (.ofList cs)))) ∧
    (∀ load text (i : Int64), load text = some [plainNode (toString i.toInt)] → parseWith load text = .ok (.int i)) ∧
    (∀ cs n, Denotes cs n →
      (IsInt64 n → ∃ i : Int64, i.toInt = n ∧ parse (.ofList cs) = .ok (.int i)) ∧
        (¬ IsInt64 n → parse (.ofList cs) = .error (.integerOutOfRange (.ofList cs)))) ∧
    (∀ i : Int64, parse (toString i.toInt) = .ok (.int i)) ∧
    (∀ cs, isInteger cs = true ↔ ∃ n, Denotes cs n) ∧ NoWrap := by
  have hdecimal {load : String → Option (List Node)} {text : String} {i : Int64}
      (hload : load text = some [plainNode (toString i.toInt)]) : parseWith load text = .ok (.int i) :=
    (denotes_toString i.toInt).parseWith_eq_ok (by rw [hload, String.ofList_toList])
  refine ⟨fun load text cs n hload h => h.parseWith hload, fun load text i => hdecimal,
    fun cs n h => h.parseWith h.isPlain.documents?_eq, fun i => ?_, fun cs => isInteger_iff, noWrap⟩
  have hload := (denotes_toString i.toInt).isPlain.documents?_eq
  rw [String.ofList_toList] at hload
  exact hdecimal hload

/-- The least integer in hexadecimal, the first one that is too large, in base 60, and zero as a mark without digits;
and a loader that knows comments. -/
theorem parse_notation_at_limits :
    (Denotes "-0x8000_0000_0000_0000".toList (-9223372036854775808) ∧
      parse "-0x8000_0000_0000_0000" = .ok (.int Int64.minValue)) ∧
    (Denotes "153722867280912930:08".toList 9223372036854775808 ∧
      parse "153722867280912930:08" = .error (.integerOutOfRange "153722867280912930:08")) ∧
    (Denotes "+0b_".toList 0 ∧ parse "+0b_" = .ok (.int 0)) ∧
    parseWith (fun text => documents? (.ofList (text.toList.takeWhile (· ≠ '#')))) "-7 # last week" =
      .ok (.int (-7)) := by
  obtain ⟨-, hdecimal, hparse, -⟩ := parse_notation
  have hleast : Denotes "-0x8000_0000_0000_0000".toList (-9223372036854775808) :=
    .minus (.hexadecimal (List.cons_ne_nil _ _) (by decide))
  have hlarge : Denotes "153722867280912930:08".toList 9223372036854775808 := by
    have hds : "53722867280912930".toList ⊆ '_' :: decimals := by decide
    have hpart : SexagesimalDigit ['0', '8'] := .two (by decide) (by decide)
    have hd : '1' ∈ decimals.tail := by decide
    exact .unsigned (.sexagesimal hd hds (List.cons_ne_nil _ _) (List.forall_mem_singleton.2 hpart))
  have hzero : Denotes "+0b_".toList 0 := .plus (.binary (List.cons_ne_nil _ _) (by decide))
  obtain ⟨i, hi, hparse_least⟩ := (hparse _ _ hleast).1 (by decide)
  have hparse_large := (hparse _ _ hlarge).2 (by decide)
  obtain ⟨j, hj, hparse_zero⟩ := (hparse _ _ hzero).1 (by decide)
  obtain rfl : i = Int64.minValue := Int64.toInt_inj.1 hi
  obtain rfl : j = 0 := Int64.toInt_inj.1 hj
  rw [String.ofList_toList] at hparse_least hparse_large hparse_zero
  exact ⟨⟨hleast, hparse_least⟩, ⟨hlarge, hparse_large⟩, ⟨hzero, hparse_zero⟩, hdecimal _ _ (-7) rfl⟩

end Parsing

end RecordStore.Selector
