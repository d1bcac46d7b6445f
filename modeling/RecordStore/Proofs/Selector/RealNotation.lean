import RecordStore.Proofs.Number.Range
import RecordStore.Proofs.Selector.Integer
import RecordStore.Selector.Real

/-!
# The grammar of real notations

What the notations of reals are, and which numbers their numerals denote without rounding (`RealNotation`): a notation
in base 60 has a numeral for each part, infinity and what is not a number have none. Exactly the texts of this grammar
are recognised as reals (`exists_realNotation`), and one with a digit is read if all its numerals are in the range of
reals, and only then (`RealNotation.exists_real?_eq`).
-/

namespace RecordStore.Selector

/-! ## The grammar -/

/-- The characters of an exponent, if there is one; its sign is not left out. -/
inductive ExponentSpelling : Option (Bool × List Char) → List Char → Prop
  | none : ExponentSpelling none []
  | plus {e : Char} {ds : List Char} : e ∈ ['e', 'E'] → ds ≠ [] → ds ⊆ decimals →
      ExponentSpelling (some (false, ds)) (e :: '+' :: ds)
  | minus {e : Char} {ds : List Char} : e ∈ ['e', 'E'] → ds ≠ [] → ds ⊆ decimals →
      ExponentSpelling (some (true, ds)) (e :: '-' :: ds)

/-- The characters of a numeral with a point. -/
inductive Pointed.Spelling (p : Pointed) : List Char → Prop
  | mk {tail : List Char} : p.whole ⊆ '_' :: decimals → p.fraction ⊆ '_' :: decimals →
      ExponentSpelling p.exponent tail → Spelling p (p.whole ++ '.' :: (p.fraction ++ tail))

/-- The integer that an exponent denotes. -/
def exponentValue : Option (Bool × List Char) → ℤ
  | none => 0
  | some (negative, ds) => if negative then -(Text.worth 10 ds : ℤ) else Text.worth 10 ds

/-- The number that a numeral denotes: that of its digits without the point, which a power of ten puts back. -/
def Pointed.value (p : Pointed) : ℚ :=
  Text.worth 10 (p.whole ++ p.fraction) * 10 ^ (exponentValue p.exponent - p.fraction.countP (· ∈ decimals))

def infinityWords : List String := [".inf", ".Inf", ".INF"]

def nanWords : List String := [".nan", ".NaN", ".NAN"]

/-- A notation that may take a sign, without it, and the numbers that its numerals denote. -/
inductive RealMagnitude : List Char → List ℚ → Prop
  | pointed {p : Pointed} {cs : List Char} {d : Char} : d ∈ decimals → p.whole.head? = some d → p.Spelling cs →
      RealMagnitude cs [p.value]
  | sexagesimal {d : Char} {ds last : List Char} {parts : List (List Char)} {p : Pointed} :
      d ∈ decimals → ds ⊆ '_' :: decimals → (∀ part ∈ parts, SexagesimalDigit part) →
      SexagesimalDigit p.whole → p.exponent = none → p.Spelling last →
      RealMagnitude ([':'].intercalate ((d :: ds) :: (parts ++ [last])))
        (((d :: ds) :: parts).map (fun part => (Text.worth 10 part : ℚ)) ++ [p.value])
  | infinity {word : String} : word ∈ infinityWords → RealMagnitude word.toList []

/-- A notation, and the numbers that its numerals denote without the sign. -/
inductive RealNotation : List Char → List ℚ → Prop
  | unsigned {cs : List Char} {values : List ℚ} : RealMagnitude cs values → RealNotation cs values
  | plus {cs : List Char} {values : List ℚ} : RealMagnitude cs values → RealNotation ('+' :: cs) values
  | minus {cs : List Char} {values : List ℚ} : RealMagnitude cs values → RealNotation ('-' :: cs) values
  | fraction {p : Pointed} {cs : List Char} : p.whole = [] → p.fraction ≠ [] → p.Spelling cs →
      RealNotation cs [p.value]
  | nan {word : String} : word ∈ nanWords → RealNotation word.toList []

/-- A point with underscores after it and no digit, though perhaps an exponent. -/
def Digitless (cs : List Char) : Prop :=
  ∃ p : Pointed, p.whole = [] ∧ p.fraction ≠ [] ∧ p.fraction ⊆ ['_'] ∧ p.Spelling cs

theorem Digitless.head?_eq {cs : List Char} (h : Digitless cs) : cs.head? = some '.' := by
  obtain ⟨⟨whole, fraction, exponent⟩, hwhole, -, -, hspelling⟩ := h
  obtain rfl : whole = [] := hwhole
  cases hspelling
  rfl

/-! ## Recognising numerals with a point -/

section Recognising

variable {c : Char} {cs tail ds : List Char} {p : Pointed} {e : Bool × List Char}

theorem isDigit_iff (c : Char) : c.isDigit = true ↔ c ∈ decimals :=
  iff_mem_of_forall_lt (fun _ h => Nat.lt_of_le_of_lt (Char.isDigit_iff_toNat.1 h).2 (by decide)) (by decide)
    (by decide +kernel) c

theorem isDigitOrUnderscore_iff : isDigitOrUnderscore c = true ↔ c ∈ '_' :: decimals := by
  rw [isDigitOrUnderscore, Bool.or_eq_true, isDigit_iff, decide_eq_true_iff, List.mem_cons, or_comm]

theorem exponent?_eq_some_iff : exponent? tail = some e ↔ ExponentSpelling (some e) tail := by
  constructor
  · intro h
    unfold exponent? at h
    split at h
    case h_1 m s ds =>
      obtain ⟨⟨hm, hs, hne, hds⟩, heq⟩ := Option.ite_none_right_eq_some.1 h
      cases heq
      have hm : m ∈ ['e', 'E'] := by simpa using hm
      have hds : ds ⊆ decimals := fun c hc => (isDigit_iff c).1 (List.all_eq_true.1 hds c hc)
      obtain rfl | rfl := hs
      · exact .plus hm hne hds
      · exact .minus hm hne hds
    case h_2 => cases h
  · intro h
    cases h with
    | plus hm hne hds | minus hm hne hds =>
      have hds := List.all_eq_true.2 fun c hc => (isDigit_iff c).2 (hds hc)
      have hm := by simpa using hm
      exact if_pos ⟨hm, by decide, hne, hds⟩

/-- Digits and underscores are read up to the first other character. -/
theorem takeWhile_append_eq (hds : ds ⊆ '_' :: decimals) (htail : ∀ c ∈ tail.head?, c ∉ '_' :: decimals) :
    (ds ++ tail).takeWhile isDigitOrUnderscore = ds ∧ (ds ++ tail).dropWhile isDigitOrUnderscore = tail := by
  have hall : ∀ c ∈ ds, isDigitOrUnderscore c = true := fun c hc => isDigitOrUnderscore_iff.2 (hds hc)
  rw [List.takeWhile_append_of_pos hall, List.dropWhile_append_of_pos hall]
  cases tail with
  | nil => exact ⟨List.append_nil ds, rfl⟩
  | cons c tail =>
    have hc : ¬ isDigitOrUnderscore c = true := mt isDigitOrUnderscore_iff.1 (htail c rfl)
    rw [List.takeWhile_cons_of_neg hc, List.dropWhile_cons_of_neg hc, List.append_nil]
    exact ⟨rfl, rfl⟩

theorem takeWhile_subset (cs : List Char) : cs.takeWhile isDigitOrUnderscore ⊆ '_' :: decimals := fun c hc =>
  isDigitOrUnderscore_iff.1 (List.all_eq_true.1 List.all_takeWhile c hc)

theorem ExponentSpelling.head?_not_mem {exponent : Option (Bool × List Char)} (h : ExponentSpelling exponent tail) :
    ∀ c ∈ tail.head?, c ∉ '_' :: decimals := by
  have hletters : ['e', 'E'].all (· ∉ '_' :: decimals) = true := by decide
  cases h with
  | none => nofun
  | plus he | minus he =>
    rintro _ ⟨⟩
    exact of_decide_eq_true (List.all_eq_true.1 hletters _ he)

/-- A numeral with a point is read off its characters, and nothing else is. -/
theorem Pointed.ofChars?_eq_some_iff : Pointed.ofChars? cs = some p ↔ p.Spelling cs := by
  constructor
  · intro h
    have hcs := List.takeWhile_append_dropWhile (p := isDigitOrUnderscore) (l := cs)
    unfold Pointed.ofChars? at h
    split at h
    case h_1 rest hdrop =>
      have hrest := List.takeWhile_append_dropWhile (p := isDigitOrUnderscore) (l := rest)
      rw [← hcs, hdrop, ← hrest]
      dsimp only at h
      split at h
      case h_1 hnil =>
        cases h
        exact .mk (takeWhile_subset cs) (takeWhile_subset rest) (hnil ▸ .none)
      case h_2 =>
        obtain ⟨e, he, rfl⟩ := Option.map_eq_some_iff.1 h
        exact .mk (takeWhile_subset cs) (takeWhile_subset rest) (exponent?_eq_some_iff.1 he)
    case h_2 => cases h
  · intro h
    obtain ⟨whole, fraction, exponent⟩ := p
    cases h with
    | @mk tail hwhole hfraction hexponent =>
      dsimp only at hwhole hfraction hexponent ⊢
      have hpoint : ∀ c ∈ ('.' :: (fraction ++ tail)).head?, c ∉ '_' :: decimals := by
        rintro _ ⟨⟩
        decide
      obtain ⟨htake, hdrop⟩ := takeWhile_append_eq hwhole hpoint
      obtain ⟨htake', hdrop'⟩ := takeWhile_append_eq hfraction hexponent.head?_not_mem
      simp only [Pointed.ofChars?, hdrop, htake, htake', hdrop']
      cases exponent with
      | none =>
        cases hexponent
        rfl
      | some e =>
        have hread := exponent?_eq_some_iff.2 hexponent
        cases hexponent <;> exact Option.map_eq_some_iff.2 ⟨_, hread, rfl⟩

end Recognising

/-! ## Reading numerals -/

section Reading

variable {cs ds text : List Char} {p : Pointed} {d : Decimal}

theorem ofDigitChars_eq_worth (h : ds ⊆ decimals) : Nat.ofDigitChars 10 ds 0 = Text.worth 10 ds := by
  have hdigits : ∀ c ∈ ds, c.isDigit = true := fun c hc => (isDigit_iff c).2 (h hc)
  have hsome : ∀ c ∈ ds, (Text.digit? 10 c).isSome = true := fun c hc => (isSome_digit?_ten c).2 (h hc)
  exact Option.some.inj ((Text.continue?_of_isDigit hdigits 0).symm.trans (Text.numeral?_eq_some hsome))

theorem withoutUnderscores_subset (h : ds ⊆ '_' :: decimals) : withoutUnderscores ds ⊆ decimals := by
  intro c hc
  obtain ⟨hmem, hne⟩ := List.mem_filter.1 hc
  exact (List.mem_cons.1 (h hmem)).resolve_left (of_decide_eq_true hne)

theorem withoutUnderscores_eq (h : ds ⊆ decimals) : withoutUnderscores ds = ds :=
  List.filter_eq_self.2 fun _ hc => decide_eq_true (ne_of_mem_of_not_mem (h hc) (by decide))

theorem length_withoutUnderscores (h : ds ⊆ '_' :: decimals) :
    (withoutUnderscores ds).length = ds.countP (· ∈ decimals) := by
  rw [withoutUnderscores, ← List.countP_eq_length_filter]
  refine List.countP_congr fun c hc => ?_
  simp only [decide_eq_true_eq]
  exact ⟨fun hne => (List.mem_cons.1 (h hc)).resolve_left hne, fun hmem => ne_of_mem_of_not_mem hmem (by decide)⟩

/-- A numeral is read as the decimal of its digits. -/
theorem Pointed.Spelling.decimal_eq (h : p.Spelling cs) :
    p.decimal = ⟨Text.worth 10 (p.whole ++ p.fraction),
      exponentValue p.exponent - p.fraction.countP (· ∈ decimals)⟩ := by
  obtain ⟨whole, fraction, exponent⟩ := p
  cases h with
  | @mk tail hwhole hfraction hexponent =>
    dsimp only at hwhole hfraction hexponent ⊢
    have hdigits : withoutUnderscores whole ++ withoutUnderscores fraction ⊆ decimals :=
      List.append_subset.2 ⟨withoutUnderscores_subset hwhole, withoutUnderscores_subset hfraction⟩
    have hworth : Text.worth 10 (withoutUnderscores whole ++ withoutUnderscores fraction) =
        Text.worth 10 (whole ++ fraction) := by
      rw [withoutUnderscores, withoutUnderscores, ← List.filter_append]
      exact worth_withoutUnderscores 10 _
    have hdecimal (e : ℤ) : Decimal.ofDigits (withoutUnderscores whole) (withoutUnderscores fraction) e =
        ⟨Text.worth 10 (whole ++ fraction), e - fraction.countP (· ∈ decimals)⟩ := by
      rw [Decimal.ofDigits, ofDigitChars_eq_worth hdigits, hworth, length_withoutUnderscores hfraction]
    cases hexponent with
    | none => exact hdecimal 0
    | plus _ _ hds | minus _ _ hds =>
      rw [exponentValue, ← ofDigitChars_eq_worth hds]
      exact hdecimal _

theorem Pointed.Spelling.value_decimal (h : p.Spelling cs) : p.decimal.value = p.value := by
  rw [h.decimal_eq]
  rfl

theorem exists_realOfDecimal_eq_iff : (∃ x, realOfDecimal text d = .ok x) ↔ InRange d.value := by
  rw [← d.nearest_spec false, realOfDecimal]
  split
  case isTrue h =>
    refine iff_of_false nofun fun ⟨hfinite, hzero⟩ => ?_
    have hlost : (d.nearest false).magnitude = 0 ∧ d.digits ≠ 0 := by simpa [hfinite] using h
    exact hlost.2 (hzero hlost.1)
  case isFalse h =>
    refine iff_of_true ⟨_, rfl⟩ ?_
    simpa using h

theorem Pointed.hasDigit_iff : p.hasDigit = true ↔ ∃ c ∈ p.whole ++ p.fraction, c ∈ decimals := by
  rw [Pointed.hasDigit, List.any_eq_true]
  simp only [isDigit_iff]

/-- A numeral that has a digit is read if it is in range. -/
theorem Pointed.Spelling.exists_real_eq_iff (h : p.Spelling cs) (hdigit : ∃ c ∈ p.whole ++ p.fraction, c ∈ decimals) :
    (∃ x, p.real = .ok x) ↔ InRange p.value := by
  rw [Pointed.real, if_pos (Pointed.hasDigit_iff.2 hdigit), exists_realOfDecimal_eq_iff, h.value_decimal]

theorem exists_wholeReal_eq_iff (h : ds ⊆ '_' :: decimals) :
    (∃ x, wholeReal (withoutUnderscores ds) = .ok x) ↔ InRange (Text.worth 10 ds) := by
  have hvalue : (Decimal.ofDigits (withoutUnderscores ds) [] 0).value = Text.worth 10 ds := by
    rw [Decimal.value, Decimal.ofDigits, List.append_nil, ofDigitChars_eq_worth (withoutUnderscores_subset h),
      worth_withoutUnderscores]
    simp
  rw [wholeReal, exists_realOfDecimal_eq_iff, hvalue]

/-- The parts of a numeral in base 60 are read one by one; whether they can be does not depend on those before. -/
theorem exists_foldlM_wholeReal_eq_iff {parts : List (List Char)} (acc : Binary64) :
    (∃ x, parts.foldlM (fun acc part => return acc.appendDigit 60 (← wholeReal part)) acc = .ok x) ↔
      ∀ part ∈ parts, ∃ x, wholeReal part = .ok x := by
  induction parts generalizing acc with
  | nil => exact iff_of_true ⟨acc, rfl⟩ (List.forall_mem_nil _)
  | cons part parts ih =>
    rw [List.forall_mem_cons, List.foldlM_cons]
    cases hpart : wholeReal part with
    | ok x =>
      rw [← ih (acc.appendDigit 60 x), and_iff_right ⟨x, rfl⟩]
      rfl
    | error e => exact iff_of_false nofun fun h => nomatch h.1

theorem SexagesimalReal.exists_real_eq_iff {n : SexagesimalReal} :
    (∃ x, n.real = .ok x) ↔ (∀ part ∈ n.parts, ∃ x, wholeReal part = .ok x) ∧ ∃ x, n.last.real = .ok x := by
  rw [← exists_foldlM_wholeReal_eq_iff Binary64.zero, SexagesimalReal.real]
  cases List.foldlM (fun acc part => return acc.appendDigit 60 (← wholeReal part)) Binary64.zero n.parts with
  | ok x =>
    rw [and_iff_right ⟨x, rfl⟩]
    cases n.last.real with
    | ok y => exact iff_of_true ⟨_, rfl⟩ ⟨y, rfl⟩
    | error e => exact iff_of_false nofun nofun
  | error e => exact iff_of_false nofun fun h => nomatch h.1

end Reading

/-! ## Recognising notations -/

section Notations

variable {d : Char} {cs rest : List Char} {p : Pointed} {values : List ℚ}

theorem Pointed.Spelling.point_mem (h : p.Spelling cs) : '.' ∈ cs := by
  cases h with
  | mk => exact List.mem_append_right _ List.mem_cons_self

theorem Pointed.Spelling.fraction_subset (h : p.Spelling cs) : p.fraction ⊆ '_' :: decimals := by
  cases h with
  | mk _ hfraction => exact hfraction

theorem ExponentSpelling.colon_not_mem {exponent : Option (Bool × List Char)} (h : ExponentSpelling exponent cs) :
    ':' ∉ cs := by
  have hclass : ':' ∉ 'e' :: 'E' :: '+' :: '-' :: decimals := by decide
  have hletters : ['e', 'E'] ⊆ 'e' :: 'E' :: '+' :: '-' :: decimals := by decide
  have hdigits : decimals ⊆ 'e' :: 'E' :: '+' :: '-' :: decimals := by decide
  cases h with
  | none => exact List.not_mem_nil
  | plus he _ hds | minus he _ hds =>
    exact fun hmem => hclass (List.cons_subset.2 ⟨hletters he, List.cons_subset.2 ⟨by decide,
      List.Subset.trans hds hdigits⟩⟩ hmem)

theorem Pointed.Spelling.colon_not_mem (h : p.Spelling cs) : ':' ∉ cs := by
  have hclass : ':' ∉ '_' :: decimals := by decide
  intro hmem
  cases h with
  | @mk tail hwhole hfraction hexponent =>
    rcases List.mem_append.1 hmem with hmem | hmem
    · exact hclass (hwhole hmem)
    · rcases List.mem_append.1 ((List.mem_cons.1 hmem).resolve_left (by decide)) with hmem | hmem
      · exact hclass (hfraction hmem)
      · exact hexponent.colon_not_mem hmem

/-- Cutting at colons gives back the parts of a numeral in base 60. -/
theorem pieces_sexagesimal {ds last : List Char} {parts : List (List Char)} (hd : d ∈ decimals)
    (hds : ds ⊆ '_' :: decimals) (hparts : ∀ part ∈ parts, SexagesimalDigit part) (hlast : p.Spelling last) :
    Text.pieces ':' ([':'].intercalate ((d :: ds) :: (parts ++ [last]))) = (d :: ds) :: (parts ++ [last]) := by
  have hclass : ':' ∉ '_' :: decimals := by decide
  rw [Text.pieces_eq_splitOn]
  refine List.splitOn_intercalate ':' (fun part hpart hcolon => ?_) (List.cons_ne_nil _ _)
  rcases List.mem_cons.1 hpart with rfl | hpart
  · exact hclass (List.cons_subset.2 ⟨List.mem_cons_of_mem _ hd, hds⟩ hcolon)
  · rcases List.mem_append.1 hpart with hpart | hpart
    · exact hclass (List.mem_cons_of_mem _ ((hparts part hpart).subset hcolon))
    · rw [List.mem_singleton.1 hpart] at hcolon
      exact hlast.colon_not_mem hcolon

theorem SexagesimalReal.ofChars?_eq {ds last : List Char} {parts : List (List Char)} (hd : d ∈ decimals)
    (hds : ds ⊆ '_' :: decimals) (hparts : ∀ part ∈ parts, SexagesimalDigit part) (hwhole : SexagesimalDigit p.whole)
    (hexponent : p.exponent = none) (hlast : p.Spelling last) :
    SexagesimalReal.ofChars? ([':'].intercalate ((d :: ds) :: (parts ++ [last]))) =
      some ⟨withoutUnderscores (d :: ds) :: parts, p⟩ := by
  have hfirst : (d :: ds).all isDigitOrUnderscore = true := List.all_eq_true.2 fun c hc =>
    isDigitOrUnderscore_iff.2 (List.cons_subset.2 ⟨List.mem_cons_of_mem _ hd, hds⟩ hc)
  have hmiddle : parts.all isSexagesimalDigit = true := List.all_eq_true.2 fun part hpart =>
    isSexagesimalDigit_iff.2 (hparts part hpart)
  have hhead : (d :: ds).head?.any Char.isDigit = true := (isDigit_iff d).2 hd
  rw [SexagesimalReal.ofChars?, pieces_sexagesimal hd hds hparts hlast]
  simp only [List.getLast?_concat, List.dropLast_concat, Option.bind_some, Pointed.ofChars?_eq_some_iff.2 hlast, hhead,
    hfirst, hmiddle, isSexagesimalDigit_iff.2 hwhole, hexponent]
  rfl

theorem SexagesimalDigit.exists_mem {part : List Char} (h : SexagesimalDigit part) : ∃ c ∈ part, c ∈ decimals := by
  cases h with
  | one hd => exact ⟨_, List.mem_cons_self, hd⟩
  | two ht => exact ⟨_, List.mem_cons_self, List.mem_of_mem_take ht⟩

/-- What begins with a digit is no word. -/
theorem cons_not_mem_words {words : List (List Char)} (hwords : ∀ word ∈ words, word.head? = some '.')
    (hd : d ∈ decimals) (rest : List Char) : d :: rest ∉ words := by
  intro hmem
  have hpoint : d = '.' := Option.some.inj (hwords _ hmem)
  rw [hpoint] at hd
  exact absurd hd (by decide)

/-- A notation that begins with a digit is a numeral with a point, or one in base 60. -/
theorem unsignedReal?_cons (hd : d ∈ decimals) (rest : List Char) : unsignedReal? (d :: rest) =
    match Pointed.ofChars? (d :: rest) with
    | some p => if p.startsWithDigit then some p.real else none
    | none => (SexagesimalReal.ofChars? (d :: rest)).map SexagesimalReal.real :=
  if_neg (cons_not_mem_words (by decide) hd rest)

theorem RealMagnitude.exists_unsignedReal?_eq (h : RealMagnitude cs values) :
    ∃ r, unsignedReal? cs = some r ∧ ((∃ x, r = .ok x) ↔ ∀ q ∈ values, InRange q) := by
  cases h with
  | @pointed p cs d hd hhead hspelling =>
    obtain ⟨ds, hds⟩ := List.head?_eq_some_iff.1 hhead
    obtain ⟨rest, hrest⟩ : ∃ rest, cs = d :: rest := by
      cases hspelling with
      | mk => exact ⟨_, by rw [hds, List.cons_append]⟩
    have hstarts : p.startsWithDigit = true := by
      rw [Pointed.startsWithDigit, hhead]
      exact (isDigit_iff d).2 hd
    have hdigit : ∃ c ∈ p.whole ++ p.fraction, c ∈ decimals :=
      ⟨d, List.mem_append_left _ (List.mem_of_head? hhead), hd⟩
    refine ⟨p.real, ?_, by rw [hspelling.exists_real_eq_iff hdigit, List.forall_mem_singleton]⟩
    rw [hrest, unsignedReal?_cons hd, ← hrest, Pointed.ofChars?_eq_some_iff.2 hspelling]
    exact if_pos hstarts
  | @sexagesimal d ds last parts p hd hds hparts hwhole hexponent hlast =>
    obtain ⟨rest, hrest⟩ := exists_intercalate_eq d ds (parts ++ [last])
    have hpointed : Pointed.ofChars? ([':'].intercalate ((d :: ds) :: (parts ++ [last]))) = none := by
      cases hread : Pointed.ofChars? ([':'].intercalate ((d :: ds) :: (parts ++ [last]))) with
      | none => rfl
      | some q =>
        -- such a numeral has no colon, so there would be only one part
        have hone := pieces_of_not_mem (Pointed.ofChars?_eq_some_iff.1 hread).colon_not_mem
        rw [pieces_sexagesimal hd hds hparts hlast] at hone
        exact absurd (congrArg List.length hone) (by simp)
    have hdigit : ∃ c ∈ p.whole ++ p.fraction, c ∈ decimals := by
      obtain ⟨c, hmem, hc⟩ := hwhole.exists_mem
      exact ⟨c, List.mem_append_left _ hmem, hc⟩
    have hfirst : d :: ds ⊆ '_' :: decimals := List.cons_subset.2 ⟨List.mem_cons_of_mem _ hd, hds⟩
    have hmiddle : ∀ part ∈ parts, (∃ x, wholeReal part = .ok x) ↔ InRange (Text.worth 10 part) := by
      intro part hpart
      have hsubset := (hparts part hpart).subset
      rw [← exists_wholeReal_eq_iff (fun c hc => List.mem_cons_of_mem _ (hsubset hc)),
        withoutUnderscores_eq hsubset]
    refine ⟨_, by rw [hrest, unsignedReal?_cons hd, ← hrest, hpointed,
      SexagesimalReal.ofChars?_eq hd hds hparts hwhole hexponent hlast, Option.map_some], ?_⟩
    rw [SexagesimalReal.exists_real_eq_iff, hlast.exists_real_eq_iff hdigit, List.forall_mem_append,
      List.forall_mem_map, List.forall_mem_cons, List.forall_mem_cons, List.forall_mem_singleton,
      exists_wholeReal_eq_iff hfirst, forall₂_congr hmiddle]
  | @infinity word hword =>
    have hmem : word.toList ∈ [".inf".toList, ".Inf".toList, ".INF".toList] := List.mem_map_of_mem hword
    exact ⟨.ok .infinity, if_pos hmem, iff_of_true ⟨_, rfl⟩ (List.forall_mem_nil _)⟩

theorem exists_of_any_isDigit {first : List Char} (h : first.head?.any Char.isDigit = true) :
    ∃ d ∈ decimals, first.head? = some d := by
  obtain ⟨d, hhead, hd⟩ := (Option.any_eq_true _ _).1 h
  exact ⟨d, (isDigit_iff d).1 hd, hhead⟩

theorem SexagesimalReal.exists_realMagnitude {n : SexagesimalReal} (h : SexagesimalReal.ofChars? cs = some n) :
    ∃ values, RealMagnitude cs values := by
  unfold SexagesimalReal.ofChars? at h
  split at h
  case h_1 first more hpieces =>
    split at h
    case h_1 p hbind =>
      obtain ⟨last, hlast, hread⟩ := Option.bind_eq_some_iff.1 hbind
      obtain ⟨parts, rfl⟩ := List.getLast?_eq_some_iff.1 hlast
      obtain ⟨hspelt, -⟩ := Option.ite_none_right_eq_some.1 h
      simp only [Bool.and_eq_true, List.dropLast_concat, List.all_eq_true, Option.isNone_iff_eq_none] at hspelt
      obtain ⟨⟨⟨⟨hhead, hfirst⟩, hparts⟩, hwhole⟩, hexponent⟩ := hspelt
      obtain ⟨d, hd, hhead⟩ := exists_of_any_isDigit hhead
      obtain ⟨ds, rfl⟩ := List.head?_eq_some_iff.1 hhead
      have hds : ds ⊆ '_' :: decimals := fun c hc => isDigitOrUnderscore_iff.1 (hfirst c (.tail _ hc))
      rw [← intercalate_pieces cs, hpieces]
      exact ⟨_, .sexagesimal hd hds (fun part hpart => isSexagesimalDigit_iff.1 (hparts part hpart))
        (isSexagesimalDigit_iff.1 hwhole) hexponent (Pointed.ofChars?_eq_some_iff.1 hread)⟩
    case h_2 => cases h
  case h_2 => cases h

theorem exists_realMagnitude {r : Except Error Binary64} (h : unsignedReal? cs = some r) :
    ∃ values, RealMagnitude cs values := by
  unfold unsignedReal? at h
  split at h
  case isTrue hmem =>
    obtain ⟨word, hword, rfl⟩ : ∃ word ∈ infinityWords, word.toList = cs := List.mem_map.1 hmem
    exact ⟨[], .infinity hword⟩
  case isFalse =>
    split at h
    case h_1 p hread =>
      obtain ⟨hstarts, -⟩ := Option.ite_none_right_eq_some.1 h
      obtain ⟨d, hd, hhead⟩ := exists_of_any_isDigit hstarts
      exact ⟨_, .pointed hd hhead (Pointed.ofChars?_eq_some_iff.1 hread)⟩
    case h_2 =>
      obtain ⟨n, hn, -⟩ := Option.map_eq_some_iff.1 h
      exact n.exists_realMagnitude hn

theorem RealMagnitude.starts (h : RealMagnitude cs values) :
    (∃ d rest, cs = d :: rest ∧ d ∈ decimals) ∨ ∃ word ∈ infinityWords, cs = word.toList := by
  cases h with
  | @pointed p _ d hd hhead hspelling =>
    obtain ⟨ds, hds⟩ := List.head?_eq_some_iff.1 hhead
    cases hspelling with
    | mk => exact .inl ⟨d, _, by rw [hds, List.cons_append], hd⟩
  | @sexagesimal d ds last parts p hd =>
    obtain ⟨rest, hrest⟩ := exists_intercalate_eq d ds (parts ++ [last])
    exact .inl ⟨d, rest, hrest, hd⟩
  | infinity hword => exact .inr ⟨_, hword, rfl⟩

/-! ### Signs -/

theorem real?_minus (body : List Char) : real? ('-' :: body) = (unsignedReal? body).map fun x => x.map .neg := rfl

theorem map_map_self (x? : Option (Except Error Binary64)) : (x?.map fun x => x.map fun y => y) = x? := by
  rcases x? with - | (- | -) <;> rfl

theorem real?_plus (body : List Char) : real? ('+' :: body) = unsignedReal? body := map_map_self _

theorem real?_cons_of_mem (hd : d ∈ decimals) (rest : List Char) : real? (d :: rest) = unsignedReal? (d :: rest) := by
  have hfraction : (Pointed.ofChars? (d :: rest)).filter Pointed.startsWithPoint = none := by
    refine Option.filter_eq_none_iff.2 fun p hread hstarts => ?_
    obtain ⟨hwhole, -⟩ := (Bool.and_eq_true _ _).mp hstarts
    have hspelling := Pointed.ofChars?_eq_some_iff.1 hread
    obtain ⟨whole, fraction, exponent⟩ := p
    obtain rfl : whole = [] := of_decide_eq_true hwhole
    cases hspelling
    exact absurd hd (by decide)
  rw [real?, if_neg (cons_not_mem_words (by decide) hd rest), hfraction, takeSign_of_mem hd]
  exact map_map_self _

theorem real?_of_mem_infinityWords {word : String} (h : word ∈ infinityWords) :
    real? word.toList = unsignedReal? word.toList := by
  simp only [infinityWords, List.mem_cons, List.not_mem_nil, or_false] at h
  rcases h with rfl | rfl | rfl <;> rfl

/-- A numeral that begins with the point takes no sign. -/
theorem Pointed.Spelling.real?_eq (h : p.Spelling cs) (hwhole : p.whole = []) (hfraction : p.fraction ≠ []) :
    real? cs = some p.real := by
  have hread := Pointed.ofChars?_eq_some_iff.2 h
  have hwords : ∀ word ∈ [".nan".toList, ".NaN".toList, ".NAN".toList], Pointed.ofChars? word = none := by decide
  have hstarts : p.startsWithPoint = true :=
    (Bool.and_eq_true _ _).mpr ⟨decide_eq_true hwhole, decide_eq_true hfraction⟩
  have hword : cs ∉ [".nan".toList, ".NaN".toList, ".NAN".toList] := by
    intro hmem
    rw [hwords cs hmem] at hread
    cases hread
  rw [real?, if_neg hword, hread, Option.filter_some_pos hstarts]

/-! ### Notations and reading -/

theorem exists_map_eq_ok_iff {r : Except Error Binary64} {f : Binary64 → Binary64} :
    (∃ x, r.map f = .ok x) ↔ ∃ x, r = .ok x := by
  cases r with
  | ok x => exact iff_of_true ⟨f x, rfl⟩ ⟨x, rfl⟩
  | error e => exact iff_of_false nofun nofun

/-- Every notation is recognised; one with a digit is read if all its numerals are in range, and only then. -/
theorem RealNotation.exists_real?_eq (h : RealNotation cs values) :
    ∃ r, real? cs = some r ∧ (¬ Digitless cs → ((∃ x, r = .ok x) ↔ ∀ q ∈ values, InRange q)) := by
  cases h with
  | unsigned hm =>
    obtain ⟨r, hr, hok⟩ := hm.exists_unsignedReal?_eq
    refine ⟨r, ?_, fun _ => hok⟩
    rcases hm.starts with ⟨d, rest, rfl, hd⟩ | ⟨word, hword, rfl⟩
    · rw [real?_cons_of_mem hd, hr]
    · rw [real?_of_mem_infinityWords hword, hr]
  | plus hm =>
    obtain ⟨r, hr, hok⟩ := hm.exists_unsignedReal?_eq
    exact ⟨r, by rw [real?_plus, hr], fun _ => hok⟩
  | minus hm =>
    obtain ⟨r, hr, hok⟩ := hm.exists_unsignedReal?_eq
    exact ⟨r.map .neg, by rw [real?_minus, hr, Option.map_some], fun _ => by rw [exists_map_eq_ok_iff, hok]⟩
  | @fraction p _ hwhole hfraction hspelling =>
    refine ⟨p.real, hspelling.real?_eq hwhole hfraction, fun hdigitless => ?_⟩
    have hdigit : ∃ c ∈ p.whole ++ p.fraction, c ∈ decimals := by
      by_contra hnone
      refine hdigitless ⟨p, hwhole, hfraction, fun c hc => ?_, hspelling⟩
      refine List.mem_singleton.2 ((List.mem_cons.1 (hspelling.fraction_subset hc)).resolve_right fun hdecimal => ?_)
      exact hnone ⟨c, List.mem_append_right _ hc, hdecimal⟩
    rw [hspelling.exists_real_eq_iff hdigit, List.forall_mem_singleton]
  | nan hword =>
    exact ⟨.ok .nan, if_pos (List.mem_map_of_mem hword), fun _ => iff_of_true ⟨_, rfl⟩ (List.forall_mem_nil _)⟩

theorem RealMagnitude.realNotation (h : RealMagnitude (takeSign cs).2 values) : RealNotation cs values := by
  unfold takeSign at h
  split at h
  · exact .minus h
  · exact .plus h
  · exact .unsigned h

/-- Only notations are recognised. -/
theorem exists_realNotation {r : Except Error Binary64} (h : real? cs = some r) : ∃ values, RealNotation cs values := by
  unfold real? at h
  split at h
  case isTrue hmem =>
    obtain ⟨word, hword, rfl⟩ : ∃ word ∈ nanWords, word.toList = cs := List.mem_map.1 hmem
    exact ⟨[], .nan hword⟩
  case isFalse =>
    split at h
    case h_1 p hfilter =>
      obtain ⟨hread, hstarts⟩ := Option.filter_eq_some_iff.1 hfilter
      obtain ⟨hwhole, hfraction⟩ := (Bool.and_eq_true _ _).mp hstarts
      exact ⟨_, .fraction (of_decide_eq_true hwhole) (of_decide_eq_true hfraction)
        (Pointed.ofChars?_eq_some_iff.1 hread)⟩
    case h_2 =>
      obtain ⟨r, hr, -⟩ := Option.map_eq_some_iff.1 h
      obtain ⟨values, hvalues⟩ := exists_realMagnitude hr
      exact ⟨values, hvalues.realNotation⟩

end Notations

end RecordStore.Selector
