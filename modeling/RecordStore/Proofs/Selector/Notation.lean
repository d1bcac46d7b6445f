import RecordStore.Proofs.Path.Segments
import RecordStore.Proofs.Text.Numeral
import RecordStore.Selector.Integer

/-!
# The grammar of integer notations

What the notations of integers are and which integer each denotes, without a bound on its size (`Denotes`). Exactly the
texts of this grammar are recognised as integers (`isInteger_iff`).
-/

namespace RecordStore.Selector

/-! ## The grammar -/

def decimals : List Char := ['0', '1', '2', '3', '4', '5', '6', '7', '8', '9']

def letters : List Char := ['a', 'b', 'c', 'd', 'e', 'f', 'A', 'B', 'C', 'D', 'E', 'F']

/-- A digit in base 60, written in decimal: one digit, or two of which the first is at most five. -/
inductive SexagesimalDigit : List Char → Prop
  | one {d : Char} : d ∈ decimals → SexagesimalDigit [d]
  | two {t d : Char} : t ∈ decimals.take 6 → d ∈ decimals → SexagesimalDigit [t, d]

/-- A notation without its sign denotes the number. -/
inductive DenotesMagnitude : List Char → Nat → Prop
  | binary {ds : List Char} : ds ≠ [] → ds ⊆ '_' :: decimals.take 2 →
      DenotesMagnitude ('0' :: 'b' :: ds) (Text.worth 2 ds)
  | hexadecimal {ds : List Char} : ds ≠ [] → ds ⊆ '_' :: decimals ++ letters →
      DenotesMagnitude ('0' :: 'x' :: ds) (Text.worth 16 ds)
  | octal {ds : List Char} : ds ⊆ '_' :: decimals.take 8 → DenotesMagnitude ('0' :: ds) (Text.worth 8 ds)
  | decimal {d : Char} {ds : List Char} : d ∈ decimals.tail → ds ⊆ '_' :: decimals →
      DenotesMagnitude (d :: ds) (Text.worth 10 (d :: ds))
  | sexagesimal {d : Char} {ds : List Char} {parts : List (List Char)} : d ∈ decimals.tail → ds ⊆ '_' :: decimals →
      parts ≠ [] → (∀ part ∈ parts, SexagesimalDigit part) →
      DenotesMagnitude ([':'].intercalate ((d :: ds) :: parts))
        (Nat.ofDigits 60 (((d :: ds) :: parts).map (Text.worth 10)).reverse)

/-- A notation denotes the integer. -/
inductive Denotes : List Char → Int → Prop
  | unsigned {cs : List Char} {n : Nat} : DenotesMagnitude cs n → Denotes cs n
  | plus {cs : List Char} {n : Nat} : DenotesMagnitude cs n → Denotes ('+' :: cs) n
  | minus {cs : List Char} {n : Nat} : DenotesMagnitude cs n → Denotes ('-' :: cs) (-n)

/-! ## Characters -/

section Characters

variable {base n : Nat} {c d : Char} {cs ds part : List Char}

/-- A class of characters of seven bits holds those that an alphabet lists, if it does so up to 128. -/
theorem iff_mem_of_forall_lt {p : Char → Bool} {alphabet : List Char} (hp : ∀ c, p c = true → c.toNat < 128)
    (hmem : alphabet.all (·.toNat < 128) = true) (h : ∀ n < 128, p (.ofNat n) = decide (.ofNat n ∈ alphabet))
    (c : Char) : p c = true ↔ c ∈ alphabet := by
  have hsmall (hc : c.toNat < 128) : p c = true ↔ c ∈ alphabet := by
    have hiff := h c.toNat hc
    rw [Char.ofNat_toNat] at hiff
    rw [hiff, decide_eq_true_iff]
  exact ⟨fun hc => (hsmall (hp c hc)).1 hc,
    fun hc => (hsmall (of_decide_eq_true (List.all_eq_true.1 hmem c hc))).2 hc⟩

theorem toNat_lt_of_isSpacedDigit (c : Char) (h : isSpacedDigit base c = true) : c.toNat < 128 := by
  obtain h | h := (Bool.or_eq_true _ _).mp h
  · exact Text.toNat_lt_of_isSome_digit? h
  · rw [of_decide_eq_true h]
    decide

theorem isSpacedDigit_two (c : Char) : isSpacedDigit 2 c = true ↔ c ∈ '_' :: decimals.take 2 :=
  iff_mem_of_forall_lt toNat_lt_of_isSpacedDigit (by decide) (by decide +kernel) c

theorem isSpacedDigit_eight (c : Char) : isSpacedDigit 8 c = true ↔ c ∈ '_' :: decimals.take 8 :=
  iff_mem_of_forall_lt toNat_lt_of_isSpacedDigit (by decide) (by decide +kernel) c

theorem isSpacedDigit_ten (c : Char) : isSpacedDigit 10 c = true ↔ c ∈ '_' :: decimals :=
  iff_mem_of_forall_lt toNat_lt_of_isSpacedDigit (by decide) (by decide +kernel) c

theorem isSpacedDigit_sixteen (c : Char) : isSpacedDigit 16 c = true ↔ c ∈ '_' :: decimals ++ letters :=
  iff_mem_of_forall_lt toNat_lt_of_isSpacedDigit (by decide) (by decide +kernel) c

theorem isSome_digit?_ten (c : Char) : (Text.digit? 10 c).isSome = true ↔ c ∈ decimals :=
  iff_mem_of_forall_lt (fun _ => Text.toNat_lt_of_isSome_digit?) (by decide) (by decide +kernel) c

theorem isSome_digit?_six (c : Char) : (Text.digit? 6 c).isSome = true ↔ c ∈ decimals.take 6 :=
  iff_mem_of_forall_lt (fun _ => Text.toNat_lt_of_isSome_digit?) (by decide) (by decide +kernel) c

theorem isSexagesimalDigit_iff : isSexagesimalDigit part = true ↔ SexagesimalDigit part := by
  constructor
  · intro h
    unfold isSexagesimalDigit at h
    split at h
    case h_1 d => exact .one ((isSome_digit?_ten d).1 h)
    case h_2 t d =>
      obtain ⟨ht, hd⟩ := (Bool.and_eq_true _ _).mp h
      exact .two ((isSome_digit?_six t).1 ht) ((isSome_digit?_ten d).1 hd)
    case h_3 => cases h
  · rintro (hd | ⟨ht, hd⟩)
    · exact (isSome_digit?_ten _).2 hd
    · exact (Bool.and_eq_true _ _).mpr ⟨(isSome_digit?_six _).2 ht, (isSome_digit?_ten _).2 hd⟩

end Characters

/-! ## Parts in base 60 -/

section Parts

variable {cs ds : List Char} {d : Char} {parts : List (List Char)} {part : List Char}

theorem not_colon_of_mem {c : Char} (h : c ∈ '_' :: decimals) : c ≠ ':' := by
  rintro rfl
  revert h
  decide

theorem SexagesimalDigit.subset (h : SexagesimalDigit part) : part ⊆ decimals := by
  cases h with
  | one hd => simpa using hd
  | two ht hd => simp [List.mem_of_mem_take ht, hd]

theorem pieces_of_not_mem (h : ':' ∉ cs) : Text.pieces ':' cs = [cs] := by
  rw [Text.pieces_eq_splitOn]
  exact List.splitOn_eq_singleton h

theorem pieces_intercalate (hd : d ∈ decimals) (hds : ds ⊆ '_' :: decimals)
    (hparts : ∀ part ∈ parts, SexagesimalDigit part) :
    Text.pieces ':' ([':'].intercalate ((d :: ds) :: parts)) = (d :: ds) :: parts := by
  rw [Text.pieces_eq_splitOn]
  refine List.splitOn_intercalate ':' (fun part hpart hcolon => ?_) (List.cons_ne_nil _ _)
  obtain rfl | hpart := List.mem_cons.1 hpart
  · obtain rfl | hcolon := List.mem_cons.1 hcolon
    · exact absurd hd (by decide)
    · exact not_colon_of_mem (hds hcolon) rfl
  · exact absurd ((hparts part hpart).subset hcolon) (by decide)

theorem intercalate_pieces (cs : List Char) : [':'].intercalate (Text.pieces ':' cs) = cs := by
  rw [Text.pieces_eq_splitOn, List.intercalate_splitOn]

/-- What is no colon stands in one of the parts. -/
theorem exists_mem_pieces {c : Char} (h : c ∈ cs) (hc : c ≠ ':') : ∃ part ∈ Text.pieces ':' cs, c ∈ part := by
  induction cs with
  | nil => cases h
  | cons e cs ih =>
    rw [Text.pieces]
    obtain rfl | h := List.mem_cons.1 h
    · rw [if_neg hc]
      split
      · exact ⟨_, List.mem_cons_self, List.mem_cons_self⟩
      · exact ⟨_, List.mem_cons_self, List.mem_cons_self⟩
    · obtain ⟨part, hpart, hmem⟩ := ih h
      split
      · exact ⟨part, .tail _ hpart, hmem⟩
      · split
        case h_1 hnil => exact absurd hnil (Text.pieces_ne_nil ':' cs)
        case h_2 p ps hcons =>
          rw [hcons] at hpart
          obtain rfl | hpart := List.mem_cons.1 hpart
          · exact ⟨_, List.mem_cons_self, .tail _ hmem⟩
          · exact ⟨part, .tail _ hpart, hmem⟩

/-- Nothing stands behind a last colon. -/
theorem nil_mem_pieces (h : cs.getLast? = some ':') : [] ∈ Text.pieces ':' cs := by
  obtain ⟨front, rfl⟩ := List.getLast?_eq_some_iff.1 h
  rw [Text.pieces_eq_splitOn, List.splitOn_append_cons_self]
  simp

theorem pieces_withoutUnderscores (cs : List Char) :
    Text.pieces ':' (withoutUnderscores cs) = (Text.pieces ':' cs).map withoutUnderscores := by
  induction cs with
  | nil => rfl
  | cons c cs ih =>
    rw [Text.pieces]
    by_cases hc : c = ':'
    · subst hc
      rw [if_pos rfl, List.map_cons, ← ih]
      rfl
    · rw [if_neg hc]
      cases hp : Text.pieces ':' cs with
      | nil => exact absurd hp (Text.pieces_ne_nil ':' cs)
      | cons p ps =>
        rw [hp, List.map_cons] at ih
        by_cases hunderscore : c = '_'
        · have hdrop (rest : List Char) : withoutUnderscores (c :: rest) = withoutUnderscores rest :=
            List.filter_cons_of_neg (by simpa using hunderscore)
          rw [hdrop, ih, List.map_cons, hdrop]
        · have hkeep (rest : List Char) : withoutUnderscores (c :: rest) = c :: withoutUnderscores rest :=
            List.filter_cons_of_pos (by simpa using hunderscore)
          rw [hkeep, Text.pieces, if_neg hc, ih, List.map_cons, hkeep]

end Parts

/-! ## Recognising notations -/

section Recognising

variable {cs ds : List Char} {d : Char} {n : Nat}

/-- A notation that does not begin with zero is decimal or in base 60. -/
theorem isMagnitude_cons_of_ne {rest : List Char} {parts : List (List Char)} (hd : d ≠ '0')
    (hpieces : Text.pieces ':' (d :: rest) = (d :: ds) :: parts) : isMagnitude (d :: rest) =
      ((Text.digit? 10 d).isSome && ds.all (isSpacedDigit 10) && parts.all isSexagesimalDigit) := by
  rw [isMagnitude, hpieces]
  · rintro _ ⟨⟩
    exact hd rfl
  · rintro _ ⟨⟩
    exact hd rfl
  · rintro _ ⟨⟩
    exact hd rfl

theorem mem_tail_decimals_iff : d ∈ decimals.tail ↔ d ∈ decimals ∧ d ≠ '0' := by
  constructor
  · intro h
    refine ⟨List.mem_of_mem_tail h, ?_⟩
    rintro rfl
    revert h
    decide
  · rintro ⟨h, hd⟩
    exact (List.mem_cons.1 h).resolve_left hd

theorem exists_intercalate_eq (d : Char) (ds : List Char) (parts : List (List Char)) :
    ∃ rest, [':'].intercalate ((d :: ds) :: parts) = d :: rest := by
  cases parts with
  | nil => exact ⟨_, List.intercalate_singleton⟩
  | cons part parts => exact ⟨_, List.intercalate_cons_cons⟩

theorem DenotesMagnitude.isMagnitude (h : DenotesMagnitude cs n) : isMagnitude cs = true := by
  cases h with
  | binary hne hds =>
    exact (Bool.and_eq_true _ _).mpr
      ⟨decide_eq_true hne, List.all_eq_true.2 fun c hc => (isSpacedDigit_two c).2 (hds hc)⟩
  | hexadecimal hne hds =>
    exact (Bool.and_eq_true _ _).mpr
      ⟨decide_eq_true hne, List.all_eq_true.2 fun c hc => (isSpacedDigit_sixteen c).2 (hds hc)⟩
  | @octal ds hds =>
    rw [Selector.isMagnitude]
    · exact List.all_eq_true.2 fun c hc => (isSpacedDigit_eight c).2 (hds hc)
    · rintro _ rfl
      exact absurd (hds List.mem_cons_self) (by decide)
    · rintro _ rfl
      exact absurd (hds List.mem_cons_self) (by decide)
  | @decimal d ds hd hds =>
    obtain ⟨hd, hne⟩ := mem_tail_decimals_iff.1 hd
    have hpieces := pieces_intercalate hd hds (List.forall_mem_nil SexagesimalDigit)
    rw [List.intercalate_singleton] at hpieces
    rw [isMagnitude_cons_of_ne hne hpieces, (isSome_digit?_ten d).2 hd,
      List.all_eq_true.2 fun c hc => (isSpacedDigit_ten c).2 (hds hc)]
    rfl
  | @sexagesimal d ds parts hd hds _ hparts =>
    obtain ⟨hd, hne⟩ := mem_tail_decimals_iff.1 hd
    have hpieces := pieces_intercalate hd hds hparts
    obtain ⟨rest, hrest⟩ := exists_intercalate_eq d ds parts
    rw [hrest] at hpieces ⊢
    rw [isMagnitude_cons_of_ne hne hpieces, (isSome_digit?_ten d).2 hd,
      List.all_eq_true.2 fun c hc => (isSpacedDigit_ten c).2 (hds hc),
      List.all_eq_true.2 fun part hpart => isSexagesimalDigit_iff.2 (hparts part hpart)]
    rfl

theorem exists_denotesMagnitude (h : isMagnitude cs = true) : ∃ n, DenotesMagnitude cs n := by
  unfold isMagnitude at h
  split at h
  case h_1 ds =>
    obtain ⟨hne, hds⟩ := (Bool.and_eq_true _ _).mp h
    exact ⟨_, .binary (of_decide_eq_true hne) fun c hc => (isSpacedDigit_two c).1 (List.all_eq_true.1 hds c hc)⟩
  case h_2 ds _ =>
    obtain ⟨hne, hds⟩ := (Bool.and_eq_true _ _).mp h
    exact ⟨_, .hexadecimal (of_decide_eq_true hne) fun c hc =>
      (isSpacedDigit_sixteen c).1 (List.all_eq_true.1 hds c hc)⟩
  case h_3 ds _ _ => exact ⟨_, .octal fun c hc => (isSpacedDigit_eight c).1 (List.all_eq_true.1 h c hc)⟩
  case h_4 _ _ hzero =>
    split at h
    case h_1 d ds parts hpieces =>
      obtain ⟨hfirst, hparts⟩ := (Bool.and_eq_true _ _).mp h
      obtain ⟨hd, hds⟩ := (Bool.and_eq_true _ _).mp hfirst
      have hcs := intercalate_pieces cs
      rw [hpieces] at hcs
      obtain ⟨rest, hrest⟩ := exists_intercalate_eq d ds parts
      have hd : d ∈ decimals.tail := by
        refine mem_tail_decimals_iff.2 ⟨(isSome_digit?_ten d).1 hd, ?_⟩
        rintro rfl
        exact hzero rest (hcs.symm.trans hrest)
      have hds : ds ⊆ '_' :: decimals := fun c hc => (isSpacedDigit_ten c).1 (List.all_eq_true.1 hds c hc)
      rw [← hcs]
      cases parts with
      | nil =>
        rw [List.intercalate_singleton]
        exact ⟨_, .decimal hd hds⟩
      | cons part parts =>
        exact ⟨_, .sexagesimal hd hds (List.cons_ne_nil _ _) fun part hpart =>
          isSexagesimalDigit_iff.1 (List.all_eq_true.1 hparts part hpart)⟩
    case h_2 => cases h

theorem DenotesMagnitude.starts (h : DenotesMagnitude cs n) : ∃ d rest, cs = d :: rest ∧ d ∈ decimals := by
  cases h with
  | binary | hexadecimal | octal => exact ⟨_, _, rfl, List.mem_cons_self⟩
  | decimal hd => exact ⟨_, _, rfl, List.mem_of_mem_tail hd⟩
  | @sexagesimal d ds parts hd =>
    obtain ⟨rest, hrest⟩ := exists_intercalate_eq d ds parts
    exact ⟨d, rest, hrest, List.mem_of_mem_tail hd⟩

theorem takeSign_of_mem {rest : List Char} (hd : d ∈ decimals) : takeSign (d :: rest) = (false, d :: rest) := by
  rw [takeSign]
  · rintro _ ⟨⟩
    exact absurd hd (by decide)
  · rintro _ ⟨⟩
    exact absurd hd (by decide)

/-- The texts of the grammar are recognised, and no others. -/
theorem isInteger_iff : isInteger cs = true ↔ ∃ n, Denotes cs n := by
  constructor
  · intro h
    rw [isInteger] at h
    unfold takeSign at h
    split at h
    case h_1 =>
      obtain ⟨n, hn⟩ := exists_denotesMagnitude h
      exact ⟨_, .minus hn⟩
    case h_2 =>
      obtain ⟨n, hn⟩ := exists_denotesMagnitude h
      exact ⟨_, .plus hn⟩
    case h_3 =>
      obtain ⟨n, hn⟩ := exists_denotesMagnitude h
      exact ⟨_, .unsigned hn⟩
  · rintro ⟨n, h⟩
    cases h with
    | unsigned h =>
      obtain ⟨d, rest, rfl, hd⟩ := h.starts
      rw [isInteger, takeSign_of_mem hd]
      exact h.isMagnitude
    | plus h => exact h.isMagnitude
    | minus h => exact h.isMagnitude

end Recognising

end RecordStore.Selector
