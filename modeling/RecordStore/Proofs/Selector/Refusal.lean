import RecordStore.Proofs.Selector.Loading
import RecordStore.Proofs.Selector.RealNotation

/-!
# Plain scalars without a value

Every real notation has a point, and no word and no integer notation has one, so the spelling of a plain scalar is
either a word, or an integer notation, or a real notation, or free text. Words and free text always have a value. A
notation of an integer has none if the integer does not fit into 64 bits, and one of a real if a numeral in it is out
of the range of reals (`parseWith_plain_error_iff`) or has no digit at all (`Digitless.parseWith_eq_error`).
-/

namespace RecordStore.Selector

/-! ## Real notations are no words and no integer notations -/

section Points

variable {cs : List Char} {values : List ℚ}

theorem subset_intercalate_concat (sep : List Char) (front : List (List Char)) (last : List Char) :
    last ⊆ sep.intercalate (front ++ [last]) := by
  induction front with
  | nil => rw [List.nil_append, List.intercalate_singleton]; exact fun c hc => hc
  | cons part front ih =>
    rw [List.cons_append, List.intercalate_cons_of_ne_nil (by simp)]
    exact fun c hc => List.mem_append_right _ (ih hc)

theorem RealMagnitude.point_mem (h : RealMagnitude cs values) : '.' ∈ cs := by
  have hwords : ∀ word ∈ infinityWords, '.' ∈ word.toList := by decide
  cases h with
  | pointed _ _ hspelling => exact hspelling.point_mem
  | @sexagesimal d ds last parts p _ _ _ _ _ hlast =>
    exact subset_intercalate_concat [':'] ((d :: ds) :: parts) last hlast.point_mem
  | infinity hword => exact hwords _ hword

theorem RealNotation.point_mem (h : RealNotation cs values) : '.' ∈ cs := by
  have hwords : ∀ word ∈ nanWords, '.' ∈ word.toList := by decide
  cases h with
  | unsigned hm => exact hm.point_mem
  | plus hm | minus hm => exact List.mem_cons_of_mem _ hm.point_mem
  | fraction _ _ hspelling => exact hspelling.point_mem
  | nan hword => exact hwords _ hword

theorem Denotes.point_not_mem {n : Int} (h : Denotes cs n) : '.' ∉ cs := by
  have hclass : '.' ∉ alphabet := by decide
  intro hmem
  cases h with
  | unsigned hm => exact hclass (hm.subset_alphabet hmem)
  | plus hm => exact hclass (hm.subset_alphabet ((List.mem_cons.1 hmem).resolve_left (by decide)))
  | minus hm => exact hclass (hm.subset_alphabet ((List.mem_cons.1 hmem).resolve_left (by decide)))

/-- A text with a point is free text unless it is a real notation. -/
theorem valueOfText_of_point_mem {text : String} (h : '.' ∈ text.toList) :
    valueOfText text = (real? text.toList).elim (.ok (.str text)) fun x => x.map .real := by
  have hwords : ∀ word ∈ nullWords ++ trueWords ++ falseWords, '.' ∉ word.toList := by decide
  have hword : text ∉ nullWords ++ trueWords ++ falseWords := fun hmem => hwords text hmem h
  simp only [List.mem_append, not_or] at hword
  obtain ⟨⟨hnull, htrue⟩, hfalse⟩ := hword
  have hinteger : ¬ isInteger text.toList = true := by
    rw [isInteger_iff]
    rintro ⟨n, hn⟩
    exact hn.point_not_mem h
  rw [valueOfText, if_neg hnull, if_neg htrue, if_neg hfalse, if_neg hinteger]
  cases real? text.toList <;> rfl

end Points

/-! ## Texts without a value -/

section Refusal

variable {text : String} {e : Error}

theorem Denotes.exists_valueOfText_error_iff {n : Int} (h : Denotes text.toList n) :
    (∃ e, valueOfText text = .error e) ↔ ¬ IsInt64 n := by
  have hvalue := valueOfText_of_isInteger (isInteger_iff.2 ⟨n, h⟩)
  rw [String.ofList_toList] at hvalue
  rw [hvalue]
  by_cases hn : IsInt64 n
  · obtain ⟨i, hi⟩ := exists_toInt_eq hn
    rw [h.int64?_eq_some_iff.2 hi]
    exact iff_of_false nofun (not_not.2 hn)
  · cases hread : int64? text.toList with
    | none => exact iff_of_true ⟨_, rfl⟩ hn
    | some i => exact absurd (h.int64?_eq_some_iff.1 hread ▸ isInt64_toInt i) hn

theorem RealNotation.exists_valueOfText_error_iff {values : List ℚ} (h : RealNotation text.toList values)
    (hdigit : ¬ Digitless text.toList) : (∃ e, valueOfText text = .error e) ↔ ∃ q ∈ values, ¬ InRange q := by
  obtain ⟨r, hr, hok⟩ := h.exists_real?_eq
  rw [valueOfText_of_point_mem h.point_mem, hr]
  have hranges : (∃ q ∈ values, ¬ InRange q) ↔ ¬ ∃ x, r = .ok x := by
    rw [hok hdigit]
    simp
  rw [hranges]
  cases r with
  | ok x => exact iff_of_false nofun (not_not.2 ⟨x, rfl⟩)
  | error e => exact iff_of_true ⟨e, rfl⟩ nofun

/-- Only notations of integers and of reals are refused. -/
theorem notation_of_valueOfText_error (h : valueOfText text = .error e) :
    (∃ n, Denotes text.toList n) ∨ ∃ values, RealNotation text.toList values := by
  unfold valueOfText at h
  split at h
  · cases h
  · split at h
    · cases h
    · split at h
      · cases h
      · split at h
        case isTrue hinteger => exact .inl (isInteger_iff.1 hinteger)
        case isFalse =>
          split at h
          case h_1 r hr => exact .inr (exists_realNotation hr)
          case h_2 => cases h

/-- Whatever loads the document, a plain scalar has no value only if it denotes an integer without 64 bits or has a
numeral out of the range of reals. -/
theorem parseWith_plain_error_iff {load : String → Option (List Node)} {scalar : String}
    (h : load text = some [plainNode scalar]) (hdigit : ¬ Digitless scalar.toList) :
    (∃ e, parseWith load text = .error e) ↔
      (∃ n, Denotes scalar.toList n ∧ ¬ IsInt64 n) ∨
        ∃ values, RealNotation scalar.toList values ∧ ∃ q ∈ values, ¬ InRange q := by
  rw [parseWith_of_plain h]
  constructor
  · rintro ⟨e, he⟩
    rcases notation_of_valueOfText_error he with ⟨n, hn⟩ | ⟨values, hvalues⟩
    · exact .inl ⟨n, hn, hn.exists_valueOfText_error_iff.1 ⟨e, he⟩⟩
    · exact .inr ⟨values, hvalues, (hvalues.exists_valueOfText_error_iff hdigit).1 ⟨e, he⟩⟩
  · rintro (⟨n, hn, hlarge⟩ | ⟨values, hvalues, hrange⟩)
    · exact hn.exists_valueOfText_error_iff.2 hlarge
    · exact (hvalues.exists_valueOfText_error_iff hdigit).2 hrange

/-- Whatever loads the document, a plain scalar with the point of a real but no digit has no value. -/
theorem Digitless.parseWith_eq_error {load : String → Option (List Node)} {scalar : String}
    (h : load text = some [plainNode scalar]) (hdigit : Digitless scalar.toList) :
    ∃ p : Pointed, p.Spelling scalar.toList ∧ parseWith load text = .error (.unreadableReal (.ofList p.text)) := by
  obtain ⟨p, hwhole, hfraction, hunderscores, hspelling⟩ := hdigit
  have hnone : p.hasDigit = false := by
    rw [Pointed.hasDigit, hwhole, List.nil_append, List.any_eq_false]
    intro c hc
    rw [List.mem_singleton.1 (hunderscores hc)]
    decide
  refine ⟨p, hspelling, ?_⟩
  rw [parseWith_of_plain h, valueOfText_of_point_mem hspelling.point_mem, hspelling.real?_eq hwhole hfraction,
    Option.elim_some, Pointed.real, hnone]
  rfl

/-- A numeral that would be rounded to zero. -/
theorem parseWith_plain_error_of_tiny :
    documents? "1.5e-400" = some [plainNode "1.5e-400"] ∧ ¬ Digitless "1.5e-400".toList ∧
      (∃ values, RealNotation "1.5e-400".toList values ∧ ∃ q ∈ values, ¬ InRange q) ∧
      ∃ e, parseWith documents? "1.5e-400" = .error e := by
  have hplain : IsPlain "1.5e-400".toList := isPlain_of_all (by decide) (by decide) (by decide)
  have hload := hplain.documents?_eq
  rw [String.ofList_toList] at hload
  have hdigit : ¬ Digitless "1.5e-400".toList := fun h => absurd h.head?_eq (by decide)
  have hrange : ∃ values, RealNotation "1.5e-400".toList values ∧ ∃ q ∈ values, ¬ InRange q := by
    have hspelling : Pointed.Spelling ⟨['1'], ['5'], some (true, ['4', '0', '0'])⟩ "1.5e-400".toList :=
      Pointed.ofChars?_eq_some_iff.1 (by decide)
    have htiny := hspelling.value_decimal ▸ Decimal.not_inRange_of_order_lt (by decide) (by decide)
    exact ⟨_, .unsigned (.pointed (by decide) rfl hspelling), _, List.mem_singleton_self _, htiny⟩
  exact ⟨hload, hdigit, hrange, (parseWith_plain_error_iff hload hdigit).2 (.inr hrange)⟩

/-- A numeral out of range is refused though it is no integer. -/
theorem parse_exponent_out_of_range :
    documents? "1.5e+400" = some [plainNode "1.5e+400"] ∧
    (¬ ∃ n, Denotes "1.5e+400".toList n ∧ ¬ IsInt64 n) ∧
    parse "1.5e+400" = .error (.unreadableReal "1.5e+400") := by
  have hplain : IsPlain "1.5e+400".toList := isPlain_of_all (by decide) (by decide) (by decide)
  have hdocuments := hplain.documents?_eq
  have hparse := hplain.parse_eq
  rw [String.ofList_toList] at hdocuments hparse
  refine ⟨hdocuments, fun ⟨n, hn, _⟩ => hn.point_not_mem (by decide), ?_⟩
  rw [hparse]
  rfl

end Refusal

end RecordStore.Selector
