import RecordStore.Selector.Loader

/-!
# Texts that are one plain scalar

A text without blanks and line breaks that begins with no mark of quotes, tags or collections and does not end with a
colon is one plain scalar: the loader takes all of it (`IsPlain.documents?_eq`), and it has the value of its spelling
(`IsPlain.parse_eq`).
-/

namespace RecordStore.Selector

section Texts

variable {cs : List Char}

/-- No colon ends the scalar, as neither a blank nor the end follows one. -/
theorem plainChars_eq (hunbroken : ∀ c ∈ cs, c ≠ ' ') (hends : cs.getLast? ≠ some ':') :
    plainChars false cs = (cs, []) := by
  induction cs with
  | nil => rfl
  | cons c rest ih =>
    obtain ⟨-, hrest⟩ := List.forall_mem_cons.1 hunbroken
    have hkey : ¬ (c = ':' ∧ endsKey rest = true) := by
      rintro ⟨rfl, hkey⟩
      cases rest with
      | nil => exact hends rfl
      | cons d rest => exact hrest d List.mem_cons_self (of_decide_eq_true hkey)
    have hends : rest.getLast? ≠ some ':' := by
      cases rest with
      | nil => nofun
      | cons d rest => rwa [List.getLast?_cons_cons] at hends
    rw [plainChars, if_neg (by simpa using hkey), ih hrest hends]

theorem documentTexts_eq (h : ∀ c ∈ cs, c ≠ '\n') : documentTexts cs = [cs] := by
  induction cs with
  | nil => rfl
  | cons c rest ih =>
    obtain ⟨hc, hrest⟩ := List.forall_mem_cons.1 h
    rw [documentTexts, ih hrest]
    rintro _ rfl -
    exact hc rfl

theorem trimEnd_eq (h : ∀ c ∈ cs, c ≠ ' ') : trimEnd cs = cs := by
  have hdrop : cs.reverse.dropWhile (· = ' ') = cs.reverse := by
    cases hrev : cs.reverse with
    | nil => rfl
    | cons c rest =>
      have hc : c ≠ ' ' := h c (List.mem_reverse.1 (hrev ▸ List.mem_cons_self))
      rw [List.dropWhile_cons_of_neg (by simpa using hc)]
  rw [trimEnd, hdrop, List.reverse_reverse]

end Texts

/-- A text of one line that is not blank is one document. -/
theorem documents?_of_document? {cs : List Char} {node : Node} (hblank : skipSpaces cs ≠ [])
    (hline : ∀ c ∈ cs, c ≠ '\n') (h : document? cs = some node) : documents? (.ofList cs) = some [node] := by
  rw [documents?, String.toList_ofList, if_neg hblank, documentTexts_eq hline]
  simp [h]

/-- The first characters of quoted and tagged scalars and of collections. -/
def marks : List Char := ['\x27', '"', '!', '[', ']', '{', '}']

/-- One plain scalar and nothing else. -/
structure IsPlain (cs : List Char) : Prop where
  starts : ∃ c rest, cs = c :: rest ∧ c ∉ marks
  unbroken : ∀ c ∈ cs, c ≠ ' ' ∧ c ≠ '\n'
  ends : cs.getLast? ≠ some ':'

theorem isPlain_of_all {cs : List Char} (hstarts : cs.head?.any (· ∉ marks) = true)
    (hunbroken : cs.all (fun c => c ≠ ' ' ∧ c ≠ '\n') = true) (hends : cs.getLast? ≠ some ':') : IsPlain cs := by
  obtain ⟨c, hhead, hc⟩ := (Option.any_eq_true _ _).1 hstarts
  obtain ⟨rest, rfl⟩ := List.head?_eq_some_iff.1 hhead
  exact ⟨⟨c, rest, rfl, of_decide_eq_true hc⟩, fun d hd => of_decide_eq_true (List.all_eq_true.1 hunbroken d hd), hends⟩

namespace IsPlain

variable {cs : List Char} (h : IsPlain cs)

include h

theorem skipSpaces_eq : skipSpaces cs = cs := by
  obtain ⟨c, rest, rfl, -⟩ := h.starts
  have hc := (h.unbroken c List.mem_cons_self).1
  rw [skipSpaces, List.dropWhile_cons_of_neg (by simpa using hc)]

theorem untagged?_eq : untagged? false cs = some (.plain, .ofList cs, []) := by
  have hblank : ∀ c ∈ cs, c ≠ ' ' := fun c hc => (h.unbroken c hc).1
  have hplain := plainChars_eq hblank h.ends
  have htrim := trimEnd_eq hblank
  obtain ⟨c, rest, rfl, hmarks⟩ := h.starts
  rw [untagged?, hplain]
  · simp only [htrim]
  · rintro _ ⟨rfl, -⟩
    exact hmarks (by decide)
  · rintro _ ⟨rfl, -⟩
    exact hmarks (by decide)

theorem scalar?_eq : scalar? false cs = some (plainNode (.ofList cs), []) := by
  have huntagged := h.untagged?_eq
  obtain ⟨c, rest, rfl, hmarks⟩ := h.starts
  rw [scalar?, huntagged]
  · rfl
  · rintro _ ⟨rfl, -⟩
    exact hmarks (by decide)

theorem blockNode?_eq : blockNode? cs = some (plainNode (.ofList cs), []) := by
  have hscalar := h.scalar?_eq
  rw [blockNode?, h.skipSpaces_eq]
  obtain ⟨c, rest, rfl, hmarks⟩ := h.starts
  split
  case h_5 => exact hscalar
  all_goals
    rename_i heq
    cases heq
    exact absurd (by decide) hmarks

theorem documents?_eq : documents? (.ofList cs) = some [plainNode (.ofList cs)] := by
  have hne : skipSpaces cs ≠ [] := by
    rw [h.skipSpaces_eq]
    obtain ⟨c, rest, rfl, -⟩ := h.starts
    nofun
  have hdocument : document? cs = some (plainNode (.ofList cs)) := by
    rw [document?, h.blockNode?_eq]
    rfl
  exact documents?_of_document? hne (fun c hc => (h.unbroken c hc).2) hdocument

/-- A plain scalar has the value of its spelling. -/
theorem parse_eq : parse (.ofList cs) = valueOfText (.ofList cs) := by
  rw [parse, h.documents?_eq]
  show (plainNode (.ofList cs)).toValue 0 = valueOfText (.ofList cs)
  rw [plainNode]
  split
  case isTrue hnull =>
    rw [valueOfText, if_pos hnull]
    rfl
  case isFalse => rfl

end IsPlain

end RecordStore.Selector
