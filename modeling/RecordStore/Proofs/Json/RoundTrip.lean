import RecordStore.Proofs.Entries
import RecordStore.Proofs.Json.Tokens

/-!
# JSON documents read back

A JSON document is `Exact` if its text keeps all of it: its integers are words, it has no reals, and the fields of its
objects ascend. Printed in either layout, such a document reads back, whatever comes after it (`readsBack_of_exact`):
its elements and fields do by induction, and between them stand only commas and blanks. So what is dumped is parsed as
it was (`parse?_dump`).
-/

namespace RecordStore.Json

/-- Induction on a JSON document, through the elements of arrays and the fields of objects. -/
@[elab_as_elim]
protected theorem induction {motive : Json → Prop} (null : motive null) (bool : ∀ b, motive (bool b))
    (int : ∀ n, motive (int n)) (real : ∀ x, motive (real x)) (str : ∀ s, motive (str s))
    (arr : ∀ items : List Json, (∀ j ∈ items, motive j) → motive (arr items))
    (obj : ∀ fields : List (String × Json), (∀ e ∈ fields, motive e.2) → motive (obj fields)) : ∀ j, motive j
  | .null => null
  | .bool b => bool b
  | .int n => int n
  | .real x => real x
  | .str s => str s
  | .arr items => arr items fun j _ => Json.induction null bool int real str arr obj j
  | .obj fields => obj fields fun e _ => Json.induction null bool int real str arr obj e.2
termination_by j => sizeOf j
decreasing_by
  · have := List.sizeOf_lt_of_mem ‹j ∈ items›
    simp only [Json.arr.sizeOf_spec]
    omega
  · have := List.sizeOf_lt_of_mem ‹e ∈ fields›
    obtain ⟨name, j⟩ := e
    simp only [Json.obj.sizeOf_spec, Prod.mk.sizeOf_spec] at this ⊢
    omega

/-! ## Exact documents -/

mutual

/-- The integers are words, there are no reals, and the fields of all objects ascend. -/
def Exact : Json → Prop
  | int n => IsWord n
  | real _ => False
  | arr items => ExactItems items
  | obj fields => Entries.Ascending fields ∧ ExactFields fields
  | _ => True

def ExactItems : List Json → Prop
  | [] => True
  | j :: js => j.Exact ∧ ExactItems js

def ExactFields : List (String × Json) → Prop
  | [] => True
  | (_, j) :: fields => j.Exact ∧ ExactFields fields

end

theorem exact_arr_iff {items : List Json} : (arr items).Exact ↔ ∀ j ∈ items, j.Exact := by
  rw [Exact]
  induction items with
  | nil => simp [ExactItems]
  | cons j items ih => rw [ExactItems, ih, List.forall_mem_cons]

theorem exactFields_iff {fields : List (String × Json)} : ExactFields fields ↔ ∀ e ∈ fields, e.2.Exact := by
  induction fields with
  | nil => simp [ExactFields]
  | cons e fields ih =>
    obtain ⟨name, j⟩ := e
    rw [ExactFields, ih, List.forall_mem_cons]

theorem exact_obj_iff {fields : List (String × Json)} :
    (obj fields).Exact ↔ Entries.Ascending fields ∧ ∀ e ∈ fields, e.2.Exact := by
  rw [Exact, exactFields_iff]

/-! ## Blanks -/

section Blanks

variable {blank cs : List Char}

theorem skipBlank_append (h : ∀ c ∈ blank, isBlank c = true) (cs : List Char) :
    skipBlank (blank ++ cs) = skipBlank cs := List.dropWhile_append_of_pos h

theorem skipBlank_cons {c : Char} (h : isBlank c = false) (cs : List Char) : skipBlank (c :: cs) = c :: cs := by
  simp [skipBlank, h]

theorem readValue_append (h : ∀ c ∈ blank, isBlank c = true) (fuel : Nat) (cs : List Char) :
    readValue fuel (blank ++ cs) = readValue fuel cs := by
  cases fuel with
  | zero => rfl
  | succ fuel => rw [readValue, readValue, skipBlank_append h]

theorem readItems_append (h : ∀ c ∈ blank, isBlank c = true) (fuel : Nat) (cs : List Char) :
    readItems fuel (blank ++ cs) = readItems fuel cs := by
  cases fuel with
  | zero => rfl
  | succ fuel => rw [readItems, readItems, readValue_append h]

theorem readFields_append (h : ∀ c ∈ blank, isBlank c = true) (fuel : Nat) (before : List (String × Json))
    (cs : List Char) : readFields fuel before (blank ++ cs) = readFields fuel before cs := by
  cases fuel with
  | zero => rfl
  | succ fuel => rw [readFields, readFields, skipBlank_append h]

theorem isBlank_of_mem_lineBreak (indent : Option Nat) (depth : Nat) :
    ∀ c ∈ lineBreak indent depth, isBlank c = true := by
  intro c hc
  cases indent with
  | none => cases hc
  | some width =>
    rcases List.mem_cons.1 hc with rfl | hc
    · rfl
    · rw [List.eq_of_mem_replicate hc]
      rfl

theorem delimited_lineBreak_append {rest : List Char} (indent : Option Nat) (depth : Nat) (h : Delimited rest) :
    Delimited (lineBreak indent depth ++ rest) := by
  cases indent with
  | none => exact h
  | some width => simp [Delimited, lineBreak]

end Blanks

/-! ## The start of a document -/

/-- A character that is neither blank nor a closing bracket nor a byte-order mark. -/
def Opens (c : Char) : Prop := isBlank c = false ∧ c ≠ ']' ∧ c ≠ '\uFEFF'

instance (c : Char) : Decidable (Opens c) := inferInstanceAs (Decidable (_ ∧ _))

theorem opens_of_isDigit {c : Char} (h : c.isDigit = true) : Opens c := by
  refine ⟨?_, ?_, ?_⟩
  · rw [isBlank]
    refine Bool.eq_false_iff.2 fun hblank => ?_
    simp only [Bool.or_eq_true, decide_eq_true_eq] at hblank
    rcases hblank with ((rfl | rfl) | rfl) | rfl <;> cases h
  · rintro rfl
    cases h
  · rintro rfl
    cases h

theorem exists_toDigits_eq_cons (n : Nat) : ∃ d ds, Nat.toDigits 10 n = d :: ds ∧ d.isDigit = true := by
  cases hds : Nat.toDigits 10 n with
  | nil => exact absurd hds Nat.toDigits_ne_nil
  | cons d ds =>
    refine ⟨d, ds, rfl, Nat.isDigit_of_mem_toDigits (b := 10) (n := n) (by decide) (by decide) ?_⟩
    rw [hds]
    exact List.mem_cons_self

theorem exists_print_eq_cons {j : Json} (hj : j.Exact) (indent : Option Nat) (depth : Nat) :
    ∃ c cs, print indent depth j = c :: cs ∧ Opens c := by
  cases j with
  | null => exact ⟨_, _, rfl, by decide⟩
  | bool b => cases b <;> exact ⟨_, _, rfl, by decide⟩
  | int n =>
    rw [print, integerText]
    split
    · exact ⟨_, _, rfl, by decide⟩
    · obtain ⟨d, ds, hds, hd⟩ := exists_toDigits_eq_cons n.natAbs
      exact ⟨d, ds, hds, opens_of_isDigit hd⟩
  | real x => exact hj.elim
  | str s => exact ⟨_, _, rfl, by decide⟩
  | arr items => cases items <;> exact ⟨_, _, rfl, by decide⟩
  | obj fields =>
    cases fields with
    | nil => exact ⟨_, _, rfl, by decide⟩
    | cons e fields => exact ⟨_, _, rfl, by decide⟩

/-! ## Scalars -/

section Scalars

variable {fuel : Nat} {rest : List Char}

theorem quoted_append (s : String) (rest : List Char) :
    quoted s ++ rest = '"' :: (s.toList.flatMap escape ++ '"' :: rest) := by
  simp [quoted]

theorem readValue_quoted {s : String} (hfuel : s.toList.length < fuel) (rest : List Char) :
    readValue (fuel + 1) (quoted s ++ rest) = some (str s, rest) := by
  rw [quoted_append, readValue, skipBlank_cons (by decide)]
  simp [readString_flatMap_escape hfuel]

theorem readValue_of_isDigit {d : Char} (hd : d.isDigit = true) (fuel : Nat) (rest : List Char) :
    readValue (fuel + 1) (d :: rest) = readNumber false (d :: rest) := by
  have hne (c : Char) (hc : c.isDigit = false) : d ≠ c := by
    rintro rfl
    rw [hd] at hc
    cases hc
  rw [readValue, skipBlank_cons (opens_of_isDigit hd).1]
  simp only [if_neg (hne '[' rfl), if_neg (hne '{' rfl), if_neg (hne '"' rfl), if_neg (hne '-' rfl), if_pos hd]

theorem readValue_integerText {n : Int} (hword : IsWord n) (hrest : Delimited rest) :
    readValue (fuel + 1) (integerText n ++ rest) = some (int n, rest) := by
  rw [integerText]
  split
  case isTrue hneg =>
    have hn : -(n.natAbs : Int) = n := by omega
    have hread : readNumber true (Nat.toDigits 10 n.natAbs ++ rest) = some (int (-(n.natAbs : Int)), rest) :=
      readNumber_toDigits (by rwa [if_pos rfl, hn]) hrest
    rw [hn] at hread
    rw [List.cons_append, readValue, skipBlank_cons (by decide)]
    simp [hread]
  case isFalse hneg =>
    have hn : (n.natAbs : Int) = n := by omega
    have hread : readNumber false (Nat.toDigits 10 n.natAbs ++ rest) = some (int (n.natAbs : Int), rest) :=
      readNumber_toDigits (by simpa [hn] using hword) hrest
    rw [hn] at hread
    obtain ⟨d, ds, hds, hd⟩ := exists_toDigits_eq_cons n.natAbs
    rw [hds, List.cons_append] at hread ⊢
    rw [readValue_of_isDigit hd, hread]

end Scalars

/-! ## Arrays and objects -/

/-- The printed document is read as it was, whatever comes after it; twice the length of its text is fuel enough. -/
def ReadsBack (indent : Option Nat) (depth : Nat) (j : Json) : Prop :=
  ∀ fuel rest, 2 * (print indent depth j).length ≤ fuel → Delimited rest →
    readValue fuel (print indent depth j ++ rest) = some (j, rest)

section Documents

variable {indent : Option Nat} {depth : Nat} {j : Json}

/-- A printed document is not empty, so there is fuel for its first step. -/
theorem readsBack_of_succ (hj : j.Exact)
    (h : ∀ fuel rest, 2 * (print indent depth j).length ≤ fuel + 1 → Delimited rest →
      readValue (fuel + 1) (print indent depth j ++ rest) = some (j, rest)) : ReadsBack indent depth j := by
  intro fuel rest hfuel hrest
  obtain ⟨c, cs, hprint, -⟩ := exists_print_eq_cons hj indent depth
  cases fuel with
  | zero => simp [hprint] at hfuel
  | succ fuel => exact h fuel rest hfuel hrest

theorem delimited_cons {c : Char} (h : c = ',' ∨ c = ']' ∨ c = '}' ∨ c = '\n') (rest : List Char) :
    Delimited (c :: rest) := by
  rintro _ ⟨⟩
  exact h

/-- Before a closing bracket on a line of its own there are only blanks. -/
theorem skipBlank_lineBreak_append {c : Char} (h : isBlank c = false) (indent : Option Nat) (depth : Nat)
    (rest : List Char) : skipBlank (lineBreak indent depth ++ c :: rest) = c :: rest := by
  rw [skipBlank_append (isBlank_of_mem_lineBreak indent depth), skipBlank_cons h]

/-- The elements up to the closing bracket are read back if each of them is. -/
theorem readItems_print {items : List Json} (hj : ReadsBack indent depth j)
    (hitems : ∀ j ∈ items, ReadsBack indent depth j) (outer : Nat) (rest : List Char) (fuel : Nat)
    (hfuel : 2 * ((print indent depth j).length + (printItems indent depth items).length) < fuel) :
    readItems fuel (print indent depth j ++ (printItems indent depth items ++
      (lineBreak indent outer ++ ']' :: rest))) = some (j :: items, rest) := by
  obtain ⟨fuel, rfl⟩ := Nat.exists_eq_add_one.2 (Nat.zero_lt_of_lt hfuel)
  induction items generalizing j fuel with
  | nil =>
    have hdel : Delimited (lineBreak indent outer ++ ']' :: rest) :=
      delimited_lineBreak_append _ _ (delimited_cons (by decide) _)
    rw [readItems, printItems, List.nil_append, hj fuel _ (by omega) hdel]
    simp [skipBlank_lineBreak_append, isBlank]
  | cons next items ih =>
    obtain ⟨hnext, hitems⟩ := List.forall_mem_cons.1 hitems
    simp only [printItems, List.length_cons, List.length_append, List.cons_append, List.append_assoc] at hfuel ⊢
    obtain ⟨fuel, rfl⟩ := Nat.exists_eq_add_one.2 (show 0 < fuel by omega)
    have hrest := ih hnext hitems fuel (by omega)
    rw [← readItems_append (isBlank_of_mem_lineBreak indent depth)] at hrest
    rw [readItems, hj _ _ (by omega) (delimited_cons (by decide) _)]
    simp [skipBlank_cons, isBlank, hrest]

theorem exists_fieldMark_eq_cons (indent : Option Nat) :
    ∃ gap, fieldMark indent = ':' :: gap ∧ ∀ c ∈ gap, isBlank c = true := by
  cases indent with
  | none => exact ⟨[], rfl, nofun⟩
  | some width => exact ⟨[' '], rfl, List.forall_mem_singleton.2 rfl⟩

/-- What is read after a field: the closing brace, or more fields. -/
def readMoreFields (fuel : Nat) (fields : List (String × Json)) (cs : List Char) :
    Option (List (String × Json) × List Char) :=
  match skipBlank cs with
  | '}' :: rest => some (fields, rest)
  | ',' :: rest => readFields fuel fields rest
  | _ => none

/-- A field is read back and added to those before it, if its document is read back. -/
theorem readFields_cons {name : String} (hj : ReadsBack indent depth j) (before : List (String × Json))
    {fuel : Nat} {rest : List Char} (hfuel : 2 * ((quoted name).length + (print indent depth j).length) ≤ fuel)
    (hrest : Delimited rest) :
    readFields (fuel + 1) before (quoted name ++ (fieldMark indent ++ (print indent depth j ++ rest))) =
      readMoreFields fuel (Entries.insert name j before) rest := by
  obtain ⟨gap, hmark, hgap⟩ := exists_fieldMark_eq_cons indent
  have hname : name.toList.length < fuel := by
    have hescaped := length_le_flatMap_escape name.toList
    simp only [quoted, List.length_cons, List.length_append] at hfuel
    omega
  have hvalue := hj fuel rest (by omega) hrest
  rw [← readValue_append hgap] at hvalue
  have hcolon : isBlank ':' = false := rfl
  rw [quoted_append, hmark, readFields, skipBlank_cons (by decide)]
  simp only [readString_flatMap_escape hname, Option.bind_eq_bind, Option.bind_some, List.cons_append,
    skipBlank_cons hcolon, String.ofList_toList]
  rewrite [hvalue]
  rfl

theorem readMoreFields_brace (fuel : Nat) (fields : List (String × Json)) (outer : Nat) (rest : List Char) :
    readMoreFields fuel fields (lineBreak indent outer ++ '}' :: rest) = some (fields, rest) := by
  simp [readMoreFields, skipBlank_lineBreak_append, isBlank]

theorem readMoreFields_comma (fuel : Nat) (fields : List (String × Json)) (cs : List Char) :
    readMoreFields fuel fields (',' :: (lineBreak indent depth ++ cs)) = readFields fuel fields cs := by
  rw [← readFields_append (isBlank_of_mem_lineBreak indent depth)]
  simp [readMoreFields, skipBlank_cons, isBlank]

/-- The fields up to the closing brace are read back, behind those before them, if the document of each of them is. -/
theorem readFields_print {name : String} {fields : List (String × Json)} (hj : ReadsBack indent depth j)
    (hfields : ∀ e ∈ fields, ReadsBack indent depth e.2) (before : List (String × Json))
    (hasc : Entries.Ascending (before ++ (name, j) :: fields)) (outer : Nat) (rest : List Char) (fuel : Nat)
    (hfuel : 2 * ((quoted name).length + (print indent depth j).length + (printFields indent depth fields).length) <
      fuel) :
    readFields fuel before (quoted name ++ (fieldMark indent ++ (print indent depth j ++
      (printFields indent depth fields ++ (lineBreak indent outer ++ '}' :: rest))))) =
        some (before ++ (name, j) :: fields, rest) := by
  have hinsert : Entries.insert name j before = before ++ [(name, j)] :=
    Entries.insert_of_forall_lt hasc.lt_of_append j
  obtain ⟨fuel, rfl⟩ := Nat.exists_eq_add_one.2 (Nat.zero_lt_of_lt hfuel)
  induction fields generalizing name j before fuel with
  | nil =>
    have hdel : Delimited (lineBreak indent outer ++ '}' :: rest) :=
      delimited_lineBreak_append _ _ (delimited_cons (by decide) _)
    rw [printFields, List.nil_append, readFields_cons hj before (by omega) hdel, hinsert, readMoreFields_brace]
  | cons next fields ih =>
    obtain ⟨name', j'⟩ := next
    obtain ⟨hj', hfields⟩ : ReadsBack indent depth j' ∧ ∀ e ∈ fields, ReadsBack indent depth e.2 :=
      List.forall_mem_cons.1 hfields
    simp only [printFields, List.length_cons, List.length_append, List.cons_append, List.append_assoc] at hfuel ⊢
    obtain ⟨fuel, rfl⟩ := Nat.exists_eq_add_one.2 (show 0 < fuel by omega)
    have hasc' : Entries.Ascending ((before ++ [(name, j)]) ++ (name', j') :: fields) := by simpa using hasc
    have hrest := ih hj' hfields _ hasc' (Entries.insert_of_forall_lt hasc'.lt_of_append j') fuel (by omega)
    rw [readFields_cons hj before (by omega) (delimited_cons (by decide) _), hinsert, readMoreFields_comma, hrest,
      List.append_assoc, List.singleton_append]

theorem readValue_bracket {fuel : Nat} {c : Char} {cs cs' : List Char} (hskip : skipBlank cs = c :: cs')
    (hc : c ≠ ']') :
    readValue (fuel + 1) ('[' :: cs) = (readItems fuel (c :: cs')).map fun (items, rest) => (arr items, rest) := by
  rw [readValue, skipBlank_cons (by decide)]
  dsimp only
  rw [if_pos rfl, hskip]
  split
  case h_1 heq => exact absurd (List.cons.inj heq).1 hc
  case h_2 => cases readItems fuel (c :: cs') <;> rfl

theorem readValue_brace {fuel : Nat} {c : Char} {cs cs' : List Char} (hskip : skipBlank cs = c :: cs')
    (hc : c ≠ '}') :
    readValue (fuel + 1) ('{' :: cs) =
      (readFields fuel [] (c :: cs')).map fun (fields, rest) => (obj fields, rest) := by
  rw [readValue, skipBlank_cons (by decide)]
  dsimp only
  rw [if_neg (by decide), if_pos rfl, hskip]
  split
  case h_1 heq => exact absurd (List.cons.inj heq).1 hc
  case h_2 => cases readFields fuel [] (c :: cs') <;> rfl

theorem readsBack_arr {items : List Json} (hexact : (arr items).Exact)
    (h : ∀ j ∈ items, ReadsBack indent (depth + 1) j) : ReadsBack indent depth (arr items) := by
  refine readsBack_of_succ hexact fun fuel rest hfuel hrest => ?_
  cases items with
  | nil => simp [print, readValue, skipBlank, isBlank]
  | cons j items =>
    obtain ⟨hj, hitems⟩ := List.forall_mem_cons.1 h
    simp only [print, List.length_cons, List.length_append, List.cons_append, List.append_assoc, List.nil_append,
      List.length_nil] at hfuel ⊢
    have hread := readItems_print hj hitems depth rest fuel (by omega)
    obtain ⟨c, cs, hprint, hblank, hbracket, -⟩ :=
      exists_print_eq_cons (exact_arr_iff.1 hexact j List.mem_cons_self) indent (depth + 1)
    rw [hprint, List.cons_append] at hread ⊢
    rw [readValue_bracket (skipBlank_lineBreak_append hblank _ _ _) hbracket, hread]
    rfl

theorem readsBack_obj {fields : List (String × Json)} (hexact : (obj fields).Exact)
    (h : ∀ e ∈ fields, ReadsBack indent (depth + 1) e.2) : ReadsBack indent depth (obj fields) := by
  refine readsBack_of_succ hexact fun fuel rest hfuel hrest => ?_
  cases fields with
  | nil => simp [print, readValue, skipBlank, isBlank]
  | cons e fields =>
    obtain ⟨name, j⟩ := e
    obtain ⟨hj, hfields⟩ : ReadsBack indent (depth + 1) j ∧ ∀ e ∈ fields, ReadsBack indent (depth + 1) e.2 :=
      List.forall_mem_cons.1 h
    simp only [print, List.length_cons, List.length_append, List.cons_append, List.append_assoc, List.nil_append,
      List.length_nil] at hfuel ⊢
    have hread := readFields_print hj hfields [] (exact_obj_iff.1 hexact).1 depth rest fuel (by omega)
    rw [quoted_append] at hread ⊢
    rw [readValue_brace (skipBlank_lineBreak_append (by decide) _ _ _) (by decide), hread]
    rfl

/-- Every exact document is read back. -/
theorem readsBack_of_exact (h : j.Exact) (indent : Option Nat) (depth : Nat) : ReadsBack indent depth j := by
  induction j using Json.induction generalizing depth with
  | null => exact readsBack_of_succ h fun fuel rest _ _ => by simp [print, readValue, skipBlank, isBlank, afterWord?]
  | bool b =>
    refine readsBack_of_succ h fun fuel rest _ _ => ?_
    cases b <;> simp [print, readValue, skipBlank, isBlank, afterWord?]
  | int n => exact readsBack_of_succ h fun fuel rest _ hrest => readValue_integerText h hrest
  | real x => exact h.elim
  | str s =>
    refine readsBack_of_succ h fun fuel rest hfuel _ => readValue_quoted ?_ rest
    have hescaped := length_le_flatMap_escape s.toList
    simp only [print, quoted, List.length_cons, List.length_append] at hfuel
    omega
  | arr items ih => exact readsBack_arr h fun j hj => ih j hj (exact_arr_iff.1 h j hj) (depth + 1)
  | obj fields ih => exact readsBack_obj h fun e he => ih e he ((exact_obj_iff.1 h).2 e he) (depth + 1)

end Documents

/-! ## Texts -/

/-- What is dumped, with any indentation, is parsed as it was. -/
theorem parse?_dump {j : Json} (h : j.Exact) (indent : Int) : parse? (j.dump indent) = some j := by
  generalize hlayout : (if indent < 0 then none else some indent.toNat : Option Nat) = layout
  have hread : readValue (2 * (print layout 0 j).length + 2) (print layout 0 j) = some (j, []) := by
    have hnil : Delimited [] := nofun
    simpa using readsBack_of_exact h layout 0 (2 * (print layout 0 j).length + 2) [] (by omega) hnil
  have hall : readAll (print layout 0 j) = some j := by
    rw [readAll, hread]
    show (if skipBlank [] = [] then some j else none) = some j
    exact if_pos rfl
  obtain ⟨c, cs, hprint, -, -, hmark⟩ := exists_print_eq_cons h layout 0
  rw [dump, hlayout, parse?, String.toList_ofList]
  rw [hprint] at hall ⊢
  split
  case h_1 cs' heq => exact absurd (List.cons.inj heq).1 hmark
  case h_2 => exact hall

end RecordStore.Json
