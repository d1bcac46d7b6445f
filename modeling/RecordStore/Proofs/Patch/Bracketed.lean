import RecordStore.Proofs.Patch.AtOnce
import RecordStore.Proofs.Text.Decimal

/-!
# Indexes in brackets

An index is an integer of 64 bits in decimal, with one sign at most (`Writes`); but a plus sign may also stand before a
minus sign (`WritesTwoSigns`), since it is taken off before the number is read (`index?_eq_some_iff`). A key with any
other text in brackets cannot be read (`ofKey_bracketed_eq_error`). The first directive that cannot be read or queued
ends the planning of an array edit (`ofTasks_append_cons`), so a node with such a key fails on every document and
changes nothing (`exists_error_of_ofKey`). Together, what brackets hold is read as an integer with one sign at most, but
for texts with two (`bracketed_text_read_iff`).
-/

namespace RecordStore.Patch

/-! ## Notations of indexes -/

/-- Decimal digits, at least one, that are worth the number. -/
def IsNumeral (ds : List Char) (n : Nat) : Prop := ds ≠ [] ∧ (∀ c ∈ ds, c.isDigit = true) ∧ Text.worth 10 ds = n

/-- The integer is written with one sign at most. -/
inductive Writes : List Char → Int → Prop
  | unsigned {ds : List Char} {n : Nat} : IsNumeral ds n → Writes ds n
  | plus {ds : List Char} {n : Nat} : IsNumeral ds n → Writes ('+' :: ds) n
  | minus {ds : List Char} {n : Nat} : IsNumeral ds n → Writes ('-' :: ds) (-n)

/-- The integer is written with a plus sign and a minus sign. -/
inductive WritesTwoSigns : List Char → Int → Prop
  | mk {ds : List Char} {n : Nat} : IsNumeral ds n → WritesTwoSigns ('+' :: '-' :: ds) (-n)

section Notations

variable {cs ds : List Char} {c : Char} {n : Nat} {i : Int} {negative : Bool}

theorem IsNumeral.ne_sign (h : IsNumeral (c :: ds) n) : c ≠ '+' ∧ c ≠ '-' := by
  have hc := h.2.1 c List.mem_cons_self
  constructor <;> (rintro rfl; cases hc)

/-- The integer of a sign and digits. -/
def signed? (negative : Bool) (ds : List Char) : Option Int :=
  if ds = [] then none
  else
    (Text.numeral? 10 ds).bind fun n =>
      let i := if negative then -(n : Int) else n
      if IsInt64 i then some i else none

theorem signed?_eq_some_iff :
    signed? negative ds = some i ↔ IsInt64 i ∧ ∃ n, IsNumeral ds n ∧ (if negative then -(n : Int) else n) = i := by
  unfold signed? IsNumeral
  split
  case isTrue hnil => simp [hnil]
  case isFalse hne =>
    simp only [Option.bind_eq_some_iff, Text.numeral?_ten_eq_some_iff, Option.ite_none_right_eq_some, Option.some_inj]
    constructor
    · rintro ⟨n, hn, hint, rfl⟩
      exact ⟨hint, n, ⟨hne, hn⟩, rfl⟩
    · rintro ⟨hint, n, ⟨-, hn⟩, rfl⟩
      exact ⟨n, hn, hint, rfl⟩

theorem index?_minus (ds : List Char) : index? ('-' :: ds) = signed? true ds := rfl

theorem index?_plus_minus (ds : List Char) : index? ('+' :: '-' :: ds) = signed? true ds := rfl

theorem index?_plus (hminus : c ≠ '-') : index? ('+' :: c :: ds) = signed? false (c :: ds) := by
  simp [index?, signed?, hminus]

theorem index?_unsigned (hplus : c ≠ '+') (hminus : c ≠ '-') : index? (c :: ds) = signed? false (c :: ds) := by
  simp [index?, signed?, hplus, hminus]

/-- An index is read from the integers of 64 bits that are written with one sign at most, and from those that have a
plus sign before the minus sign. -/
theorem index?_eq_some_iff : index? cs = some i ↔ IsInt64 i ∧ (Writes cs i ∨ WritesTwoSigns cs i) := by
  constructor
  · intro h
    -- a plus sign is taken off first, and then a minus sign, whatever came before it
    cases cs with
    | nil => cases h
    | cons c ds =>
      by_cases hplus : c = '+'
      · subst hplus
        cases ds with
        | nil => cases h
        | cons c ds =>
          by_cases hminus : c = '-'
          · subst hminus
            rw [index?_plus_minus] at h
            obtain ⟨hint, n, hn, rfl⟩ := signed?_eq_some_iff.1 h
            exact ⟨hint, .inr (.mk hn)⟩
          · rw [index?_plus hminus] at h
            obtain ⟨hint, n, hn, rfl⟩ := signed?_eq_some_iff.1 h
            exact ⟨hint, .inl (.plus hn)⟩
      · by_cases hminus : c = '-'
        · subst hminus
          rw [index?_minus] at h
          obtain ⟨hint, n, hn, rfl⟩ := signed?_eq_some_iff.1 h
          exact ⟨hint, .inl (.minus hn)⟩
        · rw [index?_unsigned hplus hminus] at h
          obtain ⟨hint, n, hn, rfl⟩ := signed?_eq_some_iff.1 h
          exact ⟨hint, .inl (.unsigned hn)⟩
  · rintro ⟨hint, h | h⟩
    · cases h with
      | unsigned hn =>
        obtain ⟨c, ds, rfl⟩ := List.exists_cons_of_ne_nil hn.1
        rw [index?_unsigned hn.ne_sign.1 hn.ne_sign.2]
        exact signed?_eq_some_iff.2 ⟨hint, _, hn, rfl⟩
      | @plus ds _ hn =>
        obtain ⟨c, ds, rfl⟩ := List.exists_cons_of_ne_nil hn.1
        rw [index?_plus hn.ne_sign.2]
        exact signed?_eq_some_iff.2 ⟨hint, _, hn, rfl⟩
      | minus hn =>
        rw [index?_minus]
        exact signed?_eq_some_iff.2 ⟨hint, _, hn, rfl⟩
    · cases h with
      | mk hn =>
        rw [index?_plus_minus]
        exact signed?_eq_some_iff.2 ⟨hint, _, hn, rfl⟩

example : index? ['+', '0', '7'] = some 7 ∧ index? ['-', '+', '7'] = none := by decide

/-- A text is written in one of the two ways only. -/
theorem Writes.not_twoSigns {j : Int} (h : Writes cs i) : ¬ WritesTwoSigns cs j := by
  rintro ⟨-⟩
  cases h with
  | unsigned hn => exact hn.ne_sign.1 rfl
  | plus hn => exact hn.ne_sign.2 rfl

end Notations

/-! ## Bracketed keys -/

/-- The key with the text in brackets, to edit an element or to insert one. -/
def bracketed (inserts : Bool) (text : String) : String := (if inserts then "$+[" else "$[") ++ text ++ "]"

/-- The directive for an index. -/
def Directive.atIndex (inserts : Bool) (i : Int) : Directive := if inserts then .insert i else .edit i

/-- What is wrong with a bracketed key whose text is no index. -/
def bracketedCause (inserts : Bool) (value : Value) : Cause :=
  if inserts && value.isNull then .nullInsertion else .badIndex

section Keys

variable {inserts : Bool} {text : String} {value : Value} {i : Int}

theorem bracketed?_append (cs : List Char) : bracketed? ('[' :: (cs ++ [']'])) = some cs := by
  rw [bracketed?, List.getLast?_concat, if_pos rfl, List.dropLast_concat]

theorem toList_bracketed : (bracketed inserts text).toList =
    '$' :: ((if inserts then ['+'] else []) ++ '[' :: (text.toList ++ [']'])) := by
  cases inserts <;> simp [bracketed, String.toList_append]

theorem ofAddress_bracketed (cs : List Char) : Directive.ofAddress inserts ('[' :: (cs ++ [']'])) =
    match index? cs with
    | some i => .ok (.atIndex inserts i)
    | none => .error .badIndex := by
  rw [Directive.ofAddress, bracketed?_append]
  rfl

theorem ofKey_bracketed (text : String) (h : (inserts && value.isNull) = false) :
    Directive.ofKey (.str (bracketed inserts text)) value =
      Directive.ofAddress inserts ('[' :: (text.toList ++ [']'])) := by
  rw [Directive.ofKey, toList_bracketed]
  cases inserts with
  | true => exact if_neg (Bool.eq_false_iff.1 h)
  | false => rfl

theorem ofKey_bracketed_eq_ok_iff (h : (inserts && value.isNull) = false) :
    Directive.ofKey (.str (bracketed inserts text)) value = .ok (.atIndex inserts i) ↔ index? text.toList = some i := by
  rw [ofKey_bracketed text h, ofAddress_bracketed]
  cases index? text.toList with
  | none => simp
  | some j => cases inserts <;> simp [Directive.atIndex]

theorem ofKey_bracketed_eq_error (h : index? text.toList = none) :
    Directive.ofKey (.str (bracketed inserts text)) value = .error (bracketedCause inserts value) := by
  cases hnull : inserts && value.isNull with
  | false =>
    rw [ofKey_bracketed text hnull, ofAddress_bracketed, h, bracketedCause, hnull]
    rfl
  | true =>
    obtain ⟨rfl, hvalue⟩ := (Bool.and_eq_true _ _).mp hnull
    rw [bracketedCause, hnull, Directive.ofKey, toList_bracketed]
    exact if_pos hvalue

theorem isDirective_bracketed (inserts : Bool) (text : String) :
    isDirective (.str (bracketed inserts text)) = true := by
  rw [isDirective, toList_bracketed]
  rfl

end Keys

/-! ## The first bad directive -/

section Planning

variable {items : List Value} {plan : Plan} {task : Task} {before after tasks : List Task} {cause : Cause} {e : Error}

theorem add_eq_error (h : Directive.ofKey task.key task.value = .error cause) :
    Plan.add items plan task = .error cause := by
  rw [Plan.add, h]
  rfl

/-- A directive that cannot be read is reported at its key, unless one before it is reported. -/
theorem ofTasks_append_cons (h : Directive.ofKey task.key task.value = .error cause) :
    Plan.ofTasks items plan (before ++ task :: after) =
      (Plan.ofTasks items plan before).bind fun _ => .error ⟨[task.key.text], cause⟩ := by
  induction before generalizing plan with
  | nil =>
    simp only [List.nil_append, Plan.ofTasks, add_eq_error h]
    rfl
  | cons t before ih =>
    rw [List.cons_append, Plan.ofTasks, Plan.ofTasks]
    cases Plan.add items plan t with
    | ok plan => exact ih
    | error cause => rfl

/-- Whatever is wrong with directives is reported at the key of one of them. -/
theorem exists_place_eq (h : Plan.ofTasks items plan tasks = .error e) : ∃ t ∈ tasks, e.place = [t.key.text] := by
  induction tasks generalizing plan with
  | nil => cases h
  | cons t tasks ih =>
    rw [Plan.ofTasks] at h
    cases hadd : Plan.add items plan t with
    | ok plan =>
      rw [hadd] at h
      obtain ⟨t', ht', hplace⟩ := ih h
      exact ⟨t', List.mem_cons_of_mem _ ht', hplace⟩
    | error cause =>
      rw [hadd] at h
      cases h
      exact ⟨t, List.mem_cons_self, rfl⟩

end Planning

/-! ## Nodes -/

/-- How an array edit fails at a key: a directive of the members before it is reported, or else the key itself. -/
inductive FailsAt (items : List Value) (before : Members) (key : String) (cause : Cause) : Error → Prop
  | earlier {e : Error} {entry : Key × Value} : Plan.ofTasks items .empty (tasks before) = .error e → entry ∈ before →
      e.place = [entry.1.text] → FailsAt items before key cause e
  | here {plan : Plan} : Plan.ofTasks items .empty (tasks before) = .ok plan →
      FailsAt items before key cause ⟨[key], cause⟩

section Nodes

variable {key : String} {value : Value} {cause : Cause} (hkey : Directive.ofKey (.str key) value = .error cause)
  (before after : Members)

include hkey

theorem editArray_eq_error (items : List Value) :
    ∃ e, editArray (tasks (before ++ (.str key, value) :: after)) items = .error e items ∧
      FailsAt items before key cause e := by
  have hplan : Plan.ofTasks items .empty (tasks before ++ ⟨.str key, value, merge value⟩ :: tasks after) =
      (Plan.ofTasks items .empty (tasks before)).bind fun _ => .error ⟨[key], cause⟩ := ofTasks_append_cons hkey
  have htasks : tasks (before ++ (.str key, value) :: after) =
      tasks before ++ ⟨.str key, value, merge value⟩ :: tasks after := by
    rw [tasks_eq_map, tasks_eq_map, tasks_eq_map, List.map_append, List.map_cons]
  unfold editArray
  rw [htasks, hplan]
  cases hbefore : Plan.ofTasks items .empty (tasks before) with
  | ok plan => exact ⟨_, rfl, .here hbefore⟩
  | error e =>
    obtain ⟨t, ht, hplace⟩ := exists_place_eq hbefore
    rw [tasks_eq_map] at ht
    obtain ⟨entry, hentry, rfl⟩ := List.mem_map.1 ht
    exact ⟨e, rfl, .earlier hbefore hentry hplace⟩

/-- A node with a bad directive fails on every document and leaves it as it is. -/
theorem exists_error_of_ofKey (hdirective : isDirective (.str key) = true) (v : Value) :
    let patch : Members := before ++ (.str key, value) :: after
    ∃ e, merge (.map patch) v = .error e v ∧ apply (.map patch) v = .error e v ∧
      (kind patch = .arrayEdit → ∀ items, v = .arr items → FailsAt items before key cause e) := by
  intro patch
  -- only a plain patch is treated otherwise at the root than inside
  have hplain : kind patch ≠ .plain := by
    intro h
    have hnone := kind_eq_plain_iff.1 h (.str key, value) (by simp [patch])
    cases hnone.symm.trans hdirective
  have happly : apply (.map patch) v = merge (.map patch) v := by rw [apply, if_neg hplain]
  rw [happly]
  suffices h : ∃ e, merge (.map patch) v = .error e v ∧
      (kind patch = .arrayEdit → ∀ items, v = .arr items → FailsAt items before key cause e) by
    obtain ⟨e, hmerge, hat⟩ := h
    exact ⟨e, hmerge, hmerge, hat⟩
  unfold merge
  cases hkind : kind patch with
  | plain => exact absurd hkind hplain
  | mixed =>
    refine ⟨_, rfl, ?_⟩
    rintro ⟨⟩
  | arrayEdit =>
    cases v with
    | arr items =>
      obtain ⟨e, hedit, hat⟩ := editArray_eq_error hkey before after items
      refine ⟨e, ?_, ?_⟩
      · dsimp only
        rw [hedit]
        rfl
      · rintro - _ ⟨⟩
        exact hat
    | _ =>
      refine ⟨_, rfl, ?_⟩
      rintro - _ ⟨⟩

end Nodes

/-! ## Which texts are indexes -/

/-- Bracketed text is read by the given notation of integers: it is an index just if it spells an integer of 64 bits,
and then that one; and a node with a key of any other text fails. -/
structure ReadBy (Spells : List Char → Int → Prop) (text : String) : Prop where
  accepts : ∀ (inserts : Bool) (value : Value) (i : Int), (inserts && value.isNull) = false →
    (Directive.ofKey (.str (bracketed inserts text)) value = .ok (.atIndex inserts i) ↔
      IsInt64 i ∧ Spells text.toList i)
  refuses : (∀ i, IsInt64 i → ¬ Spells text.toList i) →
    ∀ (inserts : Bool) (value : Value) (before after : Members) (v : Value),
      let patch : Members := before ++ (.str (bracketed inserts text), value) :: after
      ∃ e, merge (.map patch) v = .error e v ∧ apply (.map patch) v = .error e v ∧
        (kind patch = .arrayEdit → ∀ items, v = .arr items →
          FailsAt items before (bracketed inserts text) (bracketedCause inserts value) e)

section Texts

variable {text : String}

theorem readBy_of_index? {Spells : List Char → Int → Prop}
    (h : ∀ i, index? text.toList = some i ↔ IsInt64 i ∧ Spells text.toList i) : ReadBy Spells text where
  accepts inserts value i hvalue := (ofKey_bracketed_eq_ok_iff hvalue).trans (h i)
  refuses hnone inserts value before after v := by
    have hindex : index? text.toList = none :=
      Option.eq_none_iff_forall_ne_some.2 fun i hi => hnone i ((h i).1 hi).1 ((h i).1 hi).2
    exact exists_error_of_ofKey (ofKey_bracketed_eq_error hindex) before after (isDirective_bracketed inserts text) v

/-- Text in brackets is read as an integer with one sign at most, unless it has a plus sign before a minus sign and
digits of an integer of 64 bits: that is read too. Where there is no integer the message says so. -/
theorem bracketed_text_read_iff (text : String) :
    ReadBy (fun cs i => Writes cs i ∨ WritesTwoSigns cs i) text ∧
      (ReadBy Writes text ↔ ¬ ∃ i, IsInt64 i ∧ WritesTwoSigns text.toList i) ∧
      ∀ inserts, (Error.mk [bracketed inserts text] .badIndex).message =
        "Wrong format at '" ++ bracketed inserts text ++ "'. Expecting integer index inside brackets" := by
  refine ⟨readBy_of_index? fun i => index?_eq_some_iff, ⟨?_, fun h => ?_⟩, fun inserts => ?_⟩
  · rintro hread ⟨i, hint, htwo⟩
    have hok : Directive.ofKey (.str (bracketed false text)) .null = .ok (.atIndex false i) :=
      (ofKey_bracketed_eq_ok_iff rfl).2 (index?_eq_some_iff.2 ⟨hint, .inr htwo⟩)
    exact ((hread.accepts false .null i rfl).1 hok).2.not_twoSigns htwo
  · refine readBy_of_index? fun i => ?_
    rw [index?_eq_some_iff]
    exact and_congr_right fun hint => or_iff_left fun htwo => h ⟨i, hint, htwo⟩
  · rw [Error.message, String.intercalate_singleton]

/-- A plus sign before a minus sign: the last element is edited, though the text has two signs. -/
theorem not_readBy_one_sign :
    ¬ ReadBy Writes "+-1" ∧ apply (.map [(.str "$[+-1]", .int 30)]) (.arr [.int 1, .int 2, .int 3]) =
      .ok () (.arr [.int 1, .int 2, .int 30]) := by
  refine ⟨fun hread => ?_, rfl⟩
  have hwrites : Writes ['+', '-', '1'] (-1) := ((hread.accepts false (.int 30) (-1) rfl).1 rfl).2
  cases hwrites

end Texts

end RecordStore.Patch
