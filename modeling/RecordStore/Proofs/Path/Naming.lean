import RecordStore.Path
import RecordStore.Proofs.Text.Decimal

/-!
# What segments name

An index without a leading zero is written as its value is (`toList_of_index?`), so two segments without one that differ
are different indexes and different integer keys: no container has a child that both of them name
(`namesApart_of_ne`). Putting a member where one of them names it then leaves alone what the other names
(`NamesApart.key_insert`, `NamesApart.child?_insert`). Paths of which neither extends the other come to such segments
(`diverge_of_neither_extends`).
-/

namespace RecordStore

namespace Path

variable {s t : String} {i j : Nat} {ms : Members}

/-! ## Indexes and their text -/

/-- The segment is made of digits, more than one of them, and begins with a zero. -/
def hasLeadingZero (s : String) : Bool := s.toList.head? = some '0' && 1 < s.toList.length && s.toList.all Char.isDigit

theorem index?_eq_some_iff :
    index? s = some i ↔ s ≠ "" ∧ Text.numeral? 10 s.toList = some i ∧ i < UInt64.size := by
  unfold index?
  split
  case isTrue h => simp [h]
  case isFalse h => simp [h, Option.filter_eq_some_iff]

/-- An index without a leading zero is written as its value is. -/
theorem toList_of_index? (h : index? s = some i) (hzero : hasLeadingZero s = false) :
    s.toList = Nat.toDigits 10 i := by
  obtain ⟨hne, hnumeral, -⟩ := index?_eq_some_iff.1 h
  have hall := Text.all_isDigit_of_continue? hnumeral
  unfold hasLeadingZero at hzero
  cases hcs : s.toList with
  | nil => exact absurd (String.toList_eq_nil_iff.1 hcs) hne
  | cons c cs =>
    rw [hcs] at hnumeral hall hzero
    by_cases hc : c = '0'
    · subst hc
      cases cs with
      | nil =>
        cases hnumeral
        rfl
      | cons c cs => simp [hall] at hzero
    · exact Text.toDigits_of_numeral? hc hnumeral

/-! ## Segments that name different children -/

/-- The segments differ, also as indexes. -/
def NamesApart (s t : String) : Prop := s ≠ t ∧ ∀ i, index? s = some i → index? t ≠ some i

theorem namesApart_of_ne (hne : s ≠ t) (hs : hasLeadingZero s = false) (ht : hasLeadingZero t = false) :
    NamesApart s t := by
  refine ⟨hne, fun i hsi hti => hne ?_⟩
  exact String.toList_inj.1 ((toList_of_index? hsi hs).trans (toList_of_index? hti ht).symm)

theorem NamesApart.symm (h : NamesApart s t) : NamesApart t s := ⟨h.1.symm, fun i ht hs => h.2 i hs ht⟩

/-- A segment names a string key, or an integer key that is there. -/
theorem key_cases (ms : Members) (s : String) : key ms s = .str s ∨
    ∃ i, index? s = some i ∧ key ms s = .int (.ofNat i) ∧ Entries.contains (.int (.ofNat i)) ms = true := by
  unfold key
  split
  · exact .inl rfl
  · split
    case h_1 i hi =>
      split
      case isTrue h => exact .inr ⟨i, hi, rfl, h⟩
      case isFalse => exact .inl rfl
    case h_2 => exact .inl rfl

/-- The string key of one text is not named by a segment of another text. -/
theorem key_ne_of_ne (hne : s ≠ t) (ms : Members) : key ms s ≠ .str t := by
  intro heq
  obtain hs | ⟨i, -, hs, -⟩ := key_cases ms s
  · exact hne (Key.str.inj (hs.symm.trans heq))
  · cases hs.symm.trans heq

/-- Only the text of the segment and the index that it writes are looked for. -/
theorem key_congr {ns : Members} (hstr : Entries.contains (.str s) ms = Entries.contains (.str s) ns)
    (hint : ∀ i, index? s = some i →
      Entries.contains (.int (.ofNat i)) ms = Entries.contains (.int (.ofNat i)) ns) : key ms s = key ns s := by
  unfold key
  rw [hstr]
  cases hi : index? s with
  | none => rfl
  | some i => simp only [hint i hi]

theorem eq_of_int_ofNat_eq (hi : i < UInt64.size) (hj : j < UInt64.size) (h : Key.int (.ofNat i) = .int (.ofNat j)) :
    i = j := by
  have h : i % UInt64.size = j % UInt64.size := congrArg (fun k : Int64 => k.toBitVec.toNat) (Key.int.inj h)
  rwa [Nat.mod_eq_of_lt hi, Nat.mod_eq_of_lt hj] at h

namespace NamesApart

variable (h : NamesApart s t)

include h

theorem index_ne (hs : index? s = some i) (ht : index? t = some j) : j ≠ i := by
  rintro rfl
  exact h.2 j hs ht

/-- A segment does not write the integer key that the other one names. -/
theorem int_ne_key (ms : Members) (ht : index? t = some j) : Key.int (.ofNat j) ≠ key ms s := by
  intro heq
  obtain hs | ⟨i, hi, hs, -⟩ := key_cases ms s
  · cases heq.trans hs
  · have hij := eq_of_int_ofNat_eq (index?_eq_some_iff.1 ht).2.2 (index?_eq_some_iff.1 hi).2.2 (heq.trans hs)
    exact h.index_ne hi ht hij

theorem key_ne (ms : Members) : key ms t ≠ key ms s := by
  obtain ht | ⟨j, hj, ht, -⟩ := key_cases ms t
  · rw [ht]
    exact (key_ne_of_ne h.1 ms).symm
  · rw [ht]
    exact h.int_ne_key ms hj

/-- What one segment names is not changed by a member where the other one names it. -/
theorem key_insert (ms : Members) (v : Value) : key (Entries.insert (key ms s) v ms) t = key ms t := by
  refine key_congr ?_ fun j hj => ?_
  · rw [Entries.contains_insert, decide_eq_false (key_ne_of_ne h.1 ms).symm, Bool.false_or]
  · rw [Entries.contains_insert, decide_eq_false (h.int_ne_key ms hj), Bool.false_or]

theorem child?_insert (ms : Members) (v : Value) :
    child? (Entries.insert (key ms s) v ms) t = child? ms t := by
  rw [child?, h.key_insert, Entries.find?_insert, if_neg (h.key_ne ms)]
  rfl

end NamesApart

/-! ## Paths that part -/

/-- After what they have in common, the paths go on with segments that name different children. -/
def Diverge : List String → List String → Prop
  | s :: p, t :: q => NamesApart s t ∨ s = t ∧ Diverge p q
  | _, _ => False

/-- Paths of which neither extends the other diverge, if no index in them has a leading zero. -/
theorem diverge_of_neither_extends {p q : List String} (hpq : ¬ p <+: q) (hqp : ¬ q <+: p)
    (hzero : ∀ s ∈ p ++ q, hasLeadingZero s = false) : Diverge p q := by
  induction p generalizing q with
  | nil => exact absurd List.nil_prefix hpq
  | cons s p ih =>
    cases q with
    | nil => exact absurd List.nil_prefix hqp
    | cons t q =>
      obtain ⟨hp, hq⟩ := List.forall_mem_append.1 hzero
      obtain ⟨hs, hp⟩ := List.forall_mem_cons.1 hp
      obtain ⟨ht, hq⟩ := List.forall_mem_cons.1 hq
      by_cases hst : s = t
      · subst hst
        rw [List.cons_prefix_cons, not_and] at hpq hqp
        exact .inr ⟨rfl, ih (hpq rfl) (hqp rfl) (List.forall_mem_append.2 ⟨hp, (List.forall_mem_cons.1 hq).2⟩)⟩
      · exact .inl (namesApart_of_ne hst hs ht)

end Path

end RecordStore
