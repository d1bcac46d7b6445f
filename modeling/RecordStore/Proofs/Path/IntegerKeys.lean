import RecordStore.Proofs.Path.Naming

/-!
# Integer keys by their text

A segment is meant to name the integer key whose decimal text it is. It is read as an index for that, and an index as a
64-bit word, so the two agree where the text of the key is an index and the only index of its word: a negative key has a
sign in its text, which no index has, and is named by the index of its word instead; and an index may have leading
zeros, which the text of a key has not (`names_iff_spells_iff`). Keys of a map apart from these, look-ups by segment
find the member that is spelled (`finds_spelled_iff`).
-/

namespace RecordStore.Path

variable {s : String} {i : Int64} {n : Nat} {k : Key} {v : Value} {ms : Members}

/-- The segment spells a key of the map: the string key of that text or else, in want of it, the integer key whose
decimal text it is. -/
def Spells (ms : Members) (s : String) (k : Key) : Prop :=
  Entries.contains k ms = true ∧ (k = .str s ∨ Entries.contains (.str s) ms = false ∧ ∃ i, k = .int i ∧ k.text = s)

/-- The segment is the text of the integer key and no index, as that is negative; or it is an index of its word and not
its text, as it has a leading zero or is worth too much for a key. -/
def Misreads (s : String) (i : Int64) : Prop :=
  i < 0 ∧ (Key.int i).text = s ∨
    ∃ n, index? s = some n ∧ Int64.ofNat n = i ∧ (hasLeadingZero s = true ∨ ¬ IsInt64 n)

/-! ## Texts and indexes -/

/-- The text of a number is an index, without a leading zero. -/
theorem index?_repr (h : n < UInt64.size) : index? n.repr = some n ∧ hasLeadingZero n.repr = false := by
  have hlist : n.repr.toList = Nat.toDigits 10 n := Nat.toList_repr
  constructor
  · refine index?_eq_some_iff.2 ⟨fun hempty => ?_, ?_, h⟩
    · rw [hempty] at hlist
      exact Nat.toDigits_ne_nil hlist.symm
    · rw [hlist, Text.numeral?_toDigits]
  · unfold hasLeadingZero
    rw [hlist]
    rcases Nat.eq_zero_or_pos n with rfl | hpos
    · rfl
    · rw [decide_eq_false (Text.head?_toDigits hpos), Bool.false_and, Bool.false_and]

theorem eq_repr_of_index? (h : index? s = some n) (hzero : hasLeadingZero s = false) : s = n.repr :=
  String.toList_inj.1 ((toList_of_index? h hzero).trans Nat.toList_repr.symm)

theorem lt_of_isInt64 (h : IsInt64 n) : n < 9223372036854775808 := by
  have := h.2
  omega

theorem exists_ofNat_eq (h : 0 ≤ i) : ∃ n : Nat, IsInt64 n ∧ Int64.ofNat n = i := by
  have hnonneg : 0 ≤ i.toInt := Int64.le_iff_toInt_le.1 h
  obtain ⟨n, hn⟩ := Int.eq_ofNat_of_zero_le hnonneg
  refine ⟨n, ?_, ?_⟩
  · rw [← hn]
    exact ⟨i.le_toInt, Int.le_of_lt_add_one i.toInt_lt⟩
  · rw [← Int64.ofInt_eq_ofNat, ← hn, Int64.ofInt_toInt]

theorem text_ofNat (h : IsInt64 n) : (Key.int (.ofNat n)).text = n.repr := by
  rw [Key.text, Int64.toInt_ofNat_of_lt (lt_of_isInt64 h)]
  rfl

/-- A sign is no digit. -/
theorem index?_text_of_neg (h : i < 0) : index? (Key.int i).text = none := by
  have hneg : i.toInt < 0 := Int64.lt_iff_toInt_lt.1 h
  obtain ⟨n, hn⟩ := Int.eq_negSucc_of_lt_zero hneg
  have htext : (Key.int i).text = "-" ++ (n + 1).repr := by
    rw [Key.text, hn]
    rfl
  have hlist : (Key.int i).text.toList = '-' :: (n + 1).repr.toList := by
    rw [htext, String.toList_append]
    rfl
  cases hindex : index? (Key.int i).text with
  | none => rfl
  | some m =>
    have hdigits := Text.all_isDigit_of_continue? (index?_eq_some_iff.1 hindex).2.1
    rw [hlist] at hdigits
    cases hdigits

/-- The text of a key that is not negative is an index worth that key. -/
theorem exists_index?_of_text (htext : (Key.int i).text = s) (h : 0 ≤ i) :
    ∃ n, index? s = some n ∧ Int64.ofNat n = i ∧ hasLeadingZero s = false ∧ IsInt64 n := by
  obtain ⟨n, hn, rfl⟩ := exists_ofNat_eq h
  rw [text_ofNat hn] at htext
  subst htext
  obtain ⟨hindex, hzero⟩ := index?_repr (Nat.lt_trans (lt_of_isInt64 hn) (by decide))
  exact ⟨n, hindex, rfl, hzero, hn⟩

/-- If the text of a key is an index at all, it is worth that key. -/
theorem of_text_of_index? (htext : (Key.int i).text = s) (hindex : index? s = some n) :
    Int64.ofNat n = i ∧ hasLeadingZero s = false ∧ IsInt64 n := by
  have hnonneg : 0 ≤ i := by
    refine Int64.not_lt.1 fun hneg => ?_
    rw [← htext, index?_text_of_neg hneg] at hindex
    cases hindex
  obtain ⟨m, hindex', hm⟩ := exists_index?_of_text htext hnonneg
  cases hindex.symm.trans hindex'
  exact hm

/-- The segment is an index worth the key. -/
def Names (s : String) (i : Int64) : Prop := ∃ n, index? s = some n ∧ Int64.ofNat n = i

/-- A segment is an index worth a key just when it is the text of the key, unless it misreads the key. -/
theorem names_iff_spells_iff : (Names s i ↔ (Key.int i).text = s) ↔ ¬ Misreads s i := by
  constructor
  · rintro h (⟨hneg, htext⟩ | ⟨n, hindex, hword, hother⟩)
    · obtain ⟨n, hindex, -⟩ := h.2 htext
      rw [← htext, index?_text_of_neg hneg] at hindex
      cases hindex
    · obtain ⟨-, hzero, hint⟩ := of_text_of_index? (h.1 ⟨n, hindex, hword⟩) hindex
      rcases hother with hother | hother
      · cases hzero.symm.trans hother
      · exact hother hint
  · intro hreads
    constructor
    · rintro ⟨n, hindex, rfl⟩
      have hzero : hasLeadingZero s = false := by
        rw [← Bool.not_eq_true]
        exact fun hzero => hreads (.inr ⟨n, hindex, rfl, .inl hzero⟩)
      have hint : IsInt64 n := Classical.byContradiction fun hint => hreads (.inr ⟨n, hindex, rfl, .inr hint⟩)
      rw [text_ofNat hint, eq_repr_of_index? hindex hzero]
    · intro htext
      have hnonneg : 0 ≤ i := Int64.not_lt.1 fun hneg => hreads (.inl ⟨hneg, htext⟩)
      obtain ⟨n, hindex, hword, -⟩ := exists_index?_of_text htext hnonneg
      exact ⟨n, hindex, hword⟩

/-! ## Look-ups -/

theorem contains_iff {k : Key} : Entries.contains k ms = true ↔ ∃ v, Entries.find? k ms = some v := by
  rw [Entries.contains, Option.isSome_iff_exists]

theorem key_of_contains (h : Entries.contains (.str s) ms = true) : key ms s = .str s := by
  rw [key, if_pos h]

section NoStringKey

variable (hstr : Entries.contains (.str s) ms = false)

include hstr

theorem key_of_names (hint : Entries.contains (.int i) ms = true) (h : Names s i) : key ms s = .int i := by
  obtain ⟨n, hindex, rfl⟩ := h
  rw [key, hstr, if_neg Bool.false_ne_true, hindex]
  exact if_pos hint

/-- Without its string key in the map, a segment that finds a key is an index worth it. -/
theorem exists_names_of_contains (h : Entries.contains (key ms s) ms = true) : ∃ i, key ms s = .int i ∧ Names s i := by
  obtain hkey | ⟨n, hindex, hkey, -⟩ := key_cases ms s
  · rw [hkey, hstr] at h
    cases h
  · exact ⟨_, hkey, n, hindex, rfl⟩

theorem spells_int_iff : Spells ms s (.int i) ↔ Entries.contains (.int i) ms = true ∧ (Key.int i).text = s := by
  refine and_congr_right fun _ => ⟨?_, fun h => .inr ⟨hstr, i, rfl, h⟩⟩
  rintro (h | ⟨-, -, -, h⟩)
  · cases h
  · exact h

theorem exists_int_of_spells (h : Spells ms s k) : ∃ i, k = .int i := by
  obtain ⟨hk, rfl | ⟨-, i, rfl, -⟩⟩ := h
  · cases hstr.symm.trans hk
  · exact ⟨i, rfl⟩

/-- Where the key that the segment names is the one that it spells, it misreads no integer key. -/
theorem not_misreads_of_key_iff (h : ∀ k, Entries.contains k ms = true ∧ key ms s = k ↔ Spells ms s k)
    (hi : Entries.contains (.int i) ms = true) : ¬ Misreads s i := by
  refine names_iff_spells_iff.1 ⟨fun hnames => ?_, fun htext => ?_⟩
  · exact ((spells_int_iff hstr).1 ((h _).1 ⟨hi, key_of_names hstr hi hnames⟩)).2
  · obtain ⟨hfound, hkey⟩ := (h (.int i)).2 ((spells_int_iff hstr).2 ⟨hi, htext⟩)
    obtain ⟨j, hkey', hnames⟩ := exists_names_of_contains hstr (hkey ▸ hfound)
    cases hkey.symm.trans hkey'
    exact hnames

/-- Members may be equal, so the member found need not be that of the key spelled; but an index that is the text of a
key is worth that key. -/
theorem not_misreads_of_child?_iff (h : ∀ v, child? ms s = some v ↔ ∃ k, Spells ms s k ∧ Entries.find? k ms = some v)
    (hi : Entries.contains (.int i) ms = true) : ¬ Misreads s i := by
  obtain ⟨v, hv⟩ := contains_iff.1 hi
  refine names_iff_spells_iff.1 ⟨?_, fun htext => ?_⟩
  · rintro ⟨n, hindex, rfl⟩
    have hchild : child? ms s = some v := by rw [child?, key_of_names hstr hi ⟨n, hindex, rfl⟩, hv]
    obtain ⟨k, hspells, -⟩ := (h v).1 hchild
    obtain ⟨j, rfl⟩ := exists_int_of_spells hstr hspells
    obtain ⟨-, htext⟩ := (spells_int_iff hstr).1 hspells
    rw [(of_text_of_index? htext hindex).1, htext]
  · have hchild : child? ms s = some v := (h v).2 ⟨_, (spells_int_iff hstr).2 ⟨hi, htext⟩, hv⟩
    obtain ⟨-, -, n, hindex, -⟩ := exists_names_of_contains hstr (contains_iff.2 ⟨v, hchild⟩)
    exact ⟨n, hindex, (of_text_of_index? htext hindex).1⟩

end NoStringKey

/-- Looking up the key that a segment names finds what the segment spells, if the segment misreads no key of the map or
spells a string key. -/
theorem key_eq_iff_spells (h : Entries.contains (.str s) ms = true ∨
    ∀ i, Entries.contains (.int i) ms = true → ¬ Misreads s i) (k : Key) :
    Entries.contains k ms = true ∧ key ms s = k ↔ Spells ms s k := by
  cases hstr : Entries.contains (.str s) ms with
  | true =>
    rw [key_of_contains hstr]
    constructor
    · rintro ⟨hk, rfl⟩
      exact ⟨hk, .inl rfl⟩
    · rintro ⟨hk, rfl | ⟨hno, -⟩⟩
      · exact ⟨hk, rfl⟩
      · cases hstr.symm.trans hno
  | false =>
    have hreads : ∀ i, Entries.contains (.int i) ms = true → (Names s i ↔ (Key.int i).text = s) := fun i hi =>
      names_iff_spells_iff.2 (h.resolve_left (by simp [hstr]) i hi)
    constructor
    · rintro ⟨hk, rfl⟩
      obtain ⟨i, hkey, hnames⟩ := exists_names_of_contains hstr hk
      rw [hkey] at hk ⊢
      exact (spells_int_iff hstr).2 ⟨hk, (hreads i hk).1 hnames⟩
    · intro hspells
      obtain ⟨i, rfl⟩ := exists_int_of_spells hstr hspells
      obtain ⟨hk, htext⟩ := (spells_int_iff hstr).1 hspells
      exact ⟨hk, key_of_names hstr hk ((hreads i hk).2 htext)⟩

/-- A look-up by segment, be it for the key of a member or for the member itself, finds what the segment spells, just
where the segment spells a string key of the map or misreads no integer key of it. -/
theorem finds_spelled_iff (ms : Members) (s : String) :
    ((∀ k, Entries.contains k ms = true ∧ key ms s = k ↔ Spells ms s k) ↔
      Entries.contains (.str s) ms = true ∨ ∀ i, Entries.contains (.int i) ms = true → ¬ Misreads s i) ∧
    ((∀ v, child? ms s = some v ↔ ∃ k, Spells ms s k ∧ Entries.find? k ms = some v) ↔
      Entries.contains (.str s) ms = true ∨ ∀ i, Entries.contains (.int i) ms = true → ¬ Misreads s i) := by
  refine ⟨⟨fun h => ?_, key_eq_iff_spells⟩, fun h => ?_, fun h v => ?_⟩
  · cases hstr : Entries.contains (.str s) ms with
    | true => exact .inl rfl
    | false => exact .inr fun i => not_misreads_of_key_iff hstr h
  · cases hstr : Entries.contains (.str s) ms with
    | true => exact .inl rfl
    | false => exact .inr fun i => not_misreads_of_child?_iff hstr h
  · constructor
    · intro hv
      exact ⟨_, (key_eq_iff_spells h _).1 ⟨contains_iff.2 ⟨v, hv⟩, rfl⟩, hv⟩
    · rintro ⟨k, hspells, hv⟩
      rw [child?, ((key_eq_iff_spells h k).2 hspells).2, hv]

/-- The key -5 is not found by its text but by the index of its word; and the key 7 is found by an index with a leading
zero, which is not its text. -/
theorem not_finds_spelled :
    let minus : Members := [(.int (-5), .bool true)]
    let seven : Members := [(.int 7, .bool true)]
    (Spells minus "-5" (.int (-5)) ∧ key minus "-5" = .str "-5" ∧ child? minus "-5" = none) ∧
      (¬ Spells minus "18446744073709551611" (.int (-5)) ∧ key minus "18446744073709551611" = .int (-5) ∧
        child? minus "18446744073709551611" = some (.bool true)) ∧
      ¬ Spells seven "07" (.int 7) ∧ key seven "07" = .int 7 ∧ child? seven "07" = some (.bool true) := by
  intro minus seven
  refine ⟨⟨⟨rfl, .inr ⟨rfl, -5, rfl, rfl⟩⟩, rfl, rfl⟩, ⟨?_, rfl, rfl⟩, ?_, rfl, rfl⟩
  · rw [spells_int_iff rfl]
    exact fun h => absurd h.2 (by decide)
  · rw [spells_int_iff rfl]
    exact fun h => absurd h.2 (by decide)

end RecordStore.Path
