import RecordStore.Value.Order

/-!
# Equality of documents

Equality is symmetric (`beq_comm`), but not transitive: an integer equals the real that is nearest to it, so one real
may equal two different integers (`Conflates`). Among scalars that is the only exception (`beq_or_conflates`). Nor are
equal documents always the same: one may have twins (`HasTwin`).
-/

namespace RecordStore.Value

/-! ## Symmetry -/

mutual

protected theorem beq_symm : ∀ a b : Value, a.beq b = b.beq a
  | .null, b => by cases b <;> rfl
  | .bool x, b => by cases b <;> simp [Value.beq, BEq.comm]
  | .int i, b => by cases b <;> simp [Value.beq, BEq.comm, Binary64.equal_comm]
  | .real x, b => by cases b <;> simp [Value.beq, Binary64.equal_comm]
  | .str s, b => by cases b <;> simp [Value.beq, BEq.comm]
  | .arr as, b => by
    cases b with
    | arr bs => exact beqItems_symm as bs
    | _ => rfl
  | .map ms, b => by
    cases b with
    | map ns => exact beqMembers_symm ms ns
    | _ => rfl

theorem beqItems_symm : ∀ as bs, beqItems as bs = beqItems bs as
  | [], bs => by cases bs <;> rfl
  | a :: as, bs => by
    cases bs with
    | nil => rfl
    | cons b bs => rw [beqItems, beqItems, Value.beq_symm a b, beqItems_symm as bs]

theorem beqMembers_symm : ∀ ms ns, beqMembers ms ns = beqMembers ns ms
  | [], ns => by cases ns <;> rfl
  | (k, a) :: ms, ns => by
    cases ns with
    | nil => rfl
    | cons n ns => rw [beqMembers, beqMembers, BEq.comm, Value.beq_symm a n.2, beqMembers_symm ms ns]

end

theorem beq_comm (a b : Value) : (a == b) = (b == a) := Value.beq_symm a b

/-- Scalars equal themselves, but for the words that are no number. -/
theorem beq_self_of_isScalar {v : Value} (hs : v.isScalar = true) (hnan : ∀ x, v = real x → x.isNaN = false) :
    (v == v) = true := by
  cases v with
  | null => rfl
  | bool b => exact beq_self_eq_true b
  | int i => exact beq_self_eq_true i
  | real x => exact Binary64.equal_self (hnan x rfl)
  | str s => exact beq_self_eq_true s
  | arr _ | map _ => cases hs

/-! ## What equal documents share -/

section Shared

variable {a b : Value}

theorem isScalar_eq_of_beq (h : (a == b) = true) : a.isScalar = b.isScalar := by
  cases a <;> cases b <;> first | rfl | cases h

theorem eq_null_of_beq (h : (a == null) = true) : a = null := by
  cases a <;> first | rfl | cases h

theorem eq_str_of_beq {s : String} (h : (a == str s) = true) : a = str s := by
  cases a with
  | str t => exact congrArg str (eq_of_beq h)
  | _ => cases h

theorem exists_find?_of_beqMembers {ms ns : Members} {k : Key} {x : Value} (h : beqMembers ms ns = true)
    (hx : Entries.find? k ms = some x) : ∃ y, Entries.find? k ns = some y ∧ (x == y) = true := by
  induction ms generalizing ns with
  | nil => cases hx
  | cons m ms ih =>
    obtain ⟨l, a⟩ := m
    cases ns with
    | nil => cases h
    | cons n ns =>
      obtain ⟨l', b⟩ := n
      obtain ⟨⟨hl, hab⟩, hrest⟩ : (l == l' ∧ a.beq b = true) ∧ beqMembers ms ns = true := by
        simpa [beqMembers] using h
      obtain rfl : l = l' := eq_of_beq hl
      rw [Entries.find?_cons] at hx ⊢
      split
      case isTrue hk =>
        rw [if_pos hk] at hx
        cases hx
        exact ⟨b, rfl, hab⟩
      case isFalse hk =>
        rw [if_neg hk] at hx
        exact ih hrest hx

/-- Equal documents have equal members. -/
theorem exists_find?_of_beq {k : Key} {x : Value} (h : (a == b) = true) (hx : a.find? k = some x) :
    ∃ y, b.find? k = some y ∧ (x == y) = true := by
  cases a with
  | map ms =>
    cases b with
    | map ns => exact exists_find?_of_beqMembers h hx
    | _ => cases h
  | _ => cases hx

end Shared

/-! ## Where equality is not transitive -/

/-- The real equals two different integers. -/
def Conflates (x : Binary64) (a b : Value) : Prop :=
  ∃ i j, a = int i ∧ b = int j ∧ i ≠ j ∧ (real x == int i) = true ∧ (real x == int j) = true

/-- The document with an integer read as the real nearest to it. -/
def nearest : Value → Value
  | int i => real (.ofInt i.toInt)
  | v => v

section Nearest

variable {a b c d : Value}

theorem nearest_beq_of_beq (h : (a == b) = true) : (a.nearest == b.nearest) = true := by
  cases a with
  | int i =>
    cases b with
    | int j =>
      obtain rfl : i = j := eq_of_beq h
      exact Binary64.equal_self (Binary64.isNaN_ofQuotient _ _ _)
    | real y => exact h
    | _ => cases h
  | real x =>
    cases b with
    | int j => exact h
    | real y => exact h
    | _ => cases h
  | _ => cases b <;> exact h

/-- With integers read as reals, equality of scalars is transitive. -/
theorem nearest_beq_trans (hs : b.isScalar = true) (hab : (a.nearest == b.nearest) = true)
    (hbc : (b.nearest == c.nearest) = true) : (a.nearest == c.nearest) = true := by
  cases b with
  | null =>
    cases a with
    | null => exact hbc
    | _ => cases hab
  | bool y =>
    cases a with
    | bool x =>
      obtain rfl : x = y := eq_of_beq hab
      exact hbc
    | _ => cases hab
  | str t =>
    cases a with
    | str s =>
      obtain rfl : s = t := eq_of_beq hab
      exact hbc
    | _ => cases hab
  | int _ | real _ =>
    cases a with
    | int _ | real _ =>
      cases c with
      | int _ | real _ => exact Binary64.equal_trans hab hbc
      | _ => cases hbc
    | _ => cases hab
  | arr _ | map _ => cases hs

theorem beq_or_integers_of_nearest (h : (a.nearest == b.nearest) = true) :
    (a == b) = true ∨ ∃ i j, a = int i ∧ b = int j ∧ i ≠ j := by
  cases a with
  | int i =>
    cases b with
    | int j =>
      by_cases hij : i = j
      · have : (i == j) = true := beq_iff_eq.2 hij
        exact .inl this
      · exact .inr ⟨i, j, rfl, rfl, hij⟩
    | real y => exact .inl h
    | _ => cases h
  | _ => cases b <;> exact .inl h

/-- What is, or equals, an integer. -/
theorem int_or_real_of_link {i : Int64} (h : c = int i ∨ (c == int i) = true) :
    c = int i ∨ ∃ x, c = real x ∧ (real x == int i) = true := by
  rcases h with rfl | h
  · exact .inl rfl
  · cases c with
    | int j => exact .inl (congrArg int (eq_of_beq h))
    | real x => exact .inr ⟨x, rfl, h⟩
    | _ => cases h

/-- Two scalars are equal if what each of them is, or equals, are equal; or else they are integers, and one of those is
a real that equals both. -/
theorem beq_or_conflates (ha : a.isScalar = true) (hb : b.isScalar = true) (hca : c = a ∨ (c == a) = true)
    (hdb : d = b ∨ (d == b) = true) (hcd : (c == d) = true) :
    (a == b) = true ∨ ∃ x, (c = real x ∨ d = real x) ∧ Conflates x a b := by
  have hnearest : (a.nearest == b.nearest) = true := by
    have hcb : (c.nearest == b.nearest) = true := by
      rcases hdb with rfl | hdb
      · exact nearest_beq_of_beq hcd
      · have hd : d.isScalar = true := (isScalar_eq_of_beq hdb).trans hb
        exact nearest_beq_trans hd (nearest_beq_of_beq hcd) (nearest_beq_of_beq hdb)
    rcases hca with rfl | hca
    · exact hcb
    · have hc : c.isScalar = true := (isScalar_eq_of_beq hca).trans ha
      rw [beq_comm] at hca
      exact nearest_beq_trans hc (nearest_beq_of_beq hca) hcb
  rcases beq_or_integers_of_nearest hnearest with h | ⟨i, j, rfl, rfl, hij⟩
  · exact .inl h
  · refine .inr ?_
    rcases int_or_real_of_link hca with rfl | ⟨x, rfl, hx⟩
    · rcases int_or_real_of_link hdb with rfl | ⟨y, rfl, hy⟩
      · exact (hij (eq_of_beq hcd)).elim
      · rw [beq_comm] at hcd
        exact ⟨y, .inr rfl, i, j, rfl, rfl, hij, hcd, hy⟩
    · have hxj : (real x == int j) = true := by
        rcases int_or_real_of_link hdb with rfl | ⟨y, rfl, hy⟩
        · exact hcd
        · exact Binary64.equal_trans hcd hy
      exact ⟨x, .inl rfl, i, j, rfl, rfl, hij, hx, hxj⟩

/-- A real that equals an integer also equals what is, or equals, that integer. -/
theorem real_beq_of_link {x : Binary64} {i : Int64} (hx : (real x == int i) = true)
    (hc : c = int i ∨ (c == int i) = true) : (real x == c) = true := by
  rcases int_or_real_of_link hc with rfl | ⟨y, rfl, hy⟩
  · exact hx
  · rw [beq_comm] at hy
    exact Binary64.equal_trans hx hy

end Nearest

/-! ## Where equality is not identity -/

/-- The second is another document that equals the first. -/
def IsTwin (a b : Value) : Prop := b ≠ a ∧ (b == a) = true

/-- Another document equals this one. -/
def HasTwin (a : Value) : Prop := ∃ b, IsTwin a b

end RecordStore.Value
