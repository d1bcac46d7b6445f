import RecordStore.Proofs.Number.Rounding
import RecordStore.Proofs.Value.Comparison

/-!
# Where comparing documents is transitive

Integers are compared exactly with each other, but with reals through the reals nearest to them, so a real may equal
two different integers (`Conflates`). Equality and order are transitive wherever no real of three documents does so with
the integers at the same place of the two others (`transits`): rounding keeps the order, so integers and reals never
come to stand the wrong way round, and the order of arrays looks for the first unequal elements, where equality has to
be transitive as well. Where a real does so equality is not transitive, and there are arrays whose order is not
(`transitive_iff_not_conflated`).
-/

namespace RecordStore

theorem Comparison.ofOrdering_eq_less_iff {o : Ordering} : ofOrdering o = less ↔ o = .lt := by
  cases o <;> decide

theorem Binary64.compare_eq_less_iff {x y : Binary64} :
    x.compare y = .less ↔ x.isNaN = false ∧ y.isNaN = false ∧ x.rank < y.rank := by
  unfold Binary64.compare
  cases x.isNaN <;> cases y.isNaN <;> simp [Comparison.ofOrdering_eq_less_iff, Std.compare_eq_lt]

namespace Value

open Comparison

/-! ## Places -/

/-- The property holds of what stands at one place of three documents. -/
inductive AtPlace (P : Value → Value → Value → Prop) : Value → Value → Value → Prop
  | here {a b c : Value} : P a b c → AtPlace P a b c
  | element {as bs cs : List Value} {i : Nat} {a b c : Value} : as[i]? = some a → bs[i]? = some b →
      cs[i]? = some c → AtPlace P a b c → AtPlace P (arr as) (arr bs) (arr cs)
  | member {ms ns os : Members} {i : Nat} {k : Key} {a b c : Value} : ms[i]? = some (k, a) → ns[i]? = some (k, b) →
      os[i]? = some (k, c) → AtPlace P a b c → AtPlace P (map ms) (map ns) (map os)

/-- One of the three is a real that equals the two others, and those are different integers. -/
def Conflated (a b c : Value) : Prop :=
  ∃ x, a = real x ∧ Conflates x b c ∨ b = real x ∧ Conflates x a c ∨ c = real x ∧ Conflates x a b

section Equal

variable {a b c : Value} {x : Binary64} {i : Nat}

theorem Conflates.beq_eq_false (h : Conflates x a b) : (a == b) = false := by
  obtain ⟨i, j, rfl, rfl, hij, -⟩ := h
  rw [← Bool.not_eq_true]
  exact fun heq => hij (eq_of_beq heq)

theorem beq_of_beqItems {as bs : List Value} (h : beqItems as bs = true) (ha : as[i]? = some a)
    (hb : bs[i]? = some b) : (a == b) = true := by
  induction as generalizing bs i with
  | nil => cases ha
  | cons a' as ih =>
    cases bs with
    | nil => cases h
    | cons b' bs =>
      obtain ⟨hhead, htail⟩ := (Bool.and_eq_true _ _).mp h
      cases i with
      | zero =>
        cases ha
        cases hb
        exact hhead
      | succ i => exact ih htail ha hb

theorem beq_of_beqMembers {ms ns : Members} {k l : Key} (h : beqMembers ms ns = true) (ha : ms[i]? = some (k, a))
    (hb : ns[i]? = some (l, b)) : (a == b) = true := by
  induction ms generalizing ns i with
  | nil => cases ha
  | cons m ms ih =>
    cases ns with
    | nil => cases h
    | cons n ns =>
      obtain ⟨hhead, htail⟩ := (Bool.and_eq_true _ _).mp h
      cases i with
      | zero =>
        cases ha
        cases hb
        exact ((Bool.and_eq_true _ _).mp hhead).2
      | succ i => exact ih htail ha hb

/-- Where a real equals two different integers the three documents are not all equal to each other. -/
theorem not_beq_of_conflated (h : AtPlace Conflated a b c) :
    ¬ ((a == b) = true ∧ (b == c) = true ∧ (a == c) = true) := by
  rintro ⟨hab, hbc, hac⟩
  induction h with
  | here h =>
    obtain ⟨x, ⟨-, h⟩ | ⟨-, h⟩ | ⟨-, h⟩⟩ := h
    · cases hbc.symm.trans h.beq_eq_false
    · cases hac.symm.trans h.beq_eq_false
    · cases hab.symm.trans h.beq_eq_false
  | element ha hb hc _ ih =>
    exact ih (beq_of_beqItems hab ha hb) (beq_of_beqItems hbc hb hc) (beq_of_beqItems hac ha hc)
  | member ha hb hc _ ih =>
    exact ih (beq_of_beqMembers hab ha hb) (beq_of_beqMembers hbc hb hc) (beq_of_beqMembers hac ha hc)

end Equal

/-! ## Equal or less -/

/-- The first document is less than the second, or it equals it. -/
def Leads : (less : Bool) → Value → Value → Prop
  | true, a, b => a.compare b = .less
  | false, a, b => (a == b) = true

/-- The same of the elements of two arrays. -/
def LeadsItems : (less : Bool) → List Value → List Value → Prop
  | true, as, bs => compareItems as bs = .less
  | false, as, bs => beqItems as bs = true

section Scalars

variable {a b c : Value} {x y z : Binary64} {i j : Int64} {s t : Bool}

theorem isScalar_eq_of_leads (h : Leads s a b) : a.isScalar = b.isScalar := by
  cases s with
  | false => exact isScalar_eq_of_beq h
  | true => cases a <;> cases b <;> first | rfl | cases h

/-- Where documents of one kind are compared by a linear order, it carries over to them. -/
theorem leads_trans_of_ord {α : Type} [Ord α] [Std.TransOrd α] {f : α → Value} {u v w : α}
    (hless : ∀ u v, (f u).compare (f v) = ofOrdering (Ord.compare u v)) (heq : ∀ u v, (f u == f v) = true → u = v)
    (huv : Leads s (f u) (f v)) (hvw : Leads t (f v) (f w)) : Leads (s || t) (f u) (f w) := by
  cases s with
  | false =>
    obtain rfl := heq u v huv
    exact hvw
  | true =>
    cases t with
    | false =>
      obtain rfl := heq v w hvw
      exact huv
    | true =>
      have huv : Ord.compare u v = .lt := ofOrdering_eq_less_iff.1 ((hless u v).symm.trans huv)
      have hvw : Ord.compare v w = .lt := ofOrdering_eq_less_iff.1 ((hless v w).symm.trans hvw)
      exact (hless u w).trans (ofOrdering_eq_less_iff.2 (Std.TransCmp.lt_trans huv hvw))

/-! ### Numbers -/

theorem isSome_number?_of_leads (h : Leads s a b) : a.number?.isSome = b.number?.isSome := by
  cases s <;> cases a <;> cases b <;> first | (simp [number?]; done) | cases h

theorem compare_int_eq_less_iff : (int i).compare (int j) = .less ↔ i < j := by
  rw [compare, ofOrdering_eq_less_iff, Std.compare_eq_lt]

theorem isNaN_of_number?_int {x : Binary64} (h : (int i).number? = some x) : x.isNaN = false := by
  cases h
  exact Binary64.isNaN_ofQuotient _ _ _

theorem real_beq_int_of_rank_eq (hx : x.isNaN = false) (h : x.rank = (Binary64.ofInt i.toInt).rank) :
    (real x == int i) = true :=
  Binary64.equal_eq_true_iff.2 ⟨hx, Binary64.isNaN_ofQuotient _ _ _, h⟩

section Numbers

variable (ha : a.number? = some x) (hb : b.number? = some y)

include ha hb

/-- Numbers that are not both integers are compared as reals. -/
theorem compare_as_reals (h : ¬ ∃ i j, a = int i ∧ b = int j) :
    a.compare b = x.compare y ∧ (a == b) = x.equal y := by
  cases a with
  | int i =>
    cases b with
    | int j => exact absurd ⟨i, j, rfl, rfl⟩ h
    | real _ =>
      cases ha
      cases hb
      exact ⟨rfl, rfl⟩
    | _ => cases hb
  | real _ =>
    cases b with
    | int _ | real _ =>
      cases ha
      cases hb
      exact ⟨rfl, rfl⟩
    | _ => cases hb
  | _ => cases ha

/-- The rank does not fall, and rises where the first number is less, unless that and the other are integers with one
nearest real. -/
theorem rank_of_leads (h : Leads s a b) : x.isNaN = false ∧ y.isNaN = false ∧ x.rank ≤ y.rank ∧
    (s = true → x.rank = y.rank → ∃ i j, a = int i ∧ b = int j ∧ i < j) := by
  by_cases hints : ∃ i j, a = int i ∧ b = int j
  · obtain ⟨i, j, rfl, rfl⟩ := hints
    refine ⟨isNaN_of_number?_int ha, isNaN_of_number?_int hb, ?_⟩
    cases ha
    cases hb
    cases s with
    | false =>
      obtain rfl : i = j := eq_of_beq h
      exact ⟨Int.le_refl _, nofun⟩
    | true =>
      have hij := compare_int_eq_less_iff.1 h
      exact ⟨Binary64.rank_ofInt_mono (Int.le_of_lt (Int64.lt_iff_toInt_lt.1 hij)), fun _ _ => ⟨i, j, rfl, rfl, hij⟩⟩
  · cases s with
    | false =>
      obtain ⟨hx, hy, heq⟩ := Binary64.equal_eq_true_iff.1 ((compare_as_reals ha hb hints).2.symm.trans h)
      exact ⟨hx, hy, Int.le_of_eq heq, nofun⟩
    | true =>
      obtain ⟨hx, hy, hlt⟩ := Binary64.compare_eq_less_iff.1 ((compare_as_reals ha hb hints).1.symm.trans h)
      exact ⟨hx, hy, Int.le_of_lt hlt, fun _ heq => absurd heq (Int.ne_of_lt hlt)⟩

theorem compare_eq_less_of_rank_lt (hx : x.isNaN = false) (hy : y.isNaN = false) (h : x.rank < y.rank) :
    a.compare b = .less := by
  by_cases hints : ∃ i j, a = int i ∧ b = int j
  · obtain ⟨i, j, rfl, rfl⟩ := hints
    cases ha
    cases hb
    rw [compare_int_eq_less_iff]
    refine Int64.not_le.1 fun hle => ?_
    have hrank := Binary64.rank_ofInt_mono (Int64.le_iff_toInt_le.1 hle)
    omega
  · rw [(compare_as_reals ha hb hints).1]
    exact Binary64.compare_eq_less_iff.2 ⟨hx, hy, h⟩

end Numbers

/-- Of three numbers, each leading the next and one of them by being less, the first is less than the last, unless all
have the same rank: then the lesser one and the next are integers, and the third number may be a real between them. -/
theorem Leads.trans_number (hb : b.number? = some y) (hst : (s || t) = true) (hab : Leads s a b) (hbc : Leads t b c) :
    a.compare c = .less ∨ Conflated a b c := by
  obtain ⟨x, ha⟩ := Option.isSome_iff_exists.1 ((isSome_number?_of_leads hab).trans (by rw [hb]; rfl))
  obtain ⟨z, hc⟩ := Option.isSome_iff_exists.1 ((isSome_number?_of_leads hbc).symm.trans (by rw [hb]; rfl))
  obtain ⟨hx, hy, hxy, hless⟩ := rank_of_leads ha hb hab
  obtain ⟨-, hz, hyz, hless'⟩ := rank_of_leads hb hc hbc
  by_cases hlt : x.rank < z.rank
  · exact .inl (compare_eq_less_of_rank_lt ha hc hx hz hlt)
  · have hxy : x.rank = y.rank := by omega
    have hyz : y.rank = z.rank := by omega
    cases s with
    | true =>
      obtain ⟨i, j, rfl, rfl, hij⟩ := hless rfl hxy
      cases t with
      | true =>
        obtain ⟨_, k, ⟨⟩, rfl, hjk⟩ := hless' rfl hyz
        exact .inl (compare_int_eq_less_iff.2 (Int64.lt_trans hij hjk))
      | false =>
        obtain rfl | ⟨z', rfl, hzj⟩ := int_or_real_of_link (.inr ((beq_comm c (int j)).trans hbc))
        · exact .inl (compare_int_eq_less_iff.2 hij)
        · cases ha
          cases hc
          have hzi : (real z == int i) = true := real_beq_int_of_rank_eq hz (hxy.trans hyz).symm
          exact .inr ⟨z, .inr (.inr ⟨rfl, i, j, rfl, rfl, Int64.ne_of_lt hij, hzi, hzj⟩)⟩
    | false =>
      obtain rfl : t = true := hst
      obtain ⟨j, k, rfl, rfl, hjk⟩ := hless' rfl hyz
      obtain rfl | ⟨x', rfl, hxj⟩ := int_or_real_of_link (.inr hab)
      · exact .inl (compare_int_eq_less_iff.2 hjk)
      · cases ha
        cases hc
        have hxk : (real x == int k) = true := real_beq_int_of_rank_eq hx (hxy.trans hyz)
        exact .inr ⟨x, .inl ⟨rfl, j, k, rfl, rfl, Int64.ne_of_lt hjk, hxj, hxk⟩⟩

/-- Of three scalars, each leading the next, the first leads the last, unless one of them conflates the others. -/
theorem Leads.trans_of_isScalar (hb : b.isScalar = true) (hab : Leads s a b) (hbc : Leads t b c) :
    Leads (s || t) a c ∨ Conflated a b c := by
  cases hst : s || t with
  | false =>
    obtain ⟨rfl, rfl⟩ : s = false ∧ t = false := by simpa using hst
    have ha : a.isScalar = true := (isScalar_eq_of_leads hab).trans hb
    have hc : c.isScalar = true := (isScalar_eq_of_leads hbc).symm.trans hb
    obtain h | ⟨x, hx, h⟩ := beq_or_conflates ha hc (.inr ((beq_comm b a).trans hab)) (.inl rfl) hbc
    · exact .inl h
    · obtain hx | rfl := hx
      · exact .inr ⟨x, .inr (.inl ⟨hx, h⟩)⟩
      · obtain ⟨-, -, -, ⟨⟩, -⟩ := h
  | true =>
    cases b with
    | null =>
      cases s with
      | true => cases a <;> cases hab
      | false =>
        obtain rfl : t = true := hst
        cases c <;> cases hbc
    | int _ | real _ => exact Leads.trans_number rfl hst hab hbc
    | bool v =>
      refine .inl ?_
      obtain ⟨u, rfl⟩ : ∃ u, a = bool u := by
        cases s <;> cases a <;> first | exact ⟨_, rfl⟩ | cases hab
      obtain ⟨w, rfl⟩ : ∃ w, c = bool w := by
        cases t <;> cases c <;> first | exact ⟨_, rfl⟩ | cases hbc
      rw [← hst]
      exact leads_trans_of_ord (fun _ _ => rfl) (fun u v h => eq_of_beq (a := u) h) hab hbc
    | str v =>
      refine .inl ?_
      obtain ⟨u, rfl⟩ : ∃ u, a = str u := by
        cases s <;> cases a <;> first | exact ⟨_, rfl⟩ | cases hab
      obtain ⟨w, rfl⟩ : ∃ w, c = str w := by
        cases t <;> cases c <;> first | exact ⟨_, rfl⟩ | cases hbc
      rw [← hst]
      exact leads_trans_of_ord (fun _ _ => rfl) (fun u v h => eq_of_beq (a := u) h) hab hbc
    | arr _ | map _ => cases hb

end Scalars

/-! ## Arrays and maps -/

section Collections

variable {a b c : Value} {as bs cs : List Value} {ms ns os : Members} {s t : Bool}

theorem beq_eq_false_of_compare_eq_less (h : a.compare b = .less) : (a == b) = false := by
  rw [← Bool.not_eq_true]
  intro heq
  have hordered : a.isOrdered = true := isOrdered_of_compare_ne (by rw [h]; nofun)
  cases h.symm.trans ((compare_eq_equivalent_iff a b).2 ⟨heq, hordered⟩)

/-- Arrays are led by their first elements where these are unequal, and else by the others. -/
theorem leadsItems_cons_iff : LeadsItems s (a :: as) (b :: bs) ↔
    Leads false a b ∧ LeadsItems s as bs ∨ s = true ∧ Leads true a b := by
  cases s with
  | false =>
    have hcons : LeadsItems false (a :: as) (b :: bs) ↔ Leads false a b ∧ LeadsItems false as bs :=
      iff_of_eq (Bool.and_eq_true (a == b) _)
    simp [hcons]
  | true =>
    rw [LeadsItems, compareItems, LeadsItems, Leads, Leads]
    split
    case isTrue heq =>
      have hless : a.compare b ≠ .less := fun h => by cases heq.symm.trans (beq_eq_false_of_compare_eq_less h)
      simp [heq, hless]
    case isFalse hne => simp [hne]

theorem not_conflated_arr : ¬ Conflated a (arr bs) (arr cs) := by
  rintro ⟨-, ⟨-, -, -, ⟨⟩, -⟩ | ⟨⟨⟩, -⟩ | ⟨⟨⟩, -⟩⟩

theorem not_atPlace_of_isScalar (hb : b.isScalar = true) (h : ¬ Conflated a b c) : ¬ AtPlace Conflated a b c := by
  intro hplace
  cases hplace with
  | here hplace => exact h hplace
  | element | member => cases hb

theorem not_atPlace_nil : ¬ AtPlace Conflated (arr []) (arr []) (arr []) := by
  rintro (h | ⟨⟨⟩, -⟩)
  exact not_conflated_arr h

theorem atPlace_cons_iff : AtPlace Conflated (arr (a :: as)) (arr (b :: bs)) (arr (c :: cs)) ↔
    AtPlace Conflated a b c ∨ AtPlace Conflated (arr as) (arr bs) (arr cs) := by
  constructor
  · intro h
    cases h with
    | here h => exact absurd h not_conflated_arr
    | element ha hb hc h =>
      rename_i i _ _ _
      cases i with
      | zero =>
        cases ha
        cases hb
        cases hc
        exact .inl h
      | succ i => exact .inr (.element ha hb hc h)
  · rintro (h | h)
    · exact .element (i := 0) rfl rfl rfl h
    · cases h with
      | here h => exact absurd h not_conflated_arr
      | element ha hb hc h => exact .element (i := _ + 1) ha hb hc h

theorem AtPlace.cons_member {k : Key} (h : AtPlace Conflated (map ms) (map ns) (map os)) :
    AtPlace Conflated (map ((k, a) :: ms)) (map ((k, b) :: ns)) (map ((k, c) :: os)) := by
  cases h with
  | here h => obtain ⟨-, ⟨⟨⟩, -⟩ | ⟨⟨⟩, -⟩ | ⟨⟨⟩, -⟩⟩ := h
  | member ha hb hc h => exact .member (i := _ + 1) ha hb hc h

/-- From the document on, leading is transitive, unless a real conflates what stands at its place in two others. -/
def Transits (a : Value) : Prop :=
  ∀ {s t b c}, Leads s a b → Leads t b c → Leads (s || t) a c ∨ AtPlace Conflated a b c

theorem leadsItems_trans (h : ∀ a ∈ as, Transits a) (hab : LeadsItems s as bs) (hbc : LeadsItems t bs cs) :
    LeadsItems (s || t) as cs ∨ AtPlace Conflated (arr as) (arr bs) (arr cs) := by
  induction as generalizing bs cs with
  | nil =>
    cases bs with
    | nil =>
      cases s with
      | true => cases hab
      | false => exact .inl hbc
    | cons b bs =>
      cases s with
      | false => cases hab
      | true =>
        cases cs with
        | nil => cases t <;> cases hbc
        | cons c cs => exact .inl rfl
  | cons a as ih =>
    obtain ⟨ha, has⟩ := List.forall_mem_cons.1 h
    cases bs with
    | nil => cases s <;> cases hab
    | cons b bs =>
      cases cs with
      | nil => cases t <;> cases hbc
      | cons c cs =>
        have head (h : AtPlace Conflated a b c) : AtPlace Conflated (arr (a :: as)) (arr (b :: bs)) (arr (c :: cs)) :=
          atPlace_cons_iff.2 (.inl h)
        rw [leadsItems_cons_iff] at hab hbc ⊢
        -- the first unequal pair of each two neighbours: behind the first elements or there
        obtain ⟨hab, habs⟩ | ⟨rfl, hab⟩ := hab
        · obtain ⟨hbc, hbcs⟩ | ⟨rfl, hbc⟩ := hbc
          · obtain hac | hplace := ha hab hbc
            · exact (ih has habs hbcs).imp (fun hacs => .inl ⟨hac, hacs⟩) fun h => atPlace_cons_iff.2 (.inr h)
            · exact .inr (head hplace)
          · exact (ha hab hbc).imp (fun hac => .inr ⟨Bool.or_true s, hac⟩) head
        · obtain ⟨hbc, -⟩ | ⟨rfl, hbc⟩ := hbc
          · exact (ha hab hbc).imp (fun hac => .inr ⟨Bool.true_or t, hac⟩) head
          · exact (ha hab hbc).imp (fun hac => .inr ⟨rfl, hac⟩) head

theorem beqMembers_trans (h : ∀ e ∈ ms, Transits e.2) (hab : beqMembers ms ns = true) (hbc : beqMembers ns os = true) :
    beqMembers ms os = true ∨ AtPlace Conflated (map ms) (map ns) (map os) := by
  induction ms generalizing ns os with
  | nil =>
    cases ns with
    | nil => exact .inl hbc
    | cons n ns => cases hab
  | cons m ms ih =>
    obtain ⟨ha, has⟩ := List.forall_mem_cons.1 h
    obtain ⟨k, a⟩ := m
    cases ns with
    | nil => cases hab
    | cons n ns =>
      obtain ⟨l, b⟩ := n
      cases os with
      | nil => cases hbc
      | cons o os =>
        obtain ⟨l', c⟩ := o
        simp only [beqMembers, Bool.and_eq_true] at hab hbc ⊢
        obtain ⟨⟨hk, hab⟩, habs⟩ := hab
        obtain ⟨⟨hl, hbc⟩, hbcs⟩ := hbc
        obtain rfl : k = l := eq_of_beq hk
        obtain rfl : k = l' := eq_of_beq hl
        obtain hac | hplace := ha (s := false) (t := false) hab hbc
        · exact (ih has habs hbcs).imp (fun hacs => ⟨⟨hk, hac⟩, hacs⟩) AtPlace.cons_member
        · exact .inr (.member (i := 0) rfl rfl rfl hplace)

theorem transits_of_isScalar (ha : a.isScalar = true) : Transits a := fun hab hbc =>
  (hab.trans_of_isScalar ((isScalar_eq_of_leads hab).symm.trans ha) hbc).imp_right .here

theorem transits (a : Value) : Transits a := by
  induction a using Value.induction with
  | null | bool _ | int _ | real _ | str _ => exact transits_of_isScalar rfl
  | arr as ih =>
    intro s t b c hab hbc
    cases b with
    | arr bs =>
      cases c with
      | arr cs =>
        have hab : LeadsItems s as bs := by
          cases s <;> exact hab
        have hbc : LeadsItems t bs cs := by
          cases t <;> exact hbc
        refine (leadsItems_trans ih hab hbc).imp_left fun hac => ?_
        cases hst : s || t <;> rw [hst] at hac <;> exact hac
      | _ => cases t <;> cases hbc
    | _ => cases s <;> cases hab
  | map ms ih =>
    intro s t b c hab hbc
    -- maps are not ordered, so they are equal here
    cases s with
    | true => cases b <;> cases hab
    | false =>
      cases t with
      | true => cases b <;> cases c <;> first | cases hbc | cases hab
      | false =>
        cases b with
        | map ns =>
          cases c with
          | map os => exact beqMembers_trans ih hab hbc
          | _ => cases hbc
        | _ => cases hab

end Collections

/-! ## Transitivity -/

section Laws

variable {a b p q : Value} {i j : Int64}

theorem less_of_first_beq (h : (a == b) = true) (hpq : p.compare q = .less) :
    (arr [a, p]).compare (arr [b, q]) = .less :=
  have hrest : LeadsItems true [p] [q] := leadsItems_cons_iff.2 (.inr ⟨rfl, hpq⟩)
  leadsItems_cons_iff.2 (.inl ⟨h, hrest⟩)

theorem greater_of_first_int (h : i < j) : (arr [int j, p]).compare (arr [int i, q]) = .greater := by
  have hless : (arr [int i, q]).compare (arr [int j, p]) = .less :=
    leadsItems_cons_iff.2 (.inr ⟨rfl, compare_int_eq_less_iff.2 h⟩)
  rw [← compare_swap, hless]
  rfl

/-- Equality is transitive where, and only where, no real of the three documents equals different integers at its place
in the two others. The order is transitive there as well; and with a real that equals two integers there are arrays on
which it is not. -/
theorem transitive_iff_not_conflated (a b c : Value) :
    ((a == b) = true → (b == c) = true → ((a == c) = true ↔ ¬ AtPlace Conflated a b c)) ∧
      (a.compare b = .less → b.compare c = .less → ¬ AtPlace Conflated a b c → a.compare c = .less) ∧
      ∀ x i j, Conflates x (int i) (int j) → i < j → ∀ p q r : Value, p.compare q = .less → q.compare r = .less →
        (arr [int j, p]).compare (arr [real x, q]) = .less ∧ (arr [real x, q]).compare (arr [int i, r]) = .less ∧
          (arr [int j, p]).compare (arr [int i, r]) = .greater := by
  refine ⟨fun hab hbc => ⟨fun hac hplace => ?_, fun hplace => ?_⟩, fun hab hbc hplace => ?_, ?_⟩
  · exact not_beq_of_conflated hplace ⟨hab, hbc, hac⟩
  · exact (transits a (s := false) (t := false) hab hbc).resolve_right hplace
  · exact (transits a (s := true) (t := true) hab hbc).resolve_right hplace
  · rintro x i j ⟨_, _, ⟨⟩, ⟨⟩, -, hxi, hxj⟩ hij p q r hpq hqr
    rw [beq_comm] at hxj
    exact ⟨less_of_first_beq hxj hpq, less_of_first_beq hxi hqr, greater_of_first_int hij⟩

/-- Integers and reals that are equal at one place, and in order at the next. -/
theorem transitive_iff_not_conflated_mixed :
    let one : Binary64 := ⟨0x3ff0000000000000⟩
    let a : Value := arr [arr [int 1, null], int 2]
    let b : Value := arr [arr [real one, null], real ⟨0x4004000000000000⟩]
    let c : Value := arr [arr [int 1, null], int 3]
    (a.compare b = .less ∧ b.compare c = .less ∧ ¬ AtPlace Conflated a b c) ∧ a.compare c = .less := by
  intro one a b c
  have hab : a.compare b = .less := by decide +kernel
  have hbc : b.compare c = .less := by decide +kernel
  have hone : ¬ Conflated (int 1) (real one) (int 1) := by
    rintro ⟨_, ⟨⟨⟩, -⟩ | ⟨-, _, _, ⟨⟩, ⟨⟩, hne, -⟩ | ⟨⟨⟩, -⟩⟩
    exact hne rfl
  have hnull : ¬ Conflated null null null := by
    rintro ⟨_, ⟨⟨⟩, -⟩ | ⟨⟨⟩, -⟩ | ⟨⟨⟩, -⟩⟩
  have hmore : ¬ Conflated (int 2) (real ⟨0x4004000000000000⟩) (int 3) := by
    rintro ⟨_, ⟨⟨⟩, -⟩ | ⟨⟨⟩, _, _, ⟨⟩, -, -, heq, -⟩ | ⟨⟨⟩, -⟩⟩
    cases heq.symm.trans (by decide +kernel : (real ⟨0x4004000000000000⟩ == int 2) = false)
  have hplace : ¬ AtPlace Conflated a b c := by
    simp only [a, b, c, atPlace_cons_iff, not_atPlace_nil, or_false, not_or]
    exact ⟨⟨not_atPlace_of_isScalar rfl hone, not_atPlace_of_isScalar rfl hnull⟩, not_atPlace_of_isScalar rfl hmore⟩
  exact ⟨⟨hab, hbc, hplace⟩, (transitive_iff_not_conflated a b c).2.1 hab hbc hplace⟩

/-- The real 2 ^ 53 equals the integers 2 ^ 53 and 2 ^ 53 + 1. -/
theorem not_transitive_at_two_pow_53 :
    let x : Binary64 := ⟨0x4340000000000000⟩
    let i : Int64 := 9007199254740992
    let j : Int64 := 9007199254740993
    (x.isNaN = false ∧ (int i == real x) = true ∧ (real x == int j) = true ∧ (int i == int j) = false) ∧
      (arr [int j, int 0]).compare (arr [real x, int 1]) = .less ∧
      (arr [real x, int 1]).compare (arr [int i, int 2]) = .less ∧
      (arr [int j, int 0]).compare (arr [int i, int 2]) = .greater := by
  decide +kernel

end Laws

end Value

end RecordStore
