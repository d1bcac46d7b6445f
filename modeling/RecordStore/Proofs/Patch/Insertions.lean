import RecordStore.Proofs.Patch.AtOnce

/-!
# Where inserted values come to stand

Insertions are made from the highest index down, at the end of the array where it does not reach the index. Each one is
therefore made in an array that is longer by those made before it, and moves what stands at its place or behind
(`place`). Values inserted within the array or at its end come to stand in the order of their indexes. Of two indexes,
the lower one comes to stand behind the higher one when it lies past the end of the array in which the insertion at the
higher one is made: both are then made at an end, the lower one later (`place_order`). `insertions_in_order` says so of
patches.
-/

namespace RecordStore.Patch

open Entries

/-! ## Places -/

/-- Where something at place `p` stands after an insertion at `pos`. -/
def shifted (pos p : Nat) : Nat := if pos ≤ p then p + 1 else p

/-- Where the value inserted at index `i` stands once an array of `n` elements has received the insertions at the given
ascending indexes, from the highest down; each is made at the end where the array does not reach its index. -/
def place (n : Nat) : List Nat → Nat → Nat
  | [], i => i
  | k :: indexes, i =>
    let pos := min k (n + indexes.length)
    if i = k then pos else shifted pos (place n indexes i)

section Places

variable {n i j k : Nat} {indexes : List Nat}

theorem place_cons_self : place n (k :: indexes) k = min k (n + indexes.length) := if_pos rfl

theorem place_cons_of_ne (h : i ≠ k) :
    place n (k :: indexes) i = shifted (min k (n + indexes.length)) (place n indexes i) := if_neg h

theorem shifted_lt_shifted_iff {pos p q : Nat} : shifted pos p < shifted pos q ↔ p < q := by
  unfold shifted
  split <;> split <;> omega

theorem place_lt (h : i ∈ indexes) : place n indexes i < n + indexes.length := by
  induction indexes with
  | nil => cases h
  | cons k indexes ih =>
    rw [List.length_cons]
    by_cases hk : i = k
    · rw [hk, place_cons_self]
      omega
    · have hlt := ih ((List.mem_cons.1 h).resolve_left hk)
      rw [place_cons_of_ne hk, shifted]
      split <;> omega

/-- A value stands at a place below all the indexes, or behind it, if the array reached that place when it was inserted:
those inserted later do not move it from before that place to behind it. -/
theorem le_place_iff (hsorted : (k :: indexes).Pairwise (· < ·)) (hi : i ∈ indexes) :
    k ≤ place n indexes i ↔ k ≤ n + indexes.countP (i < ·) := by
  induction indexes generalizing k with
  | nil => cases hi
  | cons l indexes ih =>
    obtain ⟨hk, hl⟩ := List.pairwise_cons.1 hsorted
    have hkl : k < l := hk l List.mem_cons_self
    by_cases hil : i = l
    · have hall : indexes.countP (l < ·) = indexes.length :=
        List.countP_eq_length.2 fun m hm => decide_eq_true ((List.pairwise_cons.1 hl).1 m hm)
      rw [hil, place_cons_self, List.countP_cons_of_neg (by simp), hall]
      omega
    · have hi := (List.mem_cons.1 hi).resolve_left hil
      have hli : l < i := (List.pairwise_cons.1 hl).1 i hi
      have hlt : place n indexes i < n + indexes.length := place_lt hi
      have hplace_k := ih (k := k) (List.pairwise_cons.2
        ⟨fun m hm => hk m (.tail l hm), (List.pairwise_cons.1 hl).2⟩) hi
      have hplace_l := ih hl hi
      rw [place_cons_of_ne hil, List.countP_cons_of_neg (by simp; omega), shifted]
      split <;> omega

/-- Of two insertions the one at the lower index comes to stand first, unless the array did not reach that index when
the other one was made. -/
theorem place_order (hsorted : indexes.Pairwise (· < ·)) (hi : i ∈ indexes) (hj : j ∈ indexes) (hij : i < j) :
    (i ≤ n + indexes.countP (j < ·) → place n indexes i < place n indexes j) ∧
      (n + indexes.countP (j < ·) < i → place n indexes j < place n indexes i) := by
  induction indexes with
  | nil => cases hi
  | cons k indexes ih =>
    obtain ⟨hk, hindexes⟩ := List.pairwise_cons.1 hsorted
    have hjk : j ≠ k := by
      rintro rfl
      rcases List.mem_cons.1 hi with rfl | hi
      · omega
      · have := hk i hi
        omega
    have hj := (List.mem_cons.1 hj).resolve_left hjk
    have hkj : ¬ j < k := Nat.lt_asymm (hk j hj)
    rw [List.countP_cons_of_neg (by simpa using hkj), place_cons_of_ne hjk]
    by_cases hik : i = k
    · have hlt : place n indexes j < n + indexes.length := place_lt hj
      have hle := le_place_iff (n := n) hsorted hj
      rw [hik, place_cons_self, shifted]
      split <;> omega
    · rw [place_cons_of_ne hik]
      simp only [shifted_lt_shifted_iff]
      exact ih hindexes ((List.mem_cons.1 hi).resolve_left hik) hj

end Places

/-! ## Carrying out insertions -/

section Inserting

variable {items inserted result : List Value} {insertions : List (Nat × Task)} {tasks : List Task} {task : Task}
  {i : Nat}

theorem getElem?_insertIdx_shifted {pos p : Nat} {v new : Value} (h : items[p]? = some v) :
    (items.insertIdx pos new)[shifted pos p]? = some v := by
  rw [List.getElem?_insertIdx, shifted]
  split
  case isTrue hle => rw [if_neg (by omega), if_neg (by omega), Nat.add_sub_cancel, h]
  case isFalse hlt => rw [if_pos (by omega), h]

/-- One insertion makes its value from null and moves what stands at its place or behind. -/
theorem insertion_spec (h : insertion (i, task) items = .ok () result) : result.length = items.length + 1 ∧
    (∃ new, task.onto .null = .ok () new ∧ result[min i items.length]? = some new) ∧
      ∀ p v, items[p]? = some v → result[shifted (min i items.length) p]? = some v := by
  obtain ⟨new, hnew, rfl⟩ := insertion_eq_ok.1 h
  have hle : min i items.length ≤ items.length := Nat.min_le_right _ _
  refine ⟨List.length_insertIdx_of_le_length hle _, ⟨new, hnew, ?_⟩, fun p v hv => getElem?_insertIdx_shifted hv⟩
  rw [List.getElem?_insertIdx_self, if_pos hle]

/-- Insertions carried out from the last one down: each value is made from null and comes to stand at its place. -/
theorem runAll_insertion_spec (h : runAll insertion insertions.reverse items = .ok () inserted) :
    inserted.length = items.length + insertions.length ∧
      ∀ i task, find? i insertions = some task → ∃ new, task.onto .null = .ok () new ∧
        inserted[place items.length (insertions.map Prod.fst) i]? = some new := by
  induction insertions generalizing inserted with
  | nil =>
    cases h
    exact ⟨rfl, nofun⟩
  | cons e insertions ih =>
    obtain ⟨k, first⟩ := e
    rw [List.reverse_cons, runAll_append_eq_ok] at h
    obtain ⟨mid, hmid, hfirst⟩ := h
    rw [runAll_singleton] at hfirst
    obtain ⟨hlength, hplaces⟩ := ih hmid
    obtain ⟨hlength', hnew, hmoved⟩ := insertion_spec hfirst
    have hpos : min k mid.length = min k (items.length + (insertions.map Prod.fst).length) := by
      rw [hlength, List.length_map]
    rw [hpos] at hnew hmoved
    refine ⟨by rw [hlength', hlength, List.length_cons, Nat.add_assoc], fun i task hi => ?_⟩
    rw [find?_cons] at hi
    rw [List.map_cons]
    split at hi
    case isTrue hik =>
      cases hi
      rw [hik, place_cons_self]
      exact hnew
    case isFalse hik =>
      obtain ⟨new, hnew, hplace⟩ := hplaces i task hi
      rw [place_cons_of_ne hik]
      exact ⟨new, hnew, hmoved _ _ hplace⟩

/-- Appending leaves the elements before it where they are. -/
theorem getElem?_of_runAll_append {p : Nat} {v : Value} (h : runAll append tasks items = .ok () result)
    (hv : items[p]? = some v) : result[p]? = some v := by
  induction tasks generalizing items with
  | nil =>
    cases h
    exact hv
  | cons task tasks ih =>
    rw [runAll] at h
    cases happend : append task items with
    | error e reached => simp [happend] at h
    | ok _ mid =>
      rw [happend] at h
      obtain ⟨new, -, rfl⟩ := append_eq_ok.1 happend
      refine ih h ?_
      rw [List.getElem?_append_left (List.getElem?_eq_some_iff.1 hv).1, hv]

end Inserting

/-! ## Insertions of a patch -/

/-- A member of an array edit inserts at an index: the one it names, counted from the end of the array as it is where it
is negative, and the start where it is below that. -/
def insertsAt (items : List Value) (i : Nat) (e : Key × Value) : Bool :=
  match Directive.ofKey e.1 e.2 with
  | .ok (.insert k) => (if k < 0 then max 0 (k + items.length) else k) = i
  | _ => false

section Patches

variable {patch : Members} {items : List Value} {i : Nat}

/-- A member inserts at one index. -/
theorem eq_of_insertsAt {e : Key × Value} {j : Nat} (hi : insertsAt items i e = true)
    (hj : insertsAt items j e = true) : i = j := by
  unfold insertsAt at hi hj
  split at hi
  case h_1 k hk =>
    rw [hk] at hj
    exact Int.ofNat.inj ((of_decide_eq_true hi).symm.trans (of_decide_eq_true hj))
  case h_2 => cases hi

theorem inserts_eq_insertsAt (e : Key × Value) :
    Task.inserts items i ⟨e.1, e.2, merge e.2⟩ = insertsAt items i e := by
  unfold Task.inserts Task.directive? insertsAt
  dsimp only
  cases Directive.ofKey e.1 e.2 with
  | error cause => rfl
  | ok d =>
    rw [Except.toOption, Option.any_some]
    cases d with
    | insert k => simp only [Directive.inserted, List.mem_singleton, position_eq_iff]
    | _ => rfl

section Planned

variable {plan : Plan} (hplan : Plan.ofTasks items .empty (tasks patch) = .ok plan)

include hplan

theorem find?_insertions (i : Nat) : find? i plan.insertions =
    (patch.find? (insertsAt items i)).map fun e => ⟨e.1, e.2, merge e.2⟩ := by
  rw [Plan.find?_insertions_ofTasks hplan, find?_tasks_of inserts_eq_insertsAt]
  rfl

theorem pairwise_insertions : (plan.insertions.map Prod.fst).Pairwise (· < ·) :=
  (Plan.ascending_field_ofTasks Plan.queue_insertions_of_add hplan List.Pairwise.nil).imp Nat.compare_eq_lt.1

theorem mem_insertions_iff : i ∈ plan.insertions.map Prod.fst ↔ ∃ e ∈ patch, insertsAt items i e = true := by
  rw [← List.find?_isSome, ← isSome_find?_iff, find?_insertions hplan, Option.isSome_map]

/-- Members that insert at the same index have equal values. -/
theorem eq_or_beq_of_insertsAt {e first : Key × Value} (he : e ∈ patch) (hinserts : insertsAt items i e = true)
    (hfirst : patch.find? (insertsAt items i) = some first) : first.2 = e.2 ∨ (first.2 == e.2) = true := by
  rw [← inserts_eq_insertsAt] at hinserts
  exact eq_or_beq_of_queued (find?_insertions hplan i) (Plan.exists_of_mem_insertions hplan (mem_tasks he) hinserts)
    hfirst

end Planned

/-- The patch inserts at `indexes`, and what the first member for an index inserts, made from null, stands in the result
at the place that the indexes give it in what is left of the elements; other members for the index say the same. -/
structure InsertedAt (patch : Members) (items : List Value) (indexes : List Nat) (result : List Value) : Prop where
  sorted : indexes.Pairwise (· < ·)
  mem_iff : ∀ i, i ∈ indexes ↔ ∃ e ∈ patch, insertsAt items i e = true
  alike : ∀ i e first, e ∈ patch → insertsAt items i e = true → patch.find? (insertsAt items i) = some first →
    first.2 = e.2 ∨ (first.2 == e.2) = true
  stands : ∀ i e, patch.find? (insertsAt items i) = some e → ∃ new, merge e.2 .null = .ok () new ∧
    result[place (remaining patch items).length indexes i]? = some new

theorem insertedAt_of_stages {plan : Plan} {inserted result : List Value}
    (hplan : Plan.ofTasks items .empty (tasks patch) = .ok plan)
    (hinsert : runAll insertion plan.insertions.reverse (remaining patch items) = .ok () inserted)
    (happend : runAll append plan.appended inserted = .ok () result) :
    InsertedAt patch items (plan.insertions.map Prod.fst) result := by
  refine ⟨pairwise_insertions hplan, fun i => mem_insertions_iff hplan, fun i e first he =>
    eq_or_beq_of_insertsAt hplan he, fun i e hfirst => ?_⟩
  have htask : find? i plan.insertions = some ⟨e.1, e.2, merge e.2⟩ := by
    rw [find?_insertions hplan, hfirst]
    rfl
  obtain ⟨new, hnew, hplace⟩ := (runAll_insertion_spec hinsert).2 i _ htask
  exact ⟨new, hnew, getElem?_of_runAll_append happend hplace⟩

/-- A patch of directives that succeeds on an array leaves the value inserted at a lower index before the one inserted
at a higher index, unless the lower index lies past the end of the array that the latter is inserted into: what is left
of the elements, with the values for still higher indexes. -/
theorem insertions_in_order {v' : Value} (hkind : kind patch = .arrayEdit)
    (h : merge (.map patch) (.arr items) = .ok () v') : ∃ result indexes, v' = .arr result ∧
      InsertedAt patch items indexes result ∧ ∀ i ∈ indexes, ∀ j ∈ indexes, i < j →
        let size := (remaining patch items).length
        (i ≤ size + indexes.countP (j < ·) → place size indexes i < place size indexes j) ∧
          (size + indexes.countP (j < ·) < i → place size indexes j < place size indexes i) := by
  obtain ⟨result, hrun, rfl⟩ := (merge_arr_eq_ok hkind).1 h
  obtain ⟨plan, edited, inserted, hplan, hedit, hinsert, happend⟩ := editArray_eq_ok.1 hrun
  obtain rfl := eq_remaining_of_runAll hplan hedit
  have hinserted := insertedAt_of_stages hplan hinsert happend
  exact ⟨result, _, rfl, hinserted, fun i hi j hj => place_order hinserted.sorted hi hj⟩

/-- Insertions at the start, counted from the end, at the end that an erasure leaves, and twice past it, where the one
at the higher index comes first. -/
theorem insertions_in_order_past_the_end :
    let patch : Members := [(.str "$+[-3]", .str "a"), (.str "$+[2]", .str "b"), (.str "$+[4]", .str "c"),
      (.str "$+[5]", .str "d"), (.str "$[1]", .null)]
    let items : List Value := [.int 1, .int 2, .int 3]
    let result : List Value := [.str "a", .int 1, .int 3, .str "b", .str "d", .str "c"]
    kind patch = .arrayEdit ∧ merge (.map patch) (.arr items) = .ok () (.arr result) ∧ ∃ indexes,
      InsertedAt patch items indexes result ∧ place 2 indexes 0 < place 2 indexes 2 ∧
        place 2 indexes 2 < place 2 indexes 4 ∧ place 2 indexes 5 < place 2 indexes 4 := by
  intro patch items result
  have hkind : kind patch = .arrayEdit := by decide
  have hmerge : merge (.map patch) (.arr items) = .ok () (.arr result) := rfl
  have hremaining : remaining patch items = [.int 1, .int 3] := rfl
  obtain ⟨_, indexes, ⟨⟩, hinserted, horder⟩ := insertions_in_order hkind hmerge
  rw [hremaining] at horder
  have h0 : 0 ∈ indexes := (hinserted.mem_iff 0).2 ⟨(.str "$+[-3]", .str "a"), by simp [patch], rfl⟩
  have h2 : 2 ∈ indexes := (hinserted.mem_iff 2).2 ⟨(.str "$+[2]", .str "b"), by simp [patch], rfl⟩
  have h4 : 4 ∈ indexes := (hinserted.mem_iff 4).2 ⟨(.str "$+[4]", .str "c"), by simp [patch], rfl⟩
  have h5 : 5 ∈ indexes := (hinserted.mem_iff 5).2 ⟨(.str "$+[5]", .str "d"), by simp [patch], rfl⟩
  have hnone : indexes.countP (5 < ·) = 0 := by
    refine List.countP_eq_zero.2 fun i hi => ?_
    obtain ⟨e, he, hi⟩ := (hinserted.mem_iff i).1 hi
    have of_index {k : Nat} (hk : insertsAt items k e = true) (hle : k ≤ 5) : i ≤ 5 := eq_of_insertsAt hi hk ▸ hle
    have hle : i ≤ 5 := by
      simp only [patch, List.mem_cons, List.not_mem_nil, or_false] at he
      obtain rfl | rfl | rfl | rfl | rfl := he
      · exact of_index (k := 0) rfl (by decide)
      · exact of_index (k := 2) rfl (by decide)
      · exact of_index (k := 4) rfl (by decide)
      · exact of_index (k := 5) rfl (by decide)
      · cases hi
    simpa using hle
  refine ⟨hkind, hmerge, indexes, hinserted, ?_, ?_, ?_⟩
  · exact (horder 0 h0 2 h2 (by decide)).1 (Nat.zero_le _)
  · exact (horder 2 h2 4 h4 (by decide)).1 (Nat.le_add_right _ _)
  · exact (horder 4 h4 5 h5 (by decide)).2 (by rw [hnone]; decide)

/-- Of two values inserted past the end the one for the higher index comes first. -/
theorem not_insertions_in_order :
    let patch : Members := [(.str "$+[5]", .str "a"), (.str "$+[6]", .str "b")]
    kind patch = .arrayEdit ∧ patch.find? (insertsAt [] 5) = some (.str "$+[5]", .str "a") ∧
      patch.find? (insertsAt [] 6) = some (.str "$+[6]", .str "b") ∧
      merge (.map patch) (.arr []) = .ok () (.arr [.str "b", .str "a"]) ∧
      ¬ [Value.str "a", .str "b"].Sublist [.str "b", .str "a"] := by
  refine ⟨by decide, rfl, rfl, rfl, fun h => ?_⟩
  simpa using h.eq_of_length rfl

end Patches

end RecordStore.Patch
