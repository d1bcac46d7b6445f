import RecordStore.Proofs.Patch.Insertions

/-!
# Insertions counted from the end

A negative index is an absolute one once the directive is read: it counts from the end of the array as it is before
elements are edited and erased. An insertion at the `k`-th place from the end is therefore followed by `k` elements only
where nothing is erased; each element erased, before the place or behind it, leaves one less behind the new one, down to
none (`insertion_from_the_end`).
-/

namespace RecordStore.Patch

open Entries

/-- How many elements an array edit erases. -/
def erased (patch : Members) (items : List Value) : Nat := (items.mapIdx (left patch items)).countP Option.isNone

theorem length_remaining_add_erased (patch : Members) (items : List Value) :
    (remaining patch items).length + erased patch items = items.length := by
  have hsplit := List.length_eq_countP_add_countP Option.isSome (l := items.mapIdx (left patch items))
  simp only [Bool.not_eq_true, Option.isSome_eq_false_iff, Bool.decide_eq_true, List.length_mapIdx] at hsplit
  rw [remaining, List.reduceOption_length_eq, ← List.countP_eq_length_filter, erased, hsplit]

/-- The member edits or erases elements. -/
def isEdition (e : Key × Value) : Bool :=
  match Directive.ofKey e.1 e.2 with
  | .ok (.edit _) | .ok (.editMatching _) => true
  | _ => false

section Editions

variable {e : Key × Value} {items : List Value}

theorem insertsAt_eq_false_of_isEdition (h : isEdition e = true) (i : Nat) : insertsAt items i e = false := by
  unfold isEdition at h
  unfold insertsAt
  split at h
  case h_1 _ hd | h_2 _ hd => rw [hd]
  case h_3 => cases h

theorem task_appends_eq {d : Directive} (h : Directive.ofKey e.1 e.2 = .ok d) :
    Task.appends items ⟨e.1, e.2, merge e.2⟩ = d.appends items :=
  @Task.appends_of_ofKey ⟨e.1, e.2, merge e.2⟩ d h items

theorem appends_eq_false_of_isEdition (h : isEdition e = true) :
    Task.appends items ⟨e.1, e.2, merge e.2⟩ = false := by
  unfold isEdition at h
  split at h
  case h_1 _ hd | h_2 _ hd => exact task_appends_eq hd
  case h_3 => cases h

end Editions

/-! ## One insertion -/

/-- The member inserts at an index, and every other one edits or erases elements. -/
structure OneInsertion (patch : Members) (e : Key × Value) (index : Int) : Prop where
  mem : e ∈ patch
  inserts : Directive.ofKey e.1 e.2 = .ok (.insert index)
  others : ∀ e' ∈ patch, e' = e ∨ isEdition e' = true

namespace OneInsertion

variable {patch : Members} {items result : List Value} {e : Key × Value} {index : Int} {plan : Plan}
  (h : OneInsertion patch e index)

include h

theorem insertsAt_position : insertsAt items (position items.length index) e = true := by
  rw [insertsAt, h.inserts]
  exact decide_eq_true (position_eq_iff.1 rfl)

theorem eq_of_insertsAt {e' : Key × Value} {i : Nat} (he' : e' ∈ patch) (hi : insertsAt items i e' = true) :
    e' = e ∧ i = position items.length index := by
  obtain rfl | hedition := h.others e' he'
  · exact ⟨rfl, Patch.eq_of_insertsAt hi h.insertsAt_position⟩
  · cases hi.symm.trans (insertsAt_eq_false_of_isEdition hedition i)

/-- The plan inserts once, and appends nothing. -/
theorem plan_eq (hplan : Plan.ofTasks items .empty (tasks patch) = .ok plan) :
    plan.insertions = [(position items.length index, ⟨e.1, e.2, merge e.2⟩)] ∧ plan.appended = [] := by
  constructor
  · have hkey {i : Nat} (hi : i ∈ plan.insertions.map Prod.fst) : i = position items.length index := by
      obtain ⟨e', he', hinserts⟩ := (mem_insertions_iff hplan).1 hi
      exact (h.eq_of_insertsAt he' hinserts).2
    have hfirst : patch.find? (insertsAt items (position items.length index)) = some e := by
      obtain ⟨first, hfirst⟩ := Option.isSome_iff_exists.1 (List.find?_isSome.2 ⟨e, h.mem, h.insertsAt_position⟩)
      rw [hfirst, (h.eq_of_insertsAt (List.mem_of_find?_eq_some hfirst) (List.find?_some hfirst)).1]
    have hfind := find?_insertions hplan (position items.length index)
    have hsorted := pairwise_insertions hplan
    rw [hfirst, Option.map_some] at hfind
    cases hinsertions : plan.insertions with
    | nil =>
      rw [hinsertions] at hfind
      cases hfind
    | cons first insertions =>
      obtain ⟨i, task⟩ := first
      rw [hinsertions] at hkey hfind hsorted
      obtain rfl : i = position items.length index := hkey List.mem_cons_self
      rw [find?_cons, if_pos rfl] at hfind
      cases hfind
      cases insertions with
      | nil => rfl
      | cons second insertions =>
        -- the keys ascend, and all are the one index
        have hlt := (List.pairwise_cons.1 hsorted).1 second.1 List.mem_cons_self
        exact absurd (hkey (.tail _ List.mem_cons_self)) (Nat.ne_of_gt hlt)
  · have hnone : ∀ task ∈ tasks patch, ¬ task.appends items = true := by
      intro task htask
      rw [tasks_eq_map] at htask
      obtain ⟨e', he', rfl⟩ := List.mem_map.1 htask
      obtain rfl | hedition := h.others e' he'
      · rw [task_appends_eq h.inserts]
        exact Bool.false_ne_true
      · rw [appends_eq_false_of_isEdition hedition]
        exact Bool.false_ne_true
    rw [Plan.appended_ofTasks hplan, List.filter_eq_nil_iff.2 hnone]
    rfl

/-- The new element, made from null, stands at the position that the index has in the array as it was, or at the end of
what is left of the elements. -/
theorem result_eq (hrun : editArray (tasks patch) items = .ok () result) : ∃ new, merge e.2 .null = .ok () new ∧
    (remaining patch items).insertIdx (min (position items.length index) (remaining patch items).length) new =
      result := by
  obtain ⟨plan, edited, inserted, hplan, hedit, hinsert, happend⟩ := editArray_eq_ok.1 hrun
  obtain rfl := eq_remaining_of_runAll hplan hedit
  obtain ⟨hinsertions, happended⟩ := h.plan_eq hplan
  rw [hinsertions, List.reverse_singleton, runAll_singleton] at hinsert
  rw [happended] at happend
  cases happend
  exact insertion_eq_ok.1 hinsert

end OneInsertion

/-! ## Behind the inserted element -/

section Behind

theorem insertIdx_length_append (front back : List Value) (new : Value) :
    (front ++ back).insertIdx front.length new = front ++ new :: back := by
  induction front with
  | nil => rfl
  | cons v front ih => rw [List.cons_append, List.length_cons, List.insertIdx_succ_cons, ih, List.cons_append]

variable {patch : Members} {items : List Value} {e : Key × Value} {k : Nat} {v' : Value}

/-- A patch that edits and erases elements and inserts once, at the `k`-th place from the end, leaves what is left of
the elements with the new one among them, followed by `k` of them less as many as are erased. -/
theorem insertion_from_the_end (hkind : kind patch = .arrayEdit) (honce : OneInsertion patch e (-k)) (hpos : 1 ≤ k)
    (hle : k ≤ (remaining patch items).length) (h : merge (.map patch) (.arr items) = .ok () v') :
    ∃ front new back, v' = .arr (front ++ new :: back) ∧ merge e.2 .null = .ok () new ∧
      front ++ back = remaining patch items ∧ back.length = k - erased patch items := by
  obtain ⟨result, hrun, rfl⟩ := (merge_arr_eq_ok hkind).1 h
  obtain ⟨new, hnew, rfl⟩ := honce.result_eq hrun
  have hlength := length_remaining_add_erased patch items
  have hposition : position items.length (-k) = items.length - k := by
    rw [position, if_pos (by omega)]
    omega
  obtain ⟨front, back, happend, hfront⟩ : ∃ front back, front ++ back = remaining patch items ∧
      front.length = min (position items.length (-k)) (remaining patch items).length :=
    ⟨_, _, List.take_append_drop (position items.length (-k)) _, List.length_take⟩
  refine ⟨front, new, back, ?_, hnew, happend, ?_⟩
  · rw [← hfront, ← happend, insertIdx_length_append]
  · rw [← happend, List.length_append] at hfront hlength hle
    omega

/-- One of four elements is erased, one of the two before which the new one is to stand. -/
theorem insertion_from_the_end_erased :
    let patch : Members := [(.str "$+[-2]", .str "x"), (.str "$[-1]", .null), (.str "$[0]", .int 5)]
    let items : List Value := [.int 1, .int 2, .int 3, .int 4]
    (kind patch = .arrayEdit ∧ OneInsertion patch (.str "$+[-2]", .str "x") (-2) ∧
      2 ≤ (remaining patch items).length ∧
      merge (.map patch) (.arr items) = .ok () (.arr [.int 5, .int 2, .str "x", .int 3])) ∧
      ∃ front new back, Value.arr [.int 5, .int 2, .str "x", .int 3] = .arr (front ++ new :: back) ∧
        merge (.str "x") .null = .ok () new ∧ front ++ back = remaining patch items ∧ back.length = 1 := by
  intro patch items
  have hkind : kind patch = .arrayEdit := by decide
  have honce : OneInsertion patch (.str "$+[-2]", .str "x") (-2) := by
    refine ⟨List.mem_cons_self, rfl, fun e' he' => ?_⟩
    simp only [patch, List.mem_cons, List.not_mem_nil, or_false] at he'
    obtain rfl | rfl | rfl := he'
    · exact .inl rfl
    · exact .inr rfl
    · exact .inr rfl
  have hle : 2 ≤ (remaining patch items).length := by decide
  have hmerge : merge (.map patch) (.arr items) = .ok () (.arr [.int 5, .int 2, .str "x", .int 3]) := rfl
  exact ⟨⟨hkind, honce, hle, hmerge⟩, insertion_from_the_end hkind honce (by decide) hle hmerge⟩

/-- Where the first of three elements is erased, the one behind the place comes to stand before the new one. -/
theorem not_followed_from_the_end :
    let patch : Members := [(.str "$+[-1]", .str "x"), (.str "$[0]", .null)]
    let items : List Value := [.int 1, .int 2, .int 3]
    kind patch = .arrayEdit ∧ OneInsertion patch (.str "$+[-1]", .str "x") (-1) ∧
      1 ≤ (remaining patch items).length ∧
      merge (.map patch) (.arr items) = .ok () (.arr [.int 2, .int 3, .str "x"]) ∧
      ¬ ∃ front back, [.int 2, .int 3, .str "x"] = front ++ Value.str "x" :: back ∧ back.length = 1 := by
  refine ⟨by decide, ⟨List.mem_cons_self, rfl, fun e' he' => ?_⟩, by decide, rfl, ?_⟩
  · simp only [List.mem_cons, List.not_mem_nil, or_false] at he'
    obtain rfl | rfl := he'
    · exact .inl rfl
    · exact .inr rfl
  · rintro ⟨front, back, heq, hback⟩
    match front with
    | [] | [_] => cases heq
    | [_, _] =>
      cases heq
      cases hback
    | _ :: _ :: _ :: front =>
      have hlength := congrArg List.length heq
      simp at hlength

end Behind

end RecordStore.Patch
