import Mathlib.Data.List.ReduceOption
import RecordStore.Proofs.Patch.Merging
import RecordStore.Proofs.Value.Equality

/-!
# Array edits as if made at once

Edits and erasures are carried out one after another in an array that shrinks on the way, and yet what becomes of an
element is known from the array as it was: the first member that addresses its position says it (`left`), and the array
before insertions is what is left of the elements, in their order (`EditsTo.eq_reduceOption`). Behind the end of the
array only erasures can stand (`null_of_edits_behind`), and one of these may as well be left out: a plan with it and one
without it are alike on the array (`Plan.Alike`, `editArray_without_iff`). `edits_at_once` puts this together.
-/

namespace RecordStore.Patch

open Entries

section Carrying

variable {items : List Value} {task : Task} {tasks : List Task}

/-! ## Tasks for one position -/

namespace Plan

variable {conflict : Nat → Cause} {queued queued' : List (Nat × Task)} {positions : List Nat} {plan plan' : Plan}
  {pos i : Nat}

/-- Where a task was queued there is one with an equal value. -/
theorem exists_of_mem_queueAll (h : positions.foldlM (queue conflict task) queued = .ok queued')
    (hpos : pos ∈ positions) :
    ∃ first, find? pos queued' = some first ∧ (first = task ∨ (first.value == task.value) = true) := by
  induction positions generalizing queued with
  | nil => cases hpos
  | cons p positions ih =>
    obtain ⟨mid, hmid, hrest⟩ := queueAll_cons_eq_ok.1 h
    rcases List.mem_cons.1 hpos with rfl | hpos
    · rw [find?_queueAll hrest]
      obtain ⟨-, rfl⟩ | ⟨other, hother, hvalue, rfl⟩ := queue_eq_ok.1 hmid
      · exact ⟨task, by rw [find?_insert, if_pos rfl, Option.some_or], .inl rfl⟩
      · exact ⟨other, by rw [hother, Option.some_or], .inr hvalue⟩
    · exact ih hrest hpos

/-- In a part of the plan that tasks are queued in, a position that a task asks for has a task with an equal value. -/
theorem exists_of_mem_field {field : Plan → List (Nat × Task)} {conflict : Nat → Cause} {asked : Directive → List Nat}
    (hadd : ∀ {plan plan' task d}, add items plan task = .ok plan' → Directive.ofKey task.key task.value = .ok d →
      (asked d).foldlM (queue conflict task) (field plan) = .ok (field plan'))
    (h : ofTasks items plan tasks = .ok plan') (htask : task ∈ tasks)
    (hi : task.directive?.any (fun d => i ∈ asked d) = true) :
    ∃ first, find? i (field plan') = some first ∧ (first = task ∨ (first.value == task.value) = true) := by
  induction tasks generalizing plan with
  | nil => cases htask
  | cons t tasks ih =>
    obtain ⟨mid, hmid, hrest⟩ := ofTasks_cons_eq_ok.1 h
    rcases List.mem_cons.1 htask with rfl | htask
    · obtain ⟨d, hd, -⟩ := add_eq_ok.1 hmid
      rw [Task.directive?_eq_some_iff.2 hd, Option.any_some, decide_eq_true_eq] at hi
      obtain ⟨first, hfirst, hvalue⟩ := exists_of_mem_queueAll (hadd hmid hd) hi
      exact ⟨first, by rw [find?_field_ofTasks hadd hrest, hfirst, Option.some_or], hvalue⟩
    · exact ih hrest htask

theorem exists_of_mem_edits (h : ofTasks items plan tasks = .ok plan') (htask : task ∈ tasks)
    (hi : task.edits items i = true) :
    ∃ first, find? i plan'.edits = some first ∧ (first = task ∨ (first.value == task.value) = true) :=
  exists_of_mem_field queue_edits_of_add h htask hi

theorem exists_of_mem_insertions (h : ofTasks items plan tasks = .ok plan') (htask : task ∈ tasks)
    (hi : task.inserts items i = true) :
    ∃ first, find? i plan'.insertions = some first ∧ (first = task ∨ (first.value == task.value) = true) :=
  exists_of_mem_field queue_insertions_of_add h htask hi

end Plan

/-- In an array edit that succeeds, what addresses a position behind the end is null. -/
theorem null_of_edits_behind {i : Nat} {result : List Value} (h : editArray tasks items = .ok () result)
    (htask : task ∈ tasks) (hi : items.length ≤ i) (hedits : task.edits items i = true) : task.value = .null := by
  obtain ⟨plan, edited, -, hplan, hrun, -⟩ := editArray_eq_ok.1 h
  obtain ⟨hbehind, -⟩ := (runAll_edit_ofTasks_eq_ok hplan).1 hrun
  obtain ⟨first, hfirst, heq⟩ := Plan.exists_of_mem_edits hplan htask hedits
  have hnull : first.value = .null := hbehind (i, first) (mem_of_find? hfirst) hi
  obtain rfl | heq := heq
  · exact hnull
  · rw [hnull, Value.beq_comm] at heq
    exact Value.eq_null_of_beq heq

/-! ## Behind the end -/

/-- A selector addresses elements that are there, so what addresses a position behind the end is an index. -/
theorem edit_of_edits_behind {i : Nat} (hi : items.length ≤ i) (hedits : task.edits items i = true) :
    ∃ k, Directive.ofKey task.key task.value = .ok (.edit k) ∧ position items.length k = i := by
  cases hd : task.directive? with
  | none => simp [Task.edits, hd] at hedits
  | some d =>
    rw [Task.directive?_eq_some_iff] at hd
    rw [Task.edits_of_ofKey hd, decide_eq_true_eq] at hedits
    cases d with
    | edit k => exact ⟨k, hd, (List.mem_singleton.1 hedits).symm⟩
    | editMatching selector =>
      rw [Directive.edited, mem_matchingFrom_zero, List.getElem?_eq_none hi] at hedits
      cases hedits
    | _ => cases hedits

namespace Plan

/-- Queued edits that say the same of the positions below `n`, and only erase from there on. -/
structure AlikeEdits (n : Nat) (queued queued' : List (Nat × Task)) : Prop where
  below : ∀ i < n, find? i queued = find? i queued'
  erases : ∀ e ∈ queued, n ≤ e.1 → e.2.value = .null
  erases' : ∀ e ∈ queued', n ≤ e.1 → e.2.value = .null

/-- Plans that do the same to the first `n` elements, and insert and append the same. -/
structure Alike (n : Nat) (plan plan' : Plan) : Prop where
  edits : AlikeEdits n plan.edits plan'.edits
  insertions : plan.insertions = plan'.insertions
  appended : plan.appended = plan'.appended

variable {n pos : Nat} {conflict : Nat → Cause} {queued queued' result : List (Nat × Task)} {positions : List Nat}
  {plan plan' final : Plan}

theorem AlikeEdits.symm (h : AlikeEdits n queued queued') : AlikeEdits n queued' queued :=
  ⟨fun i hi => (h.below i hi).symm, h.erases', h.erases⟩

theorem Alike.symm (h : Alike n plan plan') : Alike n plan' plan :=
  ⟨h.edits.symm, h.insertions.symm, h.appended.symm⟩

theorem alike_empty (n : Nat) : Alike n .empty .empty := ⟨⟨fun _ _ => rfl, nofun, nofun⟩, rfl, rfl⟩

theorem AlikeEdits.insert_behind (h : AlikeEdits n queued queued') (hpos : n ≤ pos) (hnull : task.value = .null) :
    AlikeEdits n (insert pos task queued) queued' := by
  refine ⟨fun i hi => ?_, fun e he hle => ?_, h.erases'⟩
  · rw [find?_insert, if_neg (by omega), h.below i hi]
  · rcases mem_insert he with rfl | he
    · exact hnull
    · exact h.erases e he hle

theorem AlikeEdits.insert_below (h : AlikeEdits n queued queued') (hpos : pos < n) :
    AlikeEdits n (insert pos task queued) (insert pos task queued') := by
  have erases {queued : List (Nat × Task)} (h : ∀ e ∈ queued, n ≤ e.1 → e.2.value = .null) :
      ∀ e ∈ insert pos task queued, n ≤ e.1 → e.2.value = .null := by
    intro e he hle
    rcases mem_insert he with rfl | he
    · exact absurd hpos (Nat.not_lt.2 hle)
    · exact h e he hle
  refine ⟨fun i hi => ?_, erases h.erases, erases h.erases'⟩
  rw [find?_insert, find?_insert, h.below i hi]

/-- An erasure behind the end meets erasures only, so it is queued or there is one already. -/
theorem exists_queue_behind (herases : ∀ e ∈ queued, n ≤ e.1 → e.2.value = .null) (hpos : n ≤ pos)
    (hnull : task.value = .null) : ∃ result, queue conflict task queued pos = .ok result := by
  cases hfind : find? pos queued with
  | none => exact ⟨_, queue_eq_ok.2 (.inl ⟨hfind, rfl⟩)⟩
  | some other =>
    have hother : other.value = .null := herases (pos, other) (mem_of_find? hfind) hpos
    exact ⟨_, queue_eq_ok.2 (.inr ⟨other, hfind, by rw [hother, hnull]; rfl, rfl⟩)⟩

theorem AlikeEdits.queue_behind (h : AlikeEdits n queued queued') (hpos : n ≤ pos) (hnull : task.value = .null)
    (hqueue : queue conflict task queued pos = .ok result) : AlikeEdits n result queued' := by
  obtain ⟨-, rfl⟩ | ⟨-, -, -, rfl⟩ := queue_eq_ok.1 hqueue
  · exact h.insert_behind hpos hnull
  · exact h

theorem AlikeEdits.queue (h : AlikeEdits n queued queued') (hnull : n ≤ pos → task.value = .null)
    (hqueue : queue conflict task queued pos = .ok result) :
    ∃ result', queue conflict task queued' pos = .ok result' ∧ AlikeEdits n result result' := by
  by_cases hpos : pos < n
  · obtain ⟨hnone, rfl⟩ | ⟨other, hother, hvalue, rfl⟩ := queue_eq_ok.1 hqueue
    · rw [h.below pos hpos] at hnone
      exact ⟨_, queue_eq_ok.2 (.inl ⟨hnone, rfl⟩), h.insert_below hpos⟩
    · rw [h.below pos hpos] at hother
      exact ⟨_, queue_eq_ok.2 (.inr ⟨other, hother, hvalue, rfl⟩), h⟩
  · rw [Nat.not_lt] at hpos
    obtain ⟨result', hqueue'⟩ : ∃ result', Plan.queue conflict task queued' pos = .ok result' :=
      exists_queue_behind h.erases' hpos (hnull hpos)
    have halike := (h.queue_behind hpos (hnull hpos) hqueue).symm
    exact ⟨result', hqueue', (halike.queue_behind hpos (hnull hpos) hqueue').symm⟩

theorem AlikeEdits.queueAll (h : AlikeEdits n queued queued') (hnull : ∀ i ∈ positions, n ≤ i → task.value = .null)
    (hqueue : positions.foldlM (Plan.queue conflict task) queued = .ok result) :
    ∃ result', positions.foldlM (Plan.queue conflict task) queued' = .ok result' ∧ AlikeEdits n result result' := by
  induction positions generalizing queued queued' with
  | nil =>
    cases hqueue
    exact ⟨queued', rfl, h⟩
  | cons pos positions ih =>
    obtain ⟨hpos, hnull⟩ := List.forall_mem_cons.1 hnull
    obtain ⟨mid, hmid, hrest⟩ := queueAll_cons_eq_ok.1 hqueue
    obtain ⟨mid', hmid', hmids⟩ := h.queue hpos hmid
    obtain ⟨result', hrest', hresults⟩ := ih hmids hnull hrest
    exact ⟨result', queueAll_cons_eq_ok.2 ⟨mid', hmid', hrest'⟩, hresults⟩

theorem Alike.add (h : Alike n plan plan') (hnull : ∀ i, n ≤ i → task.edits items i = true → task.value = .null)
    (hadd : add items plan task = .ok final) :
    ∃ final', add items plan' task = .ok final' ∧ Alike n final final' := by
  obtain ⟨d, hd, hedits, hinsertions, happended⟩ := add_eq_ok.1 hadd
  have hnull : ∀ i ∈ d.edited items, n ≤ i → task.value = .null := fun i hi hle =>
    hnull i hle (by rw [Task.edits_of_ofKey hd, decide_eq_true hi])
  obtain ⟨edits, hedits, halike⟩ := h.edits.queueAll hnull hedits
  rw [h.insertions] at hinsertions
  rw [h.appended] at happended
  exact ⟨⟨edits, final.insertions, final.appended⟩, add_eq_ok.2 ⟨d, hd, hedits, hinsertions, happended⟩,
    halike, rfl, rfl⟩

theorem Alike.ofTasks (h : Alike n plan plan')
    (hnull : ∀ t ∈ tasks, ∀ i, n ≤ i → t.edits items i = true → t.value = .null)
    (htasks : ofTasks items plan tasks = .ok final) :
    ∃ final', ofTasks items plan' tasks = .ok final' ∧ Alike n final final' := by
  induction tasks generalizing plan plan' with
  | nil =>
    cases htasks
    exact ⟨plan', rfl, h⟩
  | cons t tasks ih =>
    obtain ⟨ht, hnull⟩ := List.forall_mem_cons.1 hnull
    obtain ⟨mid, hmid, hrest⟩ := ofTasks_cons_eq_ok.1 htasks
    obtain ⟨mid', hmid', hmids⟩ := h.add ht hmid
    obtain ⟨final', hrest', hfinals⟩ := ih hmids hnull hrest
    exact ⟨final', ofTasks_cons_eq_ok.2 ⟨mid', hmid', hrest'⟩, hfinals⟩

theorem ofTasks_append_eq_ok {rest : List Task} : ofTasks items plan (tasks ++ rest) = .ok final ↔
    ∃ mid, ofTasks items plan tasks = .ok mid ∧ ofTasks items mid rest = .ok final := by
  induction tasks generalizing plan with
  | nil => simp [ofTasks]
  | cons t tasks ih =>
    rw [List.cons_append, ofTasks, ofTasks]
    cases add items plan t with
    | error e => simp
    | ok plan => exact ih

theorem Alike.add_behind (h : Alike items.length plan plan) {i : Nat} (hi : items.length ≤ i)
    (hedits : task.edits items i = true) (hnull : task.value = .null) :
    ∃ final, Plan.add items plan task = .ok final ∧ Alike items.length final plan := by
  obtain ⟨k, hd, rfl⟩ := edit_of_edits_behind hi hedits
  obtain ⟨edits, hqueue⟩ : ∃ edits, queue .severalEditions task plan.edits (position items.length k) = .ok edits :=
    exists_queue_behind h.edits.erases hi hnull
  refine ⟨⟨edits, plan.insertions, plan.appended⟩, add_eq_ok.2 ⟨.edit k, hd, ?_, rfl, List.append_nil _⟩, ?_, rfl, rfl⟩
  · exact queueAll_cons_eq_ok.2 ⟨edits, hqueue, rfl⟩
  · exact h.edits.queue_behind hi hnull hqueue

/-- What was planned of erasures and of edits of elements is alike to itself. -/
theorem alike_self_of_ofTasks (hnull : ∀ t ∈ tasks, ∀ i, n ≤ i → t.edits items i = true → t.value = .null)
    (htasks : ofTasks items .empty tasks = .ok plan) : Alike n plan plan := by
  obtain ⟨plan', hplan', halike⟩ := (alike_empty n).ofTasks hnull htasks
  cases htasks.symm.trans hplan'
  exact halike

section Without

variable {before after : List Task} {i : Nat} (hi : items.length ≤ i) (hedits : task.edits items i = true)
  (hnull : task.value = .null)
  (hothers : ∀ t ∈ before ++ after, ∀ i, items.length ≤ i → t.edits items i = true → t.value = .null)

include hi hedits hnull hothers

theorem exists_alike_without (h : ofTasks items .empty (before ++ task :: after) = .ok plan) :
    ∃ plan', ofTasks items .empty (before ++ after) = .ok plan' ∧ Alike items.length plan plan' := by
  obtain ⟨hbefore, hafter⟩ := List.forall_mem_append.1 hothers
  obtain ⟨mid, hmid, h⟩ := ofTasks_append_eq_ok.1 h
  obtain ⟨added, hadded, hrest⟩ := ofTasks_cons_eq_ok.1 h
  obtain ⟨added', hadded', halike⟩ := (alike_self_of_ofTasks hbefore hmid).add_behind hi hedits hnull
  cases hadded.symm.trans hadded'
  obtain ⟨plan', hplan', hplans⟩ := halike.ofTasks hafter hrest
  exact ⟨plan', ofTasks_append_eq_ok.2 ⟨mid, hmid, hplan'⟩, hplans⟩

theorem exists_alike_with (h : ofTasks items .empty (before ++ after) = .ok plan) :
    ∃ plan', ofTasks items .empty (before ++ task :: after) = .ok plan' ∧ Alike items.length plan plan' := by
  obtain ⟨hbefore, hafter⟩ := List.forall_mem_append.1 hothers
  obtain ⟨mid, hmid, hrest⟩ := ofTasks_append_eq_ok.1 h
  obtain ⟨added, hadded, halike⟩ := (alike_self_of_ofTasks hbefore hmid).add_behind hi hedits hnull
  obtain ⟨plan', hplan', hplans⟩ := halike.symm.ofTasks hafter hrest
  exact ⟨plan', ofTasks_append_eq_ok.2 ⟨mid, hmid, ofTasks_cons_eq_ok.2 ⟨added, hadded, hplan'⟩⟩, hplans⟩

end Without

end Plan

theorem editArray_of_alike {plan plan' : Plan} {tasks' : List Task} {result : List Value}
    (hplan : Plan.ofTasks items .empty tasks = .ok plan) (hplan' : Plan.ofTasks items .empty tasks' = .ok plan')
    (halike : plan.Alike items.length plan') (h : editArray tasks items = .ok () result) :
    editArray tasks' items = .ok () result := by
  obtain ⟨_, edited, inserted, hplan₀, hedit, hinsert, happend⟩ := editArray_eq_ok.1 h
  cases hplan.symm.trans hplan₀
  rw [halike.insertions] at hinsert
  rw [halike.appended] at happend
  refine editArray_eq_ok.2 ⟨plan', edited, inserted, hplan', ?_, hinsert, happend⟩
  obtain ⟨-, hedits⟩ := (runAll_edit_eq_ok (Plan.ascending_edits_ofTasks hplan List.Pairwise.nil)).1 hedit
  exact (runAll_edit_eq_ok (Plan.ascending_edits_ofTasks hplan' List.Pairwise.nil)).2
    ⟨halike.edits.erases', hedits.congr halike.edits.below⟩

/-- An erasure behind the end of the array changes nothing, neither in success nor in failure. -/
theorem editArray_without_iff {before after : List Task} {i : Nat} {result : List Value} (hi : items.length ≤ i)
    (hedits : task.edits items i = true) (hnull : task.value = .null) :
    editArray (before ++ task :: after) items = .ok () result ↔ editArray (before ++ after) items = .ok () result := by
  constructor
  · intro h
    obtain ⟨plan, -, -, hplan, -⟩ := editArray_eq_ok.1 h
    have hothers : ∀ t ∈ before ++ after, ∀ i, items.length ≤ i → t.edits items i = true → t.value = .null :=
      fun t ht i hi => null_of_edits_behind h (List.mem_append.2 ((List.mem_append.1 ht).imp_right (.tail task))) hi
    obtain ⟨plan', hplan', halike⟩ := Plan.exists_alike_without hi hedits hnull hothers hplan
    exact editArray_of_alike hplan hplan' halike h
  · intro h
    obtain ⟨plan, -, -, hplan, -⟩ := editArray_eq_ok.1 h
    have hothers : ∀ t ∈ before ++ after, ∀ i, items.length ≤ i → t.edits items i = true → t.value = .null :=
      fun t ht i hi => null_of_edits_behind h ht hi
    obtain ⟨plan', hplan', halike⟩ := Plan.exists_alike_with hi hedits hnull hothers hplan
    exact editArray_of_alike hplan hplan' halike h

end Carrying

/-! ## What is left of the elements -/

/-- A member of an array edit addresses a position of the array as it is: by its index, counted from the end where it is
negative, or by a selector that matches the element there. -/
def addresses (items : List Value) (i : Nat) (e : Key × Value) : Bool :=
  match Directive.ofKey e.1 e.2 with
  | .ok (.edit k) => (if k < 0 then max 0 (k + items.length) else k) = i
  | .ok (.editMatching selector) => (items[i]?).any (elementMatches · selector)
  | _ => false

/-- What an array edit leaves of an element: nothing if the first member that addresses its position is null, what comes
of merging that member if it is a map, and else that member; without one, the element. -/
def left (patch : Members) (items : List Value) (i : Nat) (v : Value) : Option Value :=
  match patch.find? (addresses items i) with
  | none => some v
  | some (_, .null) => none
  | some (_, .map node) =>
    match merge (.map node) v with
    | .ok _ new => some new
    -- no patch that succeeds comes here, by exists_merge_of_runAll
    | .error _ _ => none
  | some (_, new) => some new

/-- What an array edit leaves of the elements of an array, in their order. -/
def remaining (patch : Members) (items : List Value) : List Value := (items.mapIdx (left patch items)).reduceOption

section Left

variable {patch : Members} {items result : List Value} {task : Nat → Option Task} {g : Nat → Value → Option Value}
  {i : Nat}

/-- What `g` says of an element is what the task for its position makes of it. -/
structure Leaves (task : Nat → Option Task) (g : Nat → Value → Option Value) : Prop where
  keep : ∀ i v, task i = none → g i v = some v
  erase : ∀ i v t, task i = some t → t.value = .null → g i v = none
  change : ∀ i v t new, task i = some t → t.value ≠ .null → t.onto v = .ok () new → g i v = some new

theorem Leaves.tail (h : Leaves task g) : Leaves (fun i => task (i + 1)) (fun i => g (i + 1)) :=
  ⟨fun i => h.keep (i + 1), fun i => h.erase (i + 1), fun i => h.change (i + 1)⟩

theorem EditsTo.eq_reduceOption (h : EditsTo task items result) (hg : Leaves task g) :
    result = (items.mapIdx g).reduceOption := by
  induction h generalizing g with
  | nil => rfl
  | keep hnone _ ih =>
    rw [List.mapIdx_cons, hg.keep 0 _ hnone, List.reduceOption_cons_of_some, ← ih hg.tail]
  | erase hsome hnull _ ih =>
    rw [List.mapIdx_cons, hg.erase 0 _ _ hsome hnull, List.reduceOption_cons_of_none, ← ih hg.tail]
  | change hsome hvalue honto _ ih =>
    rw [List.mapIdx_cons, hg.change 0 _ _ _ hsome hvalue honto, List.reduceOption_cons_of_some, ← ih hg.tail]

theorem EditsTo.exists_onto (h : EditsTo task items result) {v : Value} {t : Task} (hv : items[i]? = some v)
    (ht : task i = some t) (hvalue : t.value ≠ .null) : ∃ new, t.onto v = .ok () new := by
  induction h generalizing i with
  | nil => cases hv
  | keep hnone _ ih =>
    cases i with
    | zero => cases hnone.symm.trans ht
    | succ i => exact ih hv ht
  | erase hsome hnull _ ih =>
    cases i with
    | zero =>
      cases hsome.symm.trans ht
      exact absurd hnull hvalue
    | succ i => exact ih hv ht
  | change hsome _ honto _ ih =>
    cases i with
    | zero =>
      cases hsome.symm.trans ht
      cases hv
      exact ⟨_, honto⟩
    | succ i => exact ih hv ht

theorem position_eq_iff {size : Nat} {k : Int} :
    i = position size k ↔ (if k < 0 then max 0 (k + size) else k) = i := by
  unfold position
  split <;> omega

theorem edits_eq_addresses (e : Key × Value) : Task.edits items i ⟨e.1, e.2, merge e.2⟩ = addresses items i e := by
  unfold Task.edits Task.directive? addresses
  dsimp only
  cases Directive.ofKey e.1 e.2 with
  | error cause => rfl
  | ok d =>
    rw [Except.toOption, Option.any_some]
    cases d with
    | edit k => simp only [Directive.edited, List.mem_singleton, position_eq_iff]
    | editMatching selector => simp only [Directive.edited, mem_matchingFrom_zero, Bool.decide_eq_true]
    | _ => rfl

theorem tasks_eq_map (patch : Members) : tasks patch = patch.map fun e => ⟨e.1, e.2, merge e.2⟩ := by
  induction patch with
  | nil => rfl
  | cons e patch ih =>
    obtain ⟨k, v⟩ := e
    rw [tasks, ih, List.map_cons]

/-- The first task that does something is that of the first member that asks for it. -/
theorem find?_tasks_of {does : Task → Bool} {asks : Key × Value → Bool}
    (h : ∀ e : Key × Value, does ⟨e.1, e.2, merge e.2⟩ = asks e) :
    (tasks patch).find? does = (patch.find? asks).map fun e => ⟨e.1, e.2, merge e.2⟩ := by
  have hcomp : does ∘ (fun e : Key × Value => ⟨e.1, e.2, merge e.2⟩) = asks := funext h
  rw [tasks_eq_map, List.find?_map]
  exact congrArg _ (congrArg (List.find? · patch) hcomp)

/-- The task that edits a position is that of the first member that addresses it. -/
theorem find?_tasks (items : List Value) (i : Nat) : (tasks patch).find? (·.edits items i) =
    (patch.find? (addresses items i)).map fun e => ⟨e.1, e.2, merge e.2⟩ := find?_tasks_of edits_eq_addresses

theorem leaves_left (patch : Members) (items : List Value) :
    Leaves (fun i => (tasks patch).find? (·.edits items i)) (left patch items) := by
  refine ⟨fun i v hnone => ?_, fun i v t hsome hnull => ?_, fun i v t new hsome hvalue honto => ?_⟩
  · rw [find?_tasks, Option.map_eq_none_iff] at hnone
    rw [left, hnone]
  · rw [find?_tasks] at hsome
    obtain ⟨⟨k, p⟩, he, rfl⟩ := Option.map_eq_some_iff.1 hsome
    obtain rfl : p = .null := hnull
    rw [left, he]
  · rw [find?_tasks] at hsome
    obtain ⟨⟨k, p⟩, he, rfl⟩ := Option.map_eq_some_iff.1 hsome
    rw [left, he]
    cases p with
    | null => exact absurd rfl hvalue
    | map node =>
      replace honto : merge (.map node) v = .ok () new := honto
      dsimp only
      rw [honto]
    | _ =>
      cases honto
      rfl

theorem mem_tasks {e : Key × Value} (he : e ∈ patch) : (⟨e.1, e.2, merge e.2⟩ : Task) ∈ tasks patch := by
  rw [tasks_eq_map]
  exact List.mem_map_of_mem he

theorem merge_arr_eq_ok (hkind : kind patch = .arrayEdit) {v' : Value} : merge (.map patch) (.arr items) = .ok () v' ↔
    ∃ result, editArray (tasks patch) items = .ok () result ∧ .arr result = v' := by
  rw [merge_arrayEdit_eq_ok hkind]
  constructor
  · rintro ⟨_, result, ⟨⟩, h, rfl⟩
    exact ⟨result, h, rfl⟩
  · rintro ⟨result, h, rfl⟩
    exact ⟨items, result, rfl, h, rfl⟩

/-- Where tasks are queued by the first member that asks for a position, any other one there has an equal value. -/
theorem eq_or_beq_of_queued {queued : List (Nat × Task)} {asks : Key × Value → Bool} {e first : Key × Value}
    (hfind : find? i queued = (patch.find? asks).map fun e => ⟨e.1, e.2, merge e.2⟩)
    (hqueued : ∃ t, find? i queued = some t ∧ (t = ⟨e.1, e.2, merge e.2⟩ ∨ (t.value == e.2) = true))
    (hfirst : patch.find? asks = some first) : first.2 = e.2 ∨ (first.2 == e.2) = true := by
  obtain ⟨t, ht, heq⟩ := hqueued
  rw [hfind, hfirst] at ht
  cases ht
  exact heq.imp_left fun h => congrArg Task.value h

section Planned

variable {plan : Plan} (hplan : Plan.ofTasks items .empty (tasks patch) = .ok plan)

include hplan

theorem eq_remaining_of_runAll {edited : List Value} (hedit : runAll edit plan.edits.reverse items = .ok () edited) :
    edited = remaining patch items :=
  ((runAll_edit_ofTasks_eq_ok hplan).1 hedit).2.eq_reduceOption (leaves_left patch items)

theorem exists_merge_of_runAll {edited : List Value} (hedit : runAll edit plan.edits.reverse items = .ok () edited)
    {v : Value} {k : Key} {node : Members} (hv : items[i]? = some v)
    (hfind : patch.find? (addresses items i) = some (k, .map node)) : ∃ new, merge (.map node) v = .ok () new := by
  have htask : (tasks patch).find? (·.edits items i) = some ⟨k, .map node, merge (.map node)⟩ := by
    rw [find?_tasks, hfind]
    rfl
  exact ((runAll_edit_ofTasks_eq_ok hplan).1 hedit).2.exists_onto hv htask nofun

/-- Members that address the same position have equal values. -/
theorem eq_or_beq_of_addresses {e first : Key × Value} (he : e ∈ patch) (haddresses : addresses items i e = true)
    (hfirst : patch.find? (addresses items i) = some first) : first.2 = e.2 ∨ (first.2 == e.2) = true := by
  rw [← edits_eq_addresses] at haddresses
  have hfind := Plan.find?_edits_ofTasks hplan i
  rw [find?_tasks] at hfind
  exact eq_or_beq_of_queued hfind (Plan.exists_of_mem_edits hplan (mem_tasks he) haddresses) hfirst

end Planned

/-- An array edit carries out its edits, which leave `edited` of the array, then its insertions, and then appends. -/
def Stages (patch : Members) (items edited result : List Value) : Prop :=
  ∃ plan inserted, Plan.ofTasks items .empty (tasks patch) = .ok plan ∧
    runAll edit plan.edits.reverse items = .ok () edited ∧
    runAll insertion plan.insertions.reverse edited = .ok () inserted ∧
    runAll append plan.appended inserted = .ok () result

/-- A patch of directives that succeeds on an array leaves, before anything is inserted, what its members leave of each
element of the array as it was; an erasure behind the end might as well not be there (the tasks of the other members are
compared, as these may be too few for a patch of directives); and any other edit behind the end makes the patch fail. -/
theorem edits_at_once (hkind : kind patch = .arrayEdit) (items : List Value) :
    (∀ v', merge (.map patch) (.arr items) = .ok () v' → ∃ result, v' = .arr result ∧
      Stages patch items (remaining patch items) result ∧
      (∀ i e first, e ∈ patch → addresses items i e = true → patch.find? (addresses items i) = some first →
        first.2 = e.2 ∨ (first.2 == e.2) = true) ∧
      ∀ i v k node, items[i]? = some v → patch.find? (addresses items i) = some (k, .map node) →
        ∃ new, merge (.map node) v = .ok () new) ∧
    (∀ before e after i, patch = before ++ e :: after → items.length ≤ i → addresses items i e = true →
      e.2 = .null → ∀ result, merge (.map patch) (.arr items) = .ok () (.arr result) ↔
        editArray (tasks (before ++ after)) items = .ok () result) ∧
    ∀ e ∈ patch, ∀ i, items.length ≤ i → addresses items i e = true → e.2 ≠ .null →
      ∃ error reached, merge (.map patch) (.arr items) = .error error reached := by
  refine ⟨fun v' h => ?_, ?_, fun e he i hi haddresses hvalue => ?_⟩
  · obtain ⟨result, hrun, rfl⟩ := (merge_arr_eq_ok hkind).1 h
    obtain ⟨plan, edited, inserted, hplan, hedit, hinsert, happend⟩ := editArray_eq_ok.1 hrun
    obtain rfl := eq_remaining_of_runAll hplan hedit
    exact ⟨result, rfl, ⟨plan, inserted, hplan, hedit, hinsert, happend⟩,
      fun i e first he => eq_or_beq_of_addresses hplan he, fun i v k node => exists_merge_of_runAll hplan hedit⟩
  · rintro before e after i rfl hi haddresses hnull result
    rw [← edits_eq_addresses] at haddresses
    have htasks : editArray (tasks (before ++ e :: after)) items = .ok () result ↔
        editArray (tasks (before ++ after)) items = .ok () result := by
      simp only [tasks_eq_map, List.map_append, List.map_cons]
      exact editArray_without_iff hi haddresses hnull
    rw [merge_arr_eq_ok hkind, ← htasks]
    exact ⟨fun ⟨_, h, heq⟩ => Value.arr.inj heq ▸ h, fun h => ⟨result, h, rfl⟩⟩
  · cases h : merge (.map patch) (.arr items) with
    | error error reached => exact ⟨error, reached, rfl⟩
    | ok _ v' =>
      obtain ⟨result, hedit, -⟩ := (merge_arr_eq_ok hkind).1 h
      rw [← edits_eq_addresses] at haddresses
      exact absurd (null_of_edits_behind hedit (mem_tasks he) hi haddresses) hvalue

/-- A selector and an index that erase two elements, an edit counted from the end, a replacement, and an erasure behind
the end. -/
theorem edits_at_once_overlapping :
    let patch : Members := [(.str "$7", .null), (.str "$[-2]", .map [(.str "b", .int 2)]), (.str "$[0]", .int 5),
      (.str "$[1]", .null), (.str "$[9]", .null)]
    let items : List Value := [.int 1, .arr [.int 7], .map [(.str "a", .int 1)], .int 7]
    let result : List Value := [.int 5, .map [(.str "a", .int 1), (.str "b", .int 2)]]
    kind patch = .arrayEdit ∧ merge (.map patch) (.arr items) = .ok () (.arr result) ∧
      remaining patch items = result ∧ Stages patch items result result ∧
      editArray (tasks patch.dropLast) items = .ok () result ∧
      ∃ error reached, merge (.map [(.str "$[-1]", .int 1)]) (.arr []) = .error error reached := by
  intro patch items result
  have hkind : kind patch = .arrayEdit := by decide
  have hkind' : kind [(.str "$[-1]", .int 1)] = .arrayEdit := by decide
  have hmerge : merge (.map patch) (.arr items) = .ok () (.arr result) := rfl
  have hremaining : remaining patch items = result := rfl
  obtain ⟨hdone, hwithout, -⟩ := edits_at_once hkind items
  obtain ⟨_, ⟨⟩, hstages, -⟩ := hdone _ hmerge
  obtain ⟨-, -, hfails⟩ := edits_at_once hkind' []
  rw [hremaining] at hstages
  have h9 : patch = patch.dropLast ++ (.str "$[9]", .null) :: [] := rfl
  refine ⟨hkind, hmerge, hremaining, hstages, ?_, hfails _ List.mem_cons_self 0 (by decide) rfl nofun⟩
  exact (hwithout patch.dropLast _ [] 9 h9 (by decide) rfl rfl result).1 hmerge

end Left

end RecordStore.Patch
