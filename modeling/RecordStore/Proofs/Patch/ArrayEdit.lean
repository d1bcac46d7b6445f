import Mathlib.Data.Nat.Basic
import RecordStore.Patch.ArrayEdit
import RecordStore.Proofs.Entries
import RecordStore.Proofs.Sequence

/-!
# What an array edit does

Planning is told by what a single directive asks for at a single position: the plan edits a position by the first task
that addresses it (`find?_edits_ofTasks`), and so with insertions. Carrying out is told from the first element to the
last, though it runs from the last position down: each element is kept, erased or changed by what the plan has for its
position (`EditsTo`, `runAll_edit_eq_ok`).
-/

namespace RecordStore.Patch

/-! ## What a directive asks for -/

namespace Directive

variable (items : List Value)

/-- The positions that a directive edits, given the array as it is. -/
def edited : Directive → List Nat
  | edit i => [position items.length i]
  | editMatching selector => matchingFrom selector 0 items
  | _ => []

/-- The positions that a directive inserts at. -/
def inserted : Directive → List Nat
  | insert i => [position items.length i]
  | _ => []

/-- The directive appends, given the array as it is. -/
def appends : Directive → Bool
  | append => true
  | appendUnless selector => !items.any (elementMatches · selector)
  | _ => false

end Directive

theorem le_of_mem_matchingFrom {selector : Value} {items : List Value} {start i : Nat}
    (h : i ∈ matchingFrom selector start items) : start ≤ i := by
  induction items generalizing start with
  | nil => cases h
  | cons v items ih =>
    rw [matchingFrom] at h
    split at h
    · rcases List.mem_cons.1 h with rfl | h
      · exact Nat.le_refl _
      · exact Nat.le_of_succ_le (ih h)
    · exact Nat.le_of_succ_le (ih h)

theorem nodup_matchingFrom (selector : Value) (start : Nat) (items : List Value) :
    (matchingFrom selector start items).Nodup := by
  induction items generalizing start with
  | nil => exact List.nodup_nil
  | cons v items ih =>
    rw [matchingFrom]
    split
    · refine List.nodup_cons.2 ⟨fun h => ?_, ih (start + 1)⟩
      have := le_of_mem_matchingFrom h
      omega
    · exact ih (start + 1)

theorem mem_matchingFrom {selector : Value} {items : List Value} {start i : Nat} :
    start + i ∈ matchingFrom selector start items ↔ (items[i]?).any (elementMatches · selector) = true := by
  induction items generalizing start i with
  | nil => simp [matchingFrom]
  | cons v items ih =>
    rw [matchingFrom]
    cases i with
    | zero =>
      have hrest : start ∉ matchingFrom selector (start + 1) items := fun h => by
        have := le_of_mem_matchingFrom h
        omega
      split
      case isTrue hv => simp [hv]
      case isFalse hv => simp [hv, hrest]
    | succ i =>
      have hindex : start + (i + 1) = start + 1 + i := by omega
      have ih : start + 1 + i ∈ matchingFrom selector (start + 1) items ↔ _ := ih
      rw [List.getElem?_cons_succ, ← ih, hindex]
      split
      case isTrue =>
        rw [List.mem_cons]
        exact ⟨fun h => h.resolve_left (by omega), .inr⟩
      case isFalse => rfl

theorem mem_matchingFrom_zero {selector : Value} {items : List Value} {i : Nat} :
    i ∈ matchingFrom selector 0 items ↔ (items[i]?).any (elementMatches · selector) = true := by
  rw [← mem_matchingFrom, Nat.zero_add]

namespace Task

/-- What the key of a task asks for, if it can be read. -/
def directive? (task : Task) : Option Directive := (Directive.ofKey task.key task.value).toOption

theorem directive?_eq_some_iff {task : Task} {d : Directive} :
    task.directive? = some d ↔ Directive.ofKey task.key task.value = .ok d := by
  unfold directive?
  cases Directive.ofKey task.key task.value <;> simp [Except.toOption]

/-- The task edits the element at a position. -/
def edits (items : List Value) (i : Nat) (task : Task) : Bool := task.directive?.any fun d => i ∈ d.edited items

/-- The task inserts at a position. -/
def inserts (items : List Value) (i : Nat) (task : Task) : Bool := task.directive?.any fun d => i ∈ d.inserted items

/-- The task appends. -/
def appends (items : List Value) (task : Task) : Bool := task.directive?.any fun d => d.appends items

section Reading

variable {task : Task} {d : Directive} (h : Directive.ofKey task.key task.value = .ok d) (items : List Value)

include h

theorem edits_of_ofKey (i : Nat) : task.edits items i = decide (i ∈ d.edited items) := by
  rw [edits, directive?_eq_some_iff.2 h, Option.any_some]

theorem appends_of_ofKey : task.appends items = d.appends items := by
  rw [appends, directive?_eq_some_iff.2 h, Option.any_some]

end Reading

end Task

/-! ## Planning -/

namespace Plan

open Entries

section Queue

variable {conflict : Nat → Cause} {task : Task} {queued queued' : List (Nat × Task)} {pos : Nat} {positions : List Nat}

theorem queue_eq_ok : queue conflict task queued pos = .ok queued' ↔
    find? pos queued = none ∧ insert pos task queued = queued' ∨
      ∃ other, find? pos queued = some other ∧ (other.value == task.value) = true ∧ queued = queued' := by
  unfold queue
  cases find? pos queued with
  | none => simp
  | some other =>
    dsimp only
    split
    case isTrue h => simp [h]
    case isFalse h => simp [h]

theorem queueAll_cons_eq_ok : (pos :: positions).foldlM (queue conflict task) queued = .ok queued' ↔
    ∃ mid, queue conflict task queued pos = .ok mid ∧ positions.foldlM (queue conflict task) mid = .ok queued' := by
  rw [List.foldlM_cons, except_bind_eq_ok]

/-- A task is queued at all the positions where there is none yet. -/
theorem find?_queueAll (h : positions.foldlM (queue conflict task) queued = .ok queued') (i : Nat) :
    find? i queued' = (find? i queued).or (if i ∈ positions then some task else none) := by
  induction positions generalizing queued with
  | nil =>
    cases h
    simp
  | cons pos positions ih =>
    obtain ⟨mid, hmid, h⟩ := queueAll_cons_eq_ok.1 h
    have hfind : find? i mid = (find? i queued).or (if i = pos then some task else none) := by
      obtain ⟨hnone, rfl⟩ | ⟨other, hother, -, rfl⟩ := queue_eq_ok.1 hmid
      · rw [find?_insert]
        by_cases hi : i = pos
        · simp [hi, hnone]
        · simp [hi]
      · by_cases hi : i = pos
        · simp [hi, hother]
        · simp [hi]
    rw [ih h, hfind, Option.or_assoc]
    by_cases hi : i = pos <;> simp [hi]

theorem ascending_queueAll (h : positions.foldlM (queue conflict task) queued = .ok queued') (hasc : Ascending queued) :
    Ascending queued' := by
  induction positions generalizing queued with
  | nil =>
    cases h
    exact hasc
  | cons pos positions ih =>
    obtain ⟨mid, hmid, h⟩ := queueAll_cons_eq_ok.1 h
    refine ih h ?_
    obtain ⟨-, rfl⟩ | ⟨-, -, -, rfl⟩ := queue_eq_ok.1 hmid
    · exact hasc.insert pos task
    · exact hasc

theorem mem_queueAll (h : positions.foldlM (queue conflict task) queued = .ok queued') {e : Nat × Task}
    (he : e ∈ queued') : e ∈ queued ∨ e.2 = task := by
  induction positions generalizing queued with
  | nil =>
    cases h
    exact .inl he
  | cons pos positions ih =>
    obtain ⟨mid, hmid, h⟩ := queueAll_cons_eq_ok.1 h
    refine (ih h).elim (fun he => ?_) .inr
    obtain ⟨-, rfl⟩ | ⟨-, -, -, rfl⟩ := queue_eq_ok.1 hmid
    · rcases mem_insert he with rfl | he
      · exact .inr rfl
      · exact .inl he
    · exact .inl he

/-- Where nothing is queued there is no conflict. -/
theorem exists_queueAll (hnodup : positions.Nodup) (hnone : ∀ i ∈ positions, find? i queued = none) :
    ∃ queued', positions.foldlM (queue conflict task) queued = .ok queued' := by
  induction positions generalizing queued with
  | nil => exact ⟨queued, rfl⟩
  | cons pos positions ih =>
    obtain ⟨hpos, hnodup⟩ := List.nodup_cons.1 hnodup
    have hmid : queue conflict task queued pos = .ok (insert pos task queued) :=
      queue_eq_ok.2 (.inl ⟨hnone pos List.mem_cons_self, rfl⟩)
    have hnone' : ∀ i ∈ positions, find? i (insert pos task queued) = none := fun i hi => by
      have hne : i ≠ pos := by
        rintro rfl
        exact hpos hi
      rw [find?_insert, if_neg hne, hnone i (List.mem_cons_of_mem _ hi)]
    obtain ⟨queued', h⟩ := ih hnodup hnone'
    exact ⟨queued', queueAll_cons_eq_ok.2 ⟨_, hmid, h⟩⟩

end Queue

section Tasks

variable {items : List Value} {plan plan' : Plan} {task : Task} {tasks : List Task}

/-- A task is queued at what its directive edits and inserts at, and appended if its directive appends. -/
theorem add_eq_ok : plan.add items task = .ok plan' ↔ ∃ d, Directive.ofKey task.key task.value = .ok d ∧
    (d.edited items).foldlM (queue .severalEditions task) plan.edits = .ok plan'.edits ∧
    (d.inserted items).foldlM (queue .severalInsertions task) plan.insertions = .ok plan'.insertions ∧
    (plan.appended ++ if d.appends items then [task] else []) = plan'.appended := by
  obtain ⟨edits, insertions, appended⟩ := plan
  obtain ⟨edits', insertions', appended'⟩ := plan'
  simp only [add, except_bind_eq_ok]
  refine exists_congr fun d => and_congr_right fun _ => ?_
  cases d with
  | appendUnless selector =>
    cases hany : items.any (elementMatches · selector) <;>
      simp [Directive.edited, Directive.inserted, Directive.appends, except_pure_eq_ok, hany]
  | _ =>
    simp only [Directive.edited, Directive.inserted, Directive.appends, List.foldlM_cons, List.foldlM_nil,
      except_bind_eq_ok, except_pure_eq_ok, mk.injEq]
    grind

theorem ofTasks_cons_eq_ok : ofTasks items plan (task :: tasks) = .ok plan' ↔
    ∃ mid, plan.add items task = .ok mid ∧ ofTasks items mid tasks = .ok plan' := by
  rw [ofTasks]
  cases plan.add items task <;> simp

theorem ofTasks_singleton_eq_ok : ofTasks items plan [task] = .ok plan' ↔ plan.add items task = .ok plan' := by
  rw [ofTasks_cons_eq_ok]
  simp [ofTasks]

section Field

variable {field : Plan → List (Nat × Task)} {conflict : Nat → Cause} {positions : Directive → List Nat}
  (hadd : ∀ {plan plan' task d}, add items plan task = .ok plan' → Directive.ofKey task.key task.value = .ok d →
    (positions d).foldlM (queue conflict task) (field plan) = .ok (field plan'))

include hadd

/-- In a part of the plan that tasks are queued in, a position has the first task whose directive asks for it. -/
theorem find?_field_ofTasks (h : ofTasks items plan tasks = .ok plan') (i : Nat) : find? i (field plan') =
    (find? i (field plan)).or (tasks.find? fun task => task.directive?.any fun d => i ∈ positions d) := by
  induction tasks generalizing plan with
  | nil =>
    cases h
    simp
  | cons task tasks ih =>
    obtain ⟨mid, hmid, h⟩ := ofTasks_cons_eq_ok.1 h
    obtain ⟨d, hd, -⟩ := add_eq_ok.1 hmid
    rw [ih h, find?_queueAll (hadd hmid hd), Option.or_assoc, List.find?_cons, Task.directive?_eq_some_iff.2 hd]
    by_cases hi : i ∈ positions d <;> simp [hi]

theorem ascending_field_ofTasks (h : ofTasks items plan tasks = .ok plan') (hasc : Ascending (field plan)) :
    Ascending (field plan') := by
  induction tasks generalizing plan with
  | nil =>
    cases h
    exact hasc
  | cons task tasks ih =>
    obtain ⟨mid, hmid, h⟩ := ofTasks_cons_eq_ok.1 h
    obtain ⟨d, hd, -⟩ := add_eq_ok.1 hmid
    exact ih h (ascending_queueAll (hadd hmid hd) hasc)

theorem mem_field_ofTasks (h : ofTasks items plan tasks = .ok plan') {e : Nat × Task} (he : e ∈ field plan') :
    e ∈ field plan ∨ e.2 ∈ tasks := by
  induction tasks generalizing plan with
  | nil =>
    cases h
    exact .inl he
  | cons task tasks ih =>
    obtain ⟨mid, hmid, h⟩ := ofTasks_cons_eq_ok.1 h
    obtain ⟨d, hd, -⟩ := add_eq_ok.1 hmid
    rcases ih h with he | he
    · rcases mem_queueAll (hadd hmid hd) he with he | rfl
      · exact .inl he
      · exact .inr List.mem_cons_self
    · exact .inr (List.mem_cons_of_mem _ he)

end Field

section Edits

variable {d : Directive} (hadd : plan.add items task = .ok plan') (hd : Directive.ofKey task.key task.value = .ok d)

include hadd hd

theorem queue_edits_of_add : (d.edited items).foldlM (queue .severalEditions task) plan.edits = .ok plan'.edits := by
  obtain ⟨d', hd', hedits, -⟩ := add_eq_ok.1 hadd
  cases hd.symm.trans hd'
  exact hedits

theorem queue_insertions_of_add :
    (d.inserted items).foldlM (queue .severalInsertions task) plan.insertions = .ok plan'.insertions := by
  obtain ⟨d', hd', -, hinsertions, -⟩ := add_eq_ok.1 hadd
  cases hd.symm.trans hd'
  exact hinsertions

end Edits

/-- A position is edited by the first task that addresses it. -/
theorem find?_edits_ofTasks (h : ofTasks items plan tasks = .ok plan') (i : Nat) :
    find? i plan'.edits = (find? i plan.edits).or (tasks.find? (·.edits items i)) :=
  find?_field_ofTasks queue_edits_of_add h i

/-- What is inserted at a position comes from the first task that inserts there. -/
theorem find?_insertions_ofTasks (h : ofTasks items plan tasks = .ok plan') (i : Nat) :
    find? i plan'.insertions = (find? i plan.insertions).or (tasks.find? (·.inserts items i)) :=
  find?_field_ofTasks queue_insertions_of_add h i

theorem appended_ofTasks (h : ofTasks items plan tasks = .ok plan') :
    plan'.appended = plan.appended ++ tasks.filter (·.appends items) := by
  induction tasks generalizing plan with
  | nil =>
    cases h
    simp
  | cons task tasks ih =>
    obtain ⟨mid, hmid, h⟩ := ofTasks_cons_eq_ok.1 h
    obtain ⟨d, hd, -, -, happended⟩ := add_eq_ok.1 hmid
    rw [ih h, ← happended, List.append_assoc, List.filter_cons, Task.appends_of_ofKey hd]
    split <;> rfl

theorem ascending_edits_ofTasks (h : ofTasks items plan tasks = .ok plan') (hasc : Ascending plan.edits) :
    Ascending plan'.edits := ascending_field_ofTasks queue_edits_of_add h hasc

/-- A plan holds no other tasks than it was made of. -/
theorem forall_mem_plan {P : Task → Prop} (h : ofTasks items .empty tasks = .ok plan) (htasks : ∀ t ∈ tasks, P t) :
    (∀ e ∈ plan.edits, P e.2) ∧ (∀ e ∈ plan.insertions, P e.2) ∧ ∀ t ∈ plan.appended, P t := by
  refine ⟨fun e he => ?_, fun e he => ?_, fun t ht => ?_⟩
  · exact htasks _ ((mem_field_ofTasks queue_edits_of_add h he).resolve_left List.not_mem_nil)
  · exact htasks _ ((mem_field_ofTasks queue_insertions_of_add h he).resolve_left List.not_mem_nil)
  · rw [appended_ofTasks h] at ht
    exact htasks t (List.mem_filter.1 ht).1

end Tasks

end Plan

/-! ## Carrying out edits -/

/-- What becomes of the elements of an array when `task` has the tasks that edit them, by position. -/
inductive EditsTo : (task : Nat → Option Task) → List Value → List Value → Prop
  | nil {task : Nat → Option Task} : EditsTo task [] []
  | keep {task : Nat → Option Task} {v : Value} {items items' : List Value} : task 0 = none →
      EditsTo (fun i => task (i + 1)) items items' → EditsTo task (v :: items) (v :: items')
  | erase {task : Nat → Option Task} {t : Task} {v : Value} {items items' : List Value} : task 0 = some t →
      t.value = .null → EditsTo (fun i => task (i + 1)) items items' → EditsTo task (v :: items) items'
  | change {task : Nat → Option Task} {t : Task} {v new : Value} {items items' : List Value} : task 0 = some t →
      t.value ≠ .null → t.onto v = .ok () new → EditsTo (fun i => task (i + 1)) items items' →
        EditsTo task (v :: items) (new :: items')

section Carrying

open Entries

variable {items items' result : List Value} {edits : List (Nat × Task)} {task : Task} {v : Value}

theorem map_eq_ok_iff {σ τ : Type} {o : Outcome σ} {f : σ → τ} {g : Error → Error} {t : τ} :
    o.map f g = .ok () t ↔ ∃ s, o = .ok () s ∧ f s = t := by
  cases o <;> simp [Outcome.map]

theorem runAll_append_eq_ok {τ : Type} {run : τ → List Value → Outcome (List Value)} {ts us : List τ} :
    runAll run (ts ++ us) items = .ok () result ↔
      ∃ mid, runAll run ts items = .ok () mid ∧ runAll run us mid = .ok () result := by
  induction ts generalizing items with
  | nil => simp [runAll]
  | cons t ts ih =>
    simp only [List.cons_append, runAll]
    cases run t items with
    | ok _ items => exact ih
    | error e items => simp

theorem runAll_singleton {τ : Type} (run : τ → List Value → Outcome (List Value)) (t : τ) :
    runAll run [t] items = run t items := by
  rw [runAll]
  cases run t items <;> rfl

theorem edit_eq_ok {i : Nat} : edit (i, task) items = .ok () result ↔
    task.value = .null ∧ items.eraseIdx i = result ∨
      task.value ≠ .null ∧ ∃ v new, items[i]? = some v ∧ task.onto v = .ok () new ∧ items.set i new = result := by
  unfold edit
  dsimp only
  split
  case isTrue hnull => simp [Value.isNull_eq_true_iff.1 hnull]
  case isFalse hvalue =>
    rw [Value.isNull_eq_true_iff] at hvalue
    cases items[i]? <;> simp [hvalue, map_eq_ok_iff]

/-- What is inserted is made from null. -/
theorem insertion_eq_ok {i : Nat} : insertion (i, task) items = .ok () result ↔
    ∃ new, task.onto .null = .ok () new ∧ items.insertIdx (min i items.length) new = result := by
  unfold insertion
  dsimp only
  cases task.onto .null <;> simp

theorem append_eq_ok :
    append task items = .ok () result ↔ ∃ new, task.onto .null = .ok () new ∧ items ++ [new] = result := by
  unfold append
  cases task.onto .null <;> simp

/-- An edit of the element behind those that are passed. -/
theorem edit_append_cons_eq_ok {passed : List Value} :
    edit (passed.length, task) (passed ++ v :: items) = .ok () result ↔
      task.value = .null ∧ passed ++ items = result ∨
        task.value ≠ .null ∧ ∃ new, task.onto v = .ok () new ∧ passed ++ new :: items = result := by
  rw [edit_eq_ok, List.eraseIdx_append_of_length_le (Nat.le_refl _)]
  simp

theorem edit_out_of_range_eq_ok {i : Nat} (h : items.length ≤ i) :
    edit (i, task) items = .ok () result ↔ task.value = .null ∧ items = result := by
  rw [edit_eq_ok, List.eraseIdx_of_length_le h, List.getElem?_eq_none h]
  simp

theorem runAll_edit_out_of_range_eq_ok (h : ∀ e ∈ edits, items.length ≤ e.1) :
    runAll edit edits items = .ok () result ↔ (∀ e ∈ edits, e.2.value = .null) ∧ items = result := by
  induction edits with
  | nil => simp [runAll]
  | cons e edits ih =>
    obtain ⟨i, task⟩ := e
    obtain ⟨hi, h⟩ := List.forall_mem_cons.1 h
    have hedit : ∀ mid, edit (i, task) items = .ok () mid ↔ task.value = .null ∧ items = mid := fun mid =>
      edit_out_of_range_eq_ok hi
    rw [runAll, List.forall_mem_cons, and_assoc, ← ih h]
    cases he : edit (i, task) items with
    | ok _ mid =>
      obtain ⟨hnull, rfl⟩ := (hedit mid).1 he
      simp [hnull]
    | error e reached =>
      have : task.value ≠ .null := fun hnull => by simp [(hedit items).2 ⟨hnull, rfl⟩] at he
      simp [this]

theorem EditsTo.congr {f g : Nat → Option Task} (h : EditsTo f items items') (hfg : ∀ i < items.length, f i = g i) :
    EditsTo g items items' := by
  induction h generalizing g with
  | nil => exact .nil
  | keep hnone _ ih =>
    exact .keep (hfg 0 (by simp) ▸ hnone) (ih fun i hi => hfg (i + 1) (by simpa using hi))
  | erase hsome hnull _ ih =>
    exact .erase (hfg 0 (by simp) ▸ hsome) hnull (ih fun i hi => hfg (i + 1) (by simpa using hi))
  | change hsome hvalue honto _ ih =>
    exact .change (hfg 0 (by simp) ▸ hsome) hvalue honto (ih fun i hi => hfg (i + 1) (by simpa using hi))

theorem editsTo_nil_iff {f : Nat → Option Task} : EditsTo f [] result ↔ result = [] := by
  constructor
  · intro h
    cases h
    rfl
  · rintro rfl
    exact .nil

theorem editsTo_cons_iff {f : Nat → Option Task} : EditsTo f (v :: items) result ↔
    ∃ items', EditsTo (fun i => f (i + 1)) items items' ∧
      (f 0 = none ∧ v :: items' = result ∨ ∃ t, f 0 = some t ∧ (t.value = .null ∧ items' = result ∨
        t.value ≠ .null ∧ ∃ new, t.onto v = .ok () new ∧ new :: items' = result)) := by
  constructor
  · intro h
    cases h with
    | keep hnone h => exact ⟨_, h, .inl ⟨hnone, rfl⟩⟩
    | erase hsome hnull h => exact ⟨_, h, .inr ⟨_, hsome, .inl ⟨hnull, rfl⟩⟩⟩
    | change hsome hvalue honto h => exact ⟨_, h, .inr ⟨_, hsome, .inr ⟨hvalue, _, honto, rfl⟩⟩⟩
  · rintro ⟨items', h, ⟨hnone, rfl⟩ | ⟨t, hsome, ⟨hnull, rfl⟩ | ⟨hvalue, new, honto, rfl⟩⟩⟩
    · exact .keep hnone h
    · exact .erase hsome hnull h
    · exact .change hsome hvalue honto h

/-- Of ascending edits that begin at a position or behind it, and are not all behind it, the first is there. -/
theorem exists_first_of_not_behind {n : Nat} (hasc : Ascending edits) (hle : ∀ e ∈ edits, n ≤ e.1)
    (hnot : ¬ ∀ e ∈ edits, n < e.1) : ∃ task rest, edits = (n, task) :: rest ∧ ∀ e ∈ rest, n < e.1 := by
  cases edits with
  | nil => exact absurd (List.forall_mem_nil _) hnot
  | cons e rest =>
    obtain ⟨hfirst, -⟩ := ascending_cons_iff.1 hasc
    have hlt : ∀ e' ∈ rest, e.1 < e'.1 := fun e' he' => Nat.compare_eq_lt.1 (hfirst e' he')
    have hle := hle e List.mem_cons_self
    obtain rfl : e.1 = n := by
      by_contra hne
      refine hnot (List.forall_mem_cons.2 ⟨by omega, fun e' he' => ?_⟩)
      have := hlt e' he'
      omega
    exact ⟨e.2, rest, rfl, hlt⟩

/-- Edits behind the elements that are passed, carried out from the last position down. -/
theorem runAll_edit_append_eq_ok {passed : List Value} (hasc : Ascending edits)
    (hpassed : ∀ e ∈ edits, passed.length ≤ e.1) :
    runAll edit edits.reverse (passed ++ items) = .ok () result ↔
      (∀ e ∈ edits, passed.length + items.length ≤ e.1 → e.2.value = .null) ∧
        ∃ items', EditsTo (fun i => find? (passed.length + i) edits) items items' ∧ passed ++ items' = result := by
  induction items generalizing passed edits result with
  | nil =>
    rw [List.append_nil, runAll_edit_out_of_range_eq_ok (by simpa using hpassed)]
    simp +contextual [editsTo_nil_iff, hpassed]
  | cons v items ih =>
    -- with all edits behind `v`, the array with `v` among the passed is the one to look at
    have behind {edits : List (Nat × Task)} {result : List Value} (hasc : Ascending edits)
        (hpassed : ∀ e ∈ edits, passed.length < e.1) :
        runAll edit edits.reverse (passed ++ v :: items) = .ok () result ↔
          (∀ e ∈ edits, passed.length + (v :: items).length ≤ e.1 → e.2.value = .null) ∧
            ∃ items', EditsTo (fun i => find? (passed.length + (i + 1)) edits) items items' ∧
              passed ++ v :: items' = result := by
      have h : runAll edit edits.reverse (passed ++ [v] ++ items) = .ok () result ↔ _ :=
        ih hasc (by simpa [Nat.succ_le_iff] using hpassed)
      simpa [Nat.add_assoc, Nat.add_comm 1] using h
    by_cases hhead : ∀ e ∈ edits, passed.length < e.1
    · have hnone : find? passed.length edits = none :=
        find?_eq_none_iff.2 fun e he => (Nat.ne_of_lt (hhead e he)).symm
      rw [behind hasc hhead]
      simp [editsTo_cons_iff, hnone]
    · obtain ⟨task, edits, rfl, hrest⟩ := exists_first_of_not_behind hasc hpassed hhead
      have hsome : find? passed.length ((passed.length, task) :: edits) = some task := by
        rw [find?_cons, if_pos rfl]
      have hskip : ∀ i, find? (passed.length + (i + 1)) ((passed.length, task) :: edits) =
          find? (passed.length + (i + 1)) edits := fun i => by
        rw [find?_cons, if_neg (by omega)]
      have hasc := (ascending_cons_iff.1 hasc).2
      rw [List.reverse_cons, runAll_append_eq_ok]
      simp only [runAll_singleton]
      constructor
      · rintro ⟨mid, hmid, hedit⟩
        obtain ⟨hnull, items', hitems, rfl⟩ := (behind hasc hrest).1 hmid
        refine ⟨List.forall_mem_cons.2 ⟨fun h => absurd h (by simp), hnull⟩, ?_⟩
        obtain ⟨hvalue, rfl⟩ | ⟨hvalue, new, honto, rfl⟩ := edit_append_cons_eq_ok.1 hedit
        · exact ⟨_, .erase hsome hvalue (by simpa only [hskip] using hitems), rfl⟩
        · exact ⟨_, .change hsome hvalue honto (by simpa only [hskip] using hitems), rfl⟩
      · rintro ⟨hnull, items'', hitems, rfl⟩
        have hnull := (List.forall_mem_cons.1 hnull).2
        obtain ⟨items', hitems, ⟨hnone, -⟩ | ⟨t, ht, h⟩⟩ := editsTo_cons_iff.1 hitems
        · cases hsome.symm.trans hnone
        · cases hsome.symm.trans ht
          refine ⟨passed ++ v :: items', (behind hasc hrest).2 ⟨hnull, items', ?_, rfl⟩, ?_⟩
          · simpa only [hskip] using hitems
          · refine edit_append_cons_eq_ok.2 (h.imp ?_ ?_)
            · rintro ⟨hvalue, rfl⟩
              exact ⟨hvalue, rfl⟩
            · rintro ⟨hvalue, new, honto, rfl⟩
              exact ⟨hvalue, new, honto, rfl⟩

/-- Edits in the order of their positions, carried out from the last one down, do to each element what the one for its
position says; those behind the end have to be erasures. -/
theorem runAll_edit_eq_ok (hasc : Ascending edits) : runAll edit edits.reverse items = .ok () result ↔
    (∀ e ∈ edits, items.length ≤ e.1 → e.2.value = .null) ∧ EditsTo (fun i => find? i edits) items result := by
  have h : runAll edit edits.reverse ([] ++ items) = .ok () result ↔ _ := runAll_edit_append_eq_ok hasc (by simp)
  simpa using h

/-- The edits of a plan do to each element what the first task that addresses it says. -/
theorem runAll_edit_ofTasks_eq_ok {tasks : List Task} {plan : Plan}
    (hplan : Plan.ofTasks items .empty tasks = .ok plan) : runAll edit plan.edits.reverse items = .ok () result ↔
      (∀ e ∈ plan.edits, items.length ≤ e.1 → e.2.value = .null) ∧
        EditsTo (fun i => tasks.find? (·.edits items i)) items result := by
  rw [runAll_edit_eq_ok (Plan.ascending_edits_ofTasks hplan List.Pairwise.nil)]
  simp only [Plan.find?_edits_ofTasks hplan, Plan.empty, find?_nil, Option.none_or]

/-- An array edit plans, carries out its edits, then its insertions, and then appends. -/
theorem editArray_eq_ok {tasks : List Task} : editArray tasks items = .ok () result ↔
    ∃ plan edited inserted, Plan.ofTasks items .empty tasks = .ok plan ∧
      runAll edit plan.edits.reverse items = .ok () edited ∧
      runAll insertion plan.insertions.reverse edited = .ok () inserted ∧
      runAll append plan.appended inserted = .ok () result := by
  unfold editArray
  cases hplan : Plan.ofTasks items .empty tasks with
  | error e => simp
  | ok plan =>
    cases hedit : runAll edit plan.edits.reverse items with
    | error e reached => simp [hedit]
    | ok _ edited =>
      cases hinsert : runAll insertion plan.insertions.reverse edited with
      | error e reached => simp [hedit, hinsert]
      | ok _ inserted => simp [hedit, hinsert]

/-! ## Edits alone -/

/-- Nothing is inserted or appended by the tasks. -/
def OnlyEdits (items : List Value) (tasks : List Task) : Prop :=
  ∀ t ∈ tasks, (∀ i, t.inserts items i = false) ∧ t.appends items = false

theorem OnlyEdits.plan {tasks : List Task} {plan : Plan} (h : OnlyEdits items tasks)
    (hplan : Plan.ofTasks items .empty tasks = .ok plan) : plan.insertions = [] ∧ plan.appended = [] := by
  constructor
  · refine eq_nil_of_find? fun i => ?_
    have hnone : tasks.find? (·.inserts items i) = none :=
      List.find?_eq_none.2 fun t ht => by simp [(h t ht).1 i]
    rw [Plan.find?_insertions_ofTasks hplan, hnone]
    rfl
  · have hnil : tasks.filter (·.appends items) = [] := List.filter_eq_nil_iff.2 fun t ht => by simp [(h t ht).2]
    rw [Plan.appended_ofTasks hplan, hnil]
    rfl

theorem OnlyEdits.editArray_eq_ok {tasks : List Task} (h : OnlyEdits items tasks) :
    editArray tasks items = .ok () result ↔ ∃ plan, Plan.ofTasks items .empty tasks = .ok plan ∧
      (∀ e ∈ plan.edits, items.length ≤ e.1 → e.2.value = .null) ∧
        EditsTo (fun i => tasks.find? (·.edits items i)) items result := by
  rw [Patch.editArray_eq_ok]
  refine exists_congr fun plan => ?_
  constructor
  · rintro ⟨edited, inserted, hplan, hedit, hinsert, happend⟩
    obtain ⟨hinsertions, happended⟩ := h.plan hplan
    rw [hinsertions] at hinsert
    rw [happended] at happend
    cases hinsert
    cases happend
    exact ⟨hplan, (runAll_edit_ofTasks_eq_ok hplan).1 hedit⟩
  · rintro ⟨hplan, hedits⟩
    obtain ⟨hinsertions, happended⟩ := h.plan hplan
    exact ⟨result, result, hplan, (runAll_edit_ofTasks_eq_ok hplan).2 hedits, by rw [hinsertions]; rfl,
      by rw [happended]; rfl⟩

end Carrying

end RecordStore.Patch
