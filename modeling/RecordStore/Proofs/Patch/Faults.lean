import RecordStore.Proofs.Patch.Merging

/-!
# No patch runs into a fault

Reading a directive asks for the text of its key, and for the first character of that. Both are there, because an array
is only edited by keys that start with `$`; and a plain map is merged into a map. So whatever goes wrong with a patch,
on any document, is no fault (`faultFree_merge`, `faultFree_apply`).
-/

namespace RecordStore.Patch

variable {σ τ : Type} {o : Outcome σ} {e : Error} {cause : Cause} {patch : Members} {v : Value}

/-- What goes wrong, if anything does, is no fault. -/
def FaultFree (o : Outcome σ) : Prop := ∀ e s, o = .error e s → e.fault? = none

theorem faultFree_ok (s : σ) : FaultFree (.ok () s : Outcome σ) := nofun

theorem faultFree_error (h : e.fault? = none) (s : σ) : FaultFree (.error e s : Outcome σ) := by
  rintro _ _ ⟨⟩
  exact h

theorem FaultFree.map (h : FaultFree o) (f : σ → τ) {g : Error → Error} (hg : ∀ e, (g e).fault? = e.fault?) :
    FaultFree (o.map f g) := by
  cases o with
  | ok _ s => exact faultFree_ok _
  | error e s => exact faultFree_error ((hg e).trans (h e s rfl)) _

theorem fault?_under (segment : String) (e : Error) : (e.under segment).fault? = e.fault? := rfl

theorem FaultFree.error_under {s : σ} (h : FaultFree o) (ho : o = .error e s) (segment : String) (t : τ) :
    FaultFree (.error (e.under segment) t : Outcome τ) :=
  faultFree_error ((fault?_under segment e).trans (h e s ho)) t

/-! ## Reading directives -/

section Reading

variable {items : List Value} {plan : Plan} {task : Task} {tasks : List Task}

theorem fault?_of_ofAddress {inserts : Bool} {address : List Char}
    (h : Directive.ofAddress inserts address = .error cause) : cause.fault? = none := by
  unfold Directive.ofAddress at h
  split at h
  · split at h
    · cases h
    · cases h
      rfl
  · split at h
    · split at h
      · cases h
      · cases h
        rfl
    · split at h
      · cases h
      · cases h
        rfl

/-- A directive has a text, and a first character in it. -/
theorem fault?_of_ofKey {key : Key} {value : Value} (hkey : isDirective key = true)
    (h : Directive.ofKey key value = .error cause) : cause.fault? = none := by
  cases key with
  | int i => cases hkey
  | str text =>
    rw [Directive.ofKey] at h
    cases hchars : text.toList with
    | nil =>
      rw [isDirective, hchars] at hkey
      cases hkey
    | cons c signed =>
      rw [hchars] at h
      dsimp only at h
      unfold Directive.ofSigned at h
      split at h
      · split at h
        · cases h
          rfl
        · exact fault?_of_ofAddress h
      · exact fault?_of_ofAddress h

theorem fault?_of_queue {conflict : Nat → Cause} (hconflict : ∀ pos, (conflict pos).fault? = none)
    {queued : List (Nat × Task)} {pos : Nat} (h : Plan.queue conflict task queued pos = .error cause) :
    cause.fault? = none := by
  unfold Plan.queue at h
  split at h
  · cases h
  · split at h
    · cases h
    · cases h
      exact hconflict pos

theorem fault?_of_queueAll {conflict : Nat → Cause} (hconflict : ∀ pos, (conflict pos).fault? = none)
    {positions : List Nat} {queued : List (Nat × Task)}
    (h : positions.foldlM (Plan.queue conflict task) queued = .error cause) : cause.fault? = none := by
  induction positions generalizing queued with
  | nil => cases h
  | cons pos positions ih =>
    rw [List.foldlM_cons] at h
    rcases except_bind_eq_error.1 h with h | ⟨queued', -, h⟩
    · exact fault?_of_queue hconflict h
    · exact ih h

theorem fault?_of_add (hkey : isDirective task.key = true) (h : plan.add items task = .error cause) :
    cause.fault? = none := by
  unfold Plan.add at h
  rcases except_bind_eq_error.1 h with h | ⟨d, -, h⟩
  · exact fault?_of_ofKey hkey h
  · cases d with
    | edit i => exact fault?_of_queue (fun _ => rfl) (except_map_eq_error.1 h)
    | editMatching selector => exact fault?_of_queueAll (fun _ => rfl) (except_map_eq_error.1 h)
    | insert i => exact fault?_of_queue (fun _ => rfl) (except_map_eq_error.1 h)
    | append => cases h
    | appendUnless selector =>
      dsimp only at h
      split at h
      · cases h
      · cases h

theorem fault?_of_ofTasks (hkeys : ∀ t ∈ tasks, isDirective t.key = true)
    (h : Plan.ofTasks items plan tasks = .error e) : e.fault? = none := by
  induction tasks generalizing plan with
  | nil => cases h
  | cons task tasks ih =>
    obtain ⟨hkey, hkeys⟩ := List.forall_mem_cons.1 hkeys
    rw [Plan.ofTasks] at h
    cases hadd : plan.add items task with
    | ok plan =>
      rw [hadd] at h
      exact ih hkeys h
    | error cause =>
      rw [hadd] at h
      cases h
      exact fault?_of_add hkey hadd

end Reading

/-! ## Editing arrays -/

section Editing

variable {items : List Value} {task : Task} {tasks : List Task}

theorem faultFree_runAll {run : τ → List Value → Outcome (List Value)} {ts : List τ}
    (h : ∀ t ∈ ts, ∀ items, FaultFree (run t items)) (items : List Value) : FaultFree (runAll run ts items) := by
  induction ts generalizing items with
  | nil => exact faultFree_ok _
  | cons t ts ih =>
    obtain ⟨ht, hts⟩ := List.forall_mem_cons.1 h
    rw [runAll]
    cases hrun : run t items with
    | ok _ items => exact ih hts items
    | error e reached => exact faultFree_error (ht items e reached hrun) _

theorem faultFree_edit {i : Nat} (h : ∀ v, FaultFree (task.onto v)) (items : List Value) :
    FaultFree (edit (i, task) items) := by
  unfold edit
  dsimp only
  split
  · exact faultFree_ok _
  · split
    · exact faultFree_error rfl _
    · exact (h _).map _ (fault?_under _)

theorem faultFree_insertion {i : Nat} (h : ∀ v, FaultFree (task.onto v)) (items : List Value) :
    FaultFree (insertion (i, task) items) := by
  unfold insertion
  dsimp only
  cases hnew : task.onto .null with
  | ok _ v => exact faultFree_ok _
  | error e reached => exact (h _).error_under hnew _ _

theorem faultFree_append (h : ∀ v, FaultFree (task.onto v)) (items : List Value) :
    FaultFree (append task items) := by
  unfold append
  cases hnew : task.onto .null with
  | ok _ v => exact faultFree_ok _
  | error e reached => exact (h _).error_under hnew _ _

/-- An array edit runs into no fault if its keys are directives and none of its values does. -/
theorem faultFree_editArray (hkeys : ∀ t ∈ tasks, isDirective t.key = true)
    (h : ∀ t ∈ tasks, ∀ v, FaultFree (t.onto v)) (items : List Value) : FaultFree (editArray tasks items) := by
  unfold editArray
  cases hplan : Plan.ofTasks items .empty tasks with
  | error e => exact faultFree_error (fault?_of_ofTasks hkeys hplan) _
  | ok plan =>
    obtain ⟨hedits, hinsertions, happended⟩ := Plan.forall_mem_plan hplan h
    have hedit : ∀ e ∈ plan.edits.reverse, ∀ items, FaultFree (edit e items) := fun e he =>
      faultFree_edit (hedits e (List.mem_reverse.1 he))
    have hinsertion : ∀ e ∈ plan.insertions.reverse, ∀ items, FaultFree (insertion e items) := fun e he =>
      faultFree_insertion (hinsertions e (List.mem_reverse.1 he))
    dsimp only
    cases hedited : runAll edit plan.edits.reverse items with
    | error e reached => exact faultFree_error (faultFree_runAll hedit items e reached hedited) _
    | ok _ edited =>
      dsimp only
      cases hinserted : runAll insertion plan.insertions.reverse edited with
      | error e reached => exact faultFree_error (faultFree_runAll hinsertion edited e reached hinserted) _
      | ok _ inserted => exact faultFree_runAll (fun t ht => faultFree_append (happended t ht)) inserted

end Editing

/-! ## Merging -/

theorem faultFree_mergeMembers (h : ∀ e ∈ patch, ∀ v, FaultFree (merge e.2 v)) (ms : Members) :
    FaultFree (mergeMembers patch ms) := by
  induction patch generalizing ms with
  | nil => exact faultFree_ok _
  | cons e patch ih =>
    obtain ⟨k, p⟩ := e
    obtain ⟨hp, hpatch⟩ := List.forall_mem_cons.1 h
    rw [mergeMembers]
    split
    · exact ih hpatch _
    · cases hmerge : merge p ((Entries.find? k ms).getD .null) with
      | ok _ new => exact ih hpatch _
      | error e reached => exact (hp _).error_under hmerge _ _

/-- The induction is on the patch; the keys of an array edit are directives by its kind. -/
theorem faultFree_merge (p v : Value) : FaultFree (merge p v) := by
  induction p using Value.induction generalizing v with
  | map patch ih =>
    unfold merge
    cases hkind : kind patch with
    | mixed => exact faultFree_error rfl _
    | arrayEdit =>
      cases v with
      | arr items =>
        have hkeys : ∀ t ∈ tasks patch, isDirective t.key = true :=
          forall_mem_tasks_iff.2 (isDirective_of_arrayEdit hkind)
        exact (faultFree_editArray hkeys (forall_mem_tasks_iff.2 ih) items).map _ fun _ => rfl
      | _ => exact faultFree_error rfl _
    | plain =>
      cases v with
      | map ms => exact (faultFree_mergeMembers ih ms).map _ fun _ => rfl
      | _ =>
        dsimp only
        cases hmembers : mergeMembers patch [] with
        | ok _ ms => exact faultFree_ok _
        | error e reached => exact faultFree_error (faultFree_mergeMembers ih [] e reached hmembers) _
  | _ => exact faultFree_ok _

theorem faultFree_apply (p v : Value) : FaultFree (apply p v) := by
  intro e reached h
  obtain ⟨reached', hmerge⟩ := apply_eq_error_iff.1 ⟨reached, h⟩
  exact faultFree_merge p v e reached' hmerge

end RecordStore.Patch
