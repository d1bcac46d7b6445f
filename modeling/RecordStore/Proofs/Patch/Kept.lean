import RecordStore.Proofs.Patch.Merging
import RecordStore.Proofs.Value.Parts

/-!
# Properties that patches keep

Whether a document has a property often depends on its elements and members alone (`Inherited`). Such a property is
kept by a patch that can be applied, if the parts that it copies have it: its scalars and its arrays (`keeps_merge`).
-/

namespace RecordStore.Patch

variable {P : Value → Prop} {R : Key → Value → Prop} {v v' : Value} {ms ms' patch : Members}

/-! ## Inherited properties -/

/-- An array has the property if its elements have, and a map if its members have and stand well under their keys. Any
member but null stands well under a key that is no directive. -/
structure Inherited (P : Value → Prop) (R : Key → Value → Prop) : Prop where
  null : P .null
  arr_iff {items : List Value} : P (.arr items) ↔ ∀ v ∈ items, P v
  map_iff {ms : Members} : P (.map ms) ↔ ∀ e ∈ ms, R e.1 e.2 ∧ P e.2
  member {k : Key} {v : Value} : isDirective k = false → v ≠ .null → R k v

theorem Inherited.members (hP : Inherited P R) (hv : P v) : P (.map v.members) := by
  cases v with
  | map ms => exact hv
  | _ => exact hP.map_iff.2 nofun

theorem Inherited.erase (hP : Inherited P R) (hms : P (.map ms)) (k : Key) : P (.map (Entries.erase k ms)) :=
  hP.map_iff.2 fun e he => hP.map_iff.1 hms e (List.mem_filter.1 he).1

theorem Inherited.insert (hP : Inherited P R) (hms : P (.map ms)) {k : Key} (hk : isDirective k = false) (hv : P v)
    (hne : v ≠ .null) : P (.map (Entries.insert k v ms)) := by
  refine hP.map_iff.2 fun e he => ?_
  rcases Entries.mem_insert he with rfl | he
  · exact ⟨hP.member hk hne, hv⟩
  · exact hP.map_iff.1 hms e he

theorem Inherited.find (hP : Inherited P R) (hms : P (.map ms)) (k : Key) :
    P ((Entries.find? k ms).getD .null) := by
  cases hfind : Entries.find? k ms with
  | none => exact hP.null
  | some v => exact (hP.map_iff.1 hms _ (Entries.mem_of_find? hfind)).2

/-! ## Changes that keep a property -/

/-- A change of a document that keeps a property where it succeeds. -/
def Keeps (P : Value → Prop) (onto : Value → Outcome Value) : Prop := ∀ v v', P v → onto v = .ok () v' → P v'

section Items

variable {τ : Type} {run : τ → List Value → Outcome (List Value)}

/-- The elements that a change leaves have a property if those before it had. -/
def KeepsItems (P : Value → Prop) (change : List Value → Outcome (List Value)) : Prop :=
  ∀ items items', (∀ v ∈ items, P v) → change items = .ok () items' → ∀ v ∈ items', P v

theorem keepsItems_runAll {ts : List τ} (step : ∀ t ∈ ts, KeepsItems P (run t)) : KeepsItems P (runAll run ts) := by
  induction ts with
  | nil =>
    intro items items' hitems h
    cases h
    exact hitems
  | cons t ts ih =>
    intro items items' hitems h
    obtain ⟨step, rest⟩ := List.forall_mem_cons.1 step
    rw [runAll] at h
    cases hrun : run t items with
    | ok _ mid =>
      rw [hrun] at h
      exact ih rest mid items' (step items mid hitems hrun) h
    | error e reached =>
      rw [hrun] at h
      cases h

theorem keepsItems_edit {e : Nat × Task} (h : Keeps P e.2.onto) : KeepsItems P (edit e) := by
  intro items items' hitems hedit v hv
  obtain ⟨-, rfl⟩ | ⟨-, old, new, hold, hnew, rfl⟩ := edit_eq_ok.1 hedit
  · exact hitems v (List.mem_of_mem_eraseIdx hv)
  · rcases List.mem_or_eq_of_mem_set hv with hv | rfl
    · exact hitems v hv
    · exact h old v (hitems old (List.mem_of_getElem? hold)) hnew

theorem keepsItems_insertion (hnull : P .null) {e : Nat × Task} (h : Keeps P e.2.onto) :
    KeepsItems P (insertion e) := by
  intro items items' hitems hinsert v hv
  obtain ⟨new, hnew, rfl⟩ := insertion_eq_ok.1 hinsert
  rcases (List.mem_insertIdx (Nat.min_le_right _ _)).1 hv with rfl | hv
  · exact h .null v hnull hnew
  · exact hitems v hv

theorem keepsItems_append (hnull : P .null) {task : Task} (h : Keeps P task.onto) : KeepsItems P (append task) := by
  intro items items' hitems happend v hv
  obtain ⟨new, hnew, rfl⟩ := append_eq_ok.1 happend
  rcases List.mem_append.1 hv with hv | hv
  · exact hitems v hv
  · obtain rfl := List.mem_singleton.1 hv
    exact h .null v hnull hnew

/-- An array edit keeps what its tasks keep of the elements, if null has it as well. -/
theorem keepsItems_editArray (hnull : P .null) {tasks : List Task} (h : ∀ t ∈ tasks, Keeps P t.onto) :
    KeepsItems P (editArray tasks) := by
  intro items items' hitems hrun
  obtain ⟨plan, edited, inserted, hplan, hedit, hinsert, happend⟩ := editArray_eq_ok.1 hrun
  obtain ⟨hedits, hinsertions, happended⟩ := Plan.forall_mem_plan hplan h
  have hedited := keepsItems_runAll (fun e he => keepsItems_edit (hedits e (List.mem_reverse.1 he))) _ _ hitems hedit
  have hinserted := keepsItems_runAll
    (fun e he => keepsItems_insertion hnull (hinsertions e (List.mem_reverse.1 he))) _ _ hedited hinsert
  exact keepsItems_runAll (fun t ht => keepsItems_append hnull (happended t ht)) _ _ hinserted happend

end Items

/-! ## Merging -/

/-- Only null, merged into a document, gives null. -/
theorem ne_null_of_merge {p : Value} (hp : p ≠ .null) (h : merge p v = .ok () v') : v' ≠ .null := by
  rintro rfl
  cases p with
  | null => exact hp rfl
  | map patch =>
    cases hkind : kind patch with
    | plain =>
      obtain ⟨ms, -, hms⟩ := (merge_plain_eq_ok hkind).1 h
      cases hms
    | arrayEdit =>
      obtain ⟨_, items, -, -, hitems⟩ := (merge_arrayEdit_eq_ok hkind).1 h
      cases hitems
    | mixed => exact merge_mixed_ne_ok hkind h
  | _ =>
    rw [merge] at h
    cases h

theorem Inherited.of_mergeMembers (hP : Inherited P R) (hplain : ∀ e ∈ patch, isDirective e.1 = false)
    (hkeeps : ∀ e ∈ patch, Keeps P (merge e.2)) (hms : P (.map ms)) (h : mergeMembers patch ms = .ok () ms') :
    P (.map ms') := by
  induction patch generalizing ms with
  | nil =>
    cases h
    exact hms
  | cons e patch ih =>
    obtain ⟨k, v⟩ := e
    obtain ⟨hk, hplain⟩ := List.forall_mem_cons.1 hplain
    obtain ⟨hv, hkeeps⟩ := List.forall_mem_cons.1 hkeeps
    obtain ⟨-, h⟩ | ⟨hne, new, hnew, h⟩ := mergeMembers_cons_eq_ok.1 h
    · exact ih hplain hkeeps (hP.erase hms k) h
    · -- what is merged into has the property also where the document has no such member, for then it is null
      have hnewP : P new := hv _ new (hP.find hms k) hnew
      exact ih hplain hkeeps (hP.insert hms hk hnewP (ne_null_of_merge hne hnew)) h

/-- The induction is on the patch: members of a plain map and tasks of an array edit keep the property by hypothesis,
and the rest of the patch is copied. -/
theorem keeps_merge (hP : Inherited P R) {p : Value} (hcopied : ∀ part, p.Part part → part.isMap = false → P part) :
    Keeps P (merge p) := by
  induction p using Value.induction with
  | map patch ih =>
    have hkeeps : ∀ e ∈ patch, Keeps P (merge e.2) := fun e he =>
      ih e he fun part hpart => hcopied part (.member he hpart)
    intro v v' hv hmerge
    cases hkind : kind patch with
    | plain =>
      obtain ⟨ms, hms, rfl⟩ := (merge_plain_eq_ok hkind).1 hmerge
      exact hP.of_mergeMembers (kind_eq_plain_iff.1 hkind) hkeeps (hP.members hv) hms
    | arrayEdit =>
      obtain ⟨items, items', rfl, hedit, rfl⟩ := (merge_arrayEdit_eq_ok hkind).1 hmerge
      have htasks : ∀ t ∈ tasks patch, Keeps P t.onto := forall_mem_tasks_iff.2 hkeeps
      exact hP.arr_iff.2 (keepsItems_editArray hP.null htasks _ _ (hP.arr_iff.1 hv) hedit)
    | mixed => exact absurd hmerge (merge_mixed_ne_ok hkind)
  | _ =>
    intro v v' hv hmerge
    rw [merge] at hmerge
    cases hmerge
    exact hcopied _ .self rfl

end RecordStore.Patch
