import RecordStore.Proofs.Patch.ArrayEdit
import RecordStore.Proofs.Patch.MergePatch

/-!
# Merging taken apart

What a patch does to a document when it succeeds, by the kind of the patch: a plain map merges its members into those
of the document (`merge_plain_eq_ok`, `mergeMembers_cons_eq_ok`), and a map of directives, of which each key is one
(`isDirective_of_arrayEdit`), edits the elements of an array (`merge_arrayEdit_eq_ok`). A patch at the root differs from
one that is merged into a member only in what it leaves behind when it fails (`apply_eq_ok_iff`,
`apply_eq_error_iff`).
-/

namespace RecordStore.Patch

variable {patch : Members} {v v' : Value} {ms ms' : Members}

/-- A document that is no map counts as an empty one. -/
theorem merge_plain_eq_ok (h : kind patch = .plain) :
    merge (.map patch) v = .ok () v' ↔ ∃ ms, mergeMembers patch v.members = .ok () ms ∧ .map ms = v' := by
  unfold merge
  rw [h]
  cases v with
  | map ms => exact map_eq_ok_iff
  | _ =>
    dsimp only [Value.members]
    cases mergeMembers patch [] <;> simp

theorem map_eq_error_iff {σ τ : Type} {o : Outcome σ} {f : σ → τ} {e : Error} :
    (∃ t, o.map f id = .error e t) ↔ ∃ s, o = .error e s := by
  cases o <;> simp [Outcome.map]

theorem merge_plain_eq_error (h : kind patch = .plain) {e : Error} :
    (∃ reached, merge (.map patch) v = .error e reached) ↔
      ∃ reached, mergeMembers patch v.members = .error e reached := by
  unfold merge
  rw [h]
  cases v with
  | map ms => exact map_eq_error_iff
  | _ =>
    dsimp only [Value.members]
    cases mergeMembers patch [] <;> simp

theorem merge_arrayEdit_eq_ok (h : kind patch = .arrayEdit) : merge (.map patch) v = .ok () v' ↔
    ∃ items items', v = .arr items ∧ editArray (tasks patch) items = .ok () items' ∧ .arr items' = v' := by
  unfold merge
  rw [h]
  cases v with
  | arr items =>
    dsimp only
    simp [map_eq_ok_iff]
  | _ => simp

theorem isDirective_of_arrayEdit (h : kind patch = .arrayEdit) : ∀ e ∈ patch, isDirective e.1 = true := by
  unfold kind at h
  split at h
  · cases h
  · split at h
    case isTrue hall => exact List.all_eq_true.1 hall
    case isFalse => cases h

theorem merge_mixed_ne_ok (h : kind patch = .mixed) : merge (.map patch) v ≠ .ok () v' := by
  intro hmerge
  unfold merge at hmerge
  rw [h] at hmerge
  cases hmerge

theorem forall_mem_tasks_iff {motive : Task → Prop} :
    (∀ t ∈ tasks patch, motive t) ↔ ∀ e ∈ patch, motive ⟨e.1, e.2, merge e.2⟩ := by
  induction patch with
  | nil => simp [tasks]
  | cons e patch ih =>
    obtain ⟨k, v⟩ := e
    rw [tasks, List.forall_mem_cons, List.forall_mem_cons, ih]

/-- A null member takes the member of the document away; any other one is merged into it, or into null where the
document has none. -/
theorem mergeMembers_cons_eq_ok {k : Key} : mergeMembers ((k, v) :: patch) ms = .ok () ms' ↔
    v = .null ∧ mergeMembers patch (Entries.erase k ms) = .ok () ms' ∨
      v ≠ .null ∧ ∃ new, merge v ((Entries.find? k ms).getD .null) = .ok () new ∧
        mergeMembers patch (Entries.insert k new ms) = .ok () ms' := by
  rw [mergeMembers]
  split
  case isTrue h => simp [Value.isNull_eq_true_iff.1 h]
  case isFalse h =>
    rw [Value.isNull_eq_true_iff] at h
    cases merge v ((Entries.find? k ms).getD .null) <;> simp [h]

/-! ## Patches at the root -/

theorem apply_eq_ok_iff {p : Value} : apply p v = .ok () v' ↔ merge p v = .ok () v' := by
  cases p with
  | map patch =>
    by_cases h : kind patch = .plain
    · rw [apply_plain h, merge_plain_eq_ok h, map_eq_ok_iff]
    · rw [apply, if_neg h]
  | _ => rfl

theorem apply_eq_error_iff {p : Value} {e : Error} :
    (∃ reached, apply p v = .error e reached) ↔ ∃ reached, merge p v = .error e reached := by
  cases p with
  | map patch =>
    by_cases h : kind patch = .plain
    · rw [apply_plain h, merge_plain_eq_error h, map_eq_error_iff]
    · rw [apply, if_neg h]
  | _ => rfl

end RecordStore.Patch
