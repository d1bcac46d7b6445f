import RecordStore.Patch.Merge

/-!
# Patches without directives

`mergePatch` is the algorithm MergePatch of RFC 7396 on documents. A patch none of whose nodes has a directive for a
key (`NoDirectives`) is merged as this algorithm says, and never fails: `merge_eq_mergePatch` for what is merged into a
member, `apply_eq_mergePatch` for the patch as a whole. Keys are not told apart by their kind, and what stands in an
array of the patch is data, whatever its keys are.
-/

namespace RecordStore.Patch

/-! ## The algorithm -/

mutual

/-- What a patch makes of a document: a patch that is no map takes its place, and a document that is no map counts as
an empty one. -/
def mergePatch : Value → Value → Value
  | .map patch, v => .map (mergePatchMembers patch v.members)
  | .null, _ => .null
  | .bool b, _ => .bool b
  | .int i, _ => .int i
  | .real x, _ => .real x
  | .str s, _ => .str s
  | .arr items, _ => .arr items

/-- Null deletes a member; any other value is merged into the old one, or into nothing. -/
def mergePatchMembers : List (Key × Value) → List (Key × Value) → List (Key × Value)
  | [], ms => ms
  | (k, v) :: patch, ms =>
    if v.isNull then mergePatchMembers patch (Entries.erase k ms)
    else mergePatchMembers patch (Entries.insert k (mergePatch v ((Entries.find? k ms).getD .null)) ms)

end

/-! ## Nodes of a patch -/

/-- The members of the maps that a patch leads to through members of maps, itself included. -/
inductive Node : Value → Members → Prop
  | root (ms : Members) : Node (.map ms) ms
  | member {ms node : Members} {e : Key × Value} : e ∈ ms → Node e.2 node → Node (.map ms) node

/-- A property of all nodes of a map is one of the map and of all nodes of its members. -/
theorem forall_node_map_iff {P : Members → Prop} {ms : Members} :
    (∀ node, Node (.map ms) node → P node) ↔ P ms ∧ ∀ e ∈ ms, ∀ node, Node e.2 node → P node := by
  constructor
  · intro h
    exact ⟨h ms (.root ms), fun e he node hnode => h node (.member he hnode)⟩
  · rintro ⟨hroot, hmembers⟩ node hnode
    cases hnode with
    | root => exact hroot
    | member he hnode => exact hmembers _ he node hnode

theorem not_node_of_ne_map {v : Value} (h : ∀ ms, v ≠ .map ms) (node : Members) : ¬ Node v node := by
  intro hnode
  cases hnode with
  | root => exact h node rfl
  | member _ _ => exact h _ rfl

/-- No node of the patch has a directive for a key. -/
def NoDirectives (patch : Value) : Prop := ∀ node, Node patch node → ∀ e ∈ node, isDirective e.1 = false

theorem noDirectives_map_iff {ms : Members} :
    NoDirectives (.map ms) ↔ (∀ e ∈ ms, isDirective e.1 = false) ∧ ∀ e ∈ ms, NoDirectives e.2 := forall_node_map_iff

theorem noDirectives_of_ne_map {v : Value} (h : ∀ ms, v ≠ .map ms) : NoDirectives v := fun node hnode =>
  absurd hnode (not_node_of_ne_map h node)

theorem kind_eq_plain_iff {ms : Members} : kind ms = .plain ↔ ∀ e ∈ ms, isDirective e.1 = false := by
  unfold kind
  split
  case isTrue h => simpa using h
  case isFalse h =>
    refine iff_of_false ?_ (by simpa using h)
    split <;> exact nofun

/-! ## Merging is the algorithm -/

/-- Members are merged as the algorithm says if their values are. -/
theorem mergeMembers_eq_mergePatchMembers {patch : Members}
    (h : ∀ e ∈ patch, ∀ v, merge e.2 v = .ok () (mergePatch e.2 v)) (ms : Members) :
    mergeMembers patch ms = .ok () (mergePatchMembers patch ms) := by
  induction patch generalizing ms with
  | nil => rfl
  | cons e patch ih =>
    obtain ⟨k, v⟩ := e
    have hv := h (k, v) List.mem_cons_self
    have ih := ih fun e he => h e (List.mem_cons_of_mem _ he)
    rw [mergeMembers, mergePatchMembers]
    split
    · exact ih _
    · rw [hv]
      exact ih _

theorem merge_eq_mergePatch {patch : Value} (h : NoDirectives patch) (v : Value) :
    merge patch v = .ok () (mergePatch patch v) := by
  induction patch using Value.induction generalizing v with
  | map ms ih =>
    obtain ⟨hroot, hmembers⟩ := noDirectives_map_iff.1 h
    have hms := mergeMembers_eq_mergePatchMembers fun e he => ih e he (hmembers e he)
    unfold merge
    rw [kind_eq_plain_iff.2 hroot]
    cases v with
    | map old =>
      dsimp only
      rw [hms old]
      rfl
    | _ =>
      dsimp only
      rw [hms []]
      rfl
  | _ => rfl

/-- A patch without directives never fails, and does what the algorithm says. -/
theorem apply_eq_mergePatch {patch : Value} (h : NoDirectives patch) (v : Value) :
    apply patch v = .ok () (mergePatch patch v) := by
  cases patch with
  | map ms =>
    obtain ⟨hroot, hmembers⟩ := noDirectives_map_iff.1 h
    have hms := mergeMembers_eq_mergePatchMembers (fun e he => merge_eq_mergePatch (hmembers e he)) v.members
    rw [apply_plain (kind_eq_plain_iff.2 hroot), hms]
    rfl
  | _ => rfl

/-- An integer key, a deletion, a map put in place of a number, and a `$` key inside an array. -/
theorem apply_eq_mergePatch_nested :
    let array : Value := .arr [.map [(.str "$x", .null)]]
    let patch : Value := .map [(.int 1, .map [(.str "a", .null), (.str "b", array)]),
      (.str "c", .map [(.str "d", .map [(.str "e", .null)])])]
    let target : Value := .map [(.int 1, .map [(.str "a", .int 2)]), (.str "c", .int 5)]
    let merged : Value := .map [(.int 1, .map [(.str "b", array)]), (.str "c", .map [(.str "d", .map [])])]
    NoDirectives patch ∧ apply patch target = .ok () merged := by
  intro array patch target merged
  have hscalars : NoDirectives .null ∧ NoDirectives array :=
    ⟨noDirectives_of_ne_map nofun, noDirectives_of_ne_map nofun⟩
  have h : NoDirectives patch := by
    simp [patch, noDirectives_map_iff, isDirective, hscalars]
  exact ⟨h, apply_eq_mergePatch h target⟩

end RecordStore.Patch
