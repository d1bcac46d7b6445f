import RecordStore.Proofs.Query.Compile
import RecordStore.Proofs.Sequence

/-!
# Where a compiled filter keeps its criteria

`c.PlacedIn groups cs`: the condition `c` stands in the innermost of the nested groups whose paths are `groups`,
outermost first. Placing a condition puts it there (`placedIn_place`), and what has its place keeps it whatever is
placed afterwards (`PlacedIn.place`), for a group that is in the way is changed, not replaced. So a compiled filter has
each of its criteria in the groups that its path is cut into (`placedIn_of_compile_eq_ok`).
-/

namespace RecordStore.Query

/-! ## Changing a group -/

section ModifyGroup

variable (path : List String) (f : List Condition → List Condition) {cs : List Condition}

/-- A condition stays where a group is changed, unless it is that group. -/
theorem mem_modifyGroup {c : Condition} (h : c ∈ cs) : c ∈ Condition.modifyGroup path f cs ∨
    ∃ inner, c = .each path inner ∧ .each path (f inner) ∈ Condition.modifyGroup path f cs := by
  obtain ⟨before, inner, after, rfl, hmodify⟩ | ⟨-, hmodify⟩ := modifyGroup_cases path f cs
  · rw [hmodify]
    rcases List.mem_append.1 h with h | h
    · exact .inl (List.mem_append_left _ h)
    · rcases List.mem_cons.1 h with rfl | h
      · exact .inr ⟨inner, rfl, by simp⟩
      · exact .inl (List.mem_append_right _ (List.mem_cons_of_mem _ h))
  · rw [hmodify]
    exact .inl (List.mem_append_left _ h)

theorem exists_each_mem_modifyGroup (cs : List Condition) :
    ∃ inner, .each path (f inner) ∈ Condition.modifyGroup path f cs := by
  obtain ⟨before, inner, after, rfl, hmodify⟩ | ⟨-, hmodify⟩ := modifyGroup_cases path f cs
  · exact ⟨inner, by rw [hmodify]; simp⟩
  · exact ⟨[], by rw [hmodify]; simp⟩

end ModifyGroup

/-! ## Placing conditions -/

section Placing

/-- The condition stands in the innermost of nested groups with the given paths, outermost first. -/
def Condition.PlacedIn (c : Condition) : (groups : List (List String)) → List Condition → Prop
  | [], cs => c ∈ cs
  | path :: groups, cs => ∃ inner, .each path inner ∈ cs ∧ c.PlacedIn groups inner

variable {c : Condition} {groups : List (List String)} {cs ds : List Condition}

theorem Condition.PlacedIn.mono (h : c.PlacedIn groups cs) (hsub : cs ⊆ ds) : c.PlacedIn groups ds := by
  cases groups with
  | nil => exact hsub h
  | cons path groups =>
    obtain ⟨inner, hinner, h⟩ := h
    exact ⟨inner, hsub hinner, h⟩

theorem placedIn_place (c : Condition) (groups : List (List String)) (cs : List Condition) :
    c.PlacedIn groups (c.place groups cs) := by
  induction groups generalizing cs with
  | nil => exact List.mem_append_right _ (List.mem_singleton.2 rfl)
  | cons path groups ih =>
    obtain ⟨inner, hinner⟩ := exists_each_mem_modifyGroup path (c.place groups) cs
    exact ⟨_, hinner, ih inner⟩

/-- A comparison that has its place keeps it when another condition is placed. The induction is on the groups of that
one: as long as they are those of the comparison, both go into the same group. -/
theorem Condition.PlacedIn.place {path : List String} {op : Operator} {target : Value}
    (h : (Condition.compare path op target).PlacedIn groups cs) (d : Condition) (groups' : List (List String)) :
    (Condition.compare path op target).PlacedIn groups (d.place groups' cs) := by
  induction groups' generalizing groups cs with
  | nil => exact h.mono (List.subset_append_left _ _)
  | cons path' groups' ih =>
    cases groups with
    | nil =>
      rcases mem_modifyGroup path' (d.place groups') h with h | ⟨inner, hc, -⟩
      · exact h
      · cases hc
    | cons outer groups =>
      obtain ⟨inner, hinner, h⟩ := h
      rcases mem_modifyGroup path' (d.place groups') hinner with hstays | ⟨inner', heq, hchanged⟩
      · exact ⟨inner, hstays, h⟩
      · cases heq
        exact ⟨_, hchanged, ih h⟩

end Placing

/-! ## Criteria -/

section Criteria

/-- What a criterion asks for inside its groups. -/
def Criterion.condition (c : Criterion) : Condition := .compare (groups c.path).2 c.op c.target

/-- The criterion stands in the groups that its path is cut into. -/
def Criterion.PlacedIn (c : Criterion) (cs : List Condition) : Prop := c.condition.PlacedIn (groups c.path).1 cs

variable {c : Criterion} {criteria : List Criterion} {cs : List Condition}

theorem Criterion.PlacedIn.foldl_addTo (h : c.PlacedIn cs) (criteria : List Criterion) :
    c.PlacedIn (criteria.foldl Criterion.addTo cs) := by
  induction criteria generalizing cs with
  | nil => exact h
  | cons d criteria ih => exact ih (Condition.PlacedIn.place h _ _)

theorem placedIn_foldl_addTo (hc : c ∈ criteria) (cs : List Condition) :
    c.PlacedIn (criteria.foldl Criterion.addTo cs) := by
  induction criteria generalizing cs with
  | nil => cases hc
  | cons d criteria ih =>
    rcases List.mem_cons.1 hc with rfl | hc
    · have hadded : c.PlacedIn (c.addTo cs) := placedIn_place _ _ cs
      exact hadded.foldl_addTo criteria
    · exact ih hc (d.addTo cs)

end Criteria

/-! ## Compiled filters -/

section Filters

variable {filter : Filter} {cs : List Condition}

theorem compile_eq_ok_iff : compile filter = .ok cs ↔
    (∀ entry ∈ filter, ¬ Unreadable entry.1) ∧ filter.spelled.foldl Criterion.addTo [] = cs := by
  by_cases h : ∃ entry ∈ filter, Unreadable entry.1
  · obtain ⟨e, he⟩ := compile_eq_error_iff.2 h
    obtain ⟨entry, hentry, hun⟩ := h
    rw [he]
    exact iff_of_false nofun fun hreadable => hreadable.1 entry hentry hun
  · have hreadable : ∀ entry ∈ filter, ¬ Unreadable entry.1 := fun entry hentry hun => h ⟨entry, hentry, hun⟩
    rw [compile_of_readable hreadable, Except.ok.injEq]
    exact ⟨fun hcs => ⟨hreadable, hcs⟩, fun hcs => hcs.2⟩

theorem spelled_mem {entry : String × Value} (h : entry ∈ filter) : .spelled entry.1 entry.2 ∈ filter.spelled :=
  List.mem_map.2 ⟨entry, h, rfl⟩

/-- A compiled filter has every criterion in its groups. -/
theorem placedIn_of_compile_eq_ok (h : compile filter = .ok cs) {entry : String × Value} (hmem : entry ∈ filter) :
    (Criterion.spelled entry.1 entry.2).PlacedIn cs := by
  obtain ⟨-, rfl⟩ := compile_eq_ok_iff.1 h
  exact placedIn_foldl_addTo (spelled_mem hmem) []

theorem wellGrouped_of_compile_eq_ok (h : compile filter = .ok cs) : WellGrouped cs := by
  obtain ⟨hreadable, rfl⟩ := compile_eq_ok_iff.1 h
  refine wellGrouped_nil.foldl_addTo fun c hc => ?_
  obtain ⟨entry, hentry, rfl⟩ := List.mem_map.1 hc
  exact spelled_path_ne_nil (hreadable entry hentry) entry.2

theorem selects_eq_ok_iff {v : Value} {b : Bool} :
    filter.selects v = .ok b ↔ ∃ cs, compile filter = .ok cs ∧ allHold cs v = b := by
  rw [Filter.selects, except_bind_eq_ok]
  simp only [except_pure_eq_ok]

end Filters

end RecordStore.Query
