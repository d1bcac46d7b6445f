import RecordStore.Proofs.Query.Placement
import RecordStore.Proofs.Query.Reach

/-!
# Filters with more keys

More keys in a filter select fewer documents. They do so although a key may go into a group that another one has made,
and so change what is asked of one element: the predicate of the longer filter covers that of the shorter one
(`Covers`), group by group. Each criterion is placed where the longer filter has it too (`Covers.place`), which needs
that no two of its groups on one level have the same path; and what meets a predicate meets what it covers
(`allHold_of_covers`). Without groups a filter selects what each of its keys selects (`selects_iff_of_no_groups`).
-/

namespace RecordStore.Query

/-! ## Predicates that cover others -/

section Covers

/-- The first conditions ask for all that the second ones ask for: they have the same comparisons and groups of the same
paths, perhaps with more in them. -/
inductive Covers : List Condition → List Condition → Prop
  | nil (ds : List Condition) : Covers ds []
  | compare {ds cs : List Condition} {path : List String} {op : Operator} {target : Value} :
      .compare path op target ∈ ds → Covers ds cs → Covers ds (.compare path op target :: cs)
  | each {ds cs outer inner : List Condition} {path : List String} : .each path outer ∈ ds → Covers outer inner →
      Covers ds cs → Covers ds (.each path inner :: cs)

variable {cs ds : List Condition}

theorem covers_each_cons_iff {path : List String} {inner : List Condition} : Covers ds (.each path inner :: cs) ↔
    (∃ outer, .each path outer ∈ ds ∧ Covers outer inner) ∧ Covers ds cs := by
  constructor
  · intro h
    cases h with
    | each houter hinner h => exact ⟨⟨_, houter, hinner⟩, h⟩
  · rintro ⟨⟨outer, houter, hinner⟩, h⟩
    exact .each houter hinner h

theorem covers_append_iff {cs' : List Condition} : Covers ds (cs ++ cs') ↔ Covers ds cs ∧ Covers ds cs' := by
  induction cs with
  | nil => simp [Covers.nil]
  | cons c cs ih =>
    cases c with
    | compare path op target =>
      constructor
      · intro h
        cases h with
        | compare hmem h =>
          obtain ⟨hcs, hcs'⟩ := ih.1 h
          exact ⟨.compare hmem hcs, hcs'⟩
      · rintro ⟨h, hcs'⟩
        cases h with
        | compare hmem hcs => exact .compare hmem (ih.2 ⟨hcs, hcs'⟩)
    | each path inner => rw [List.cons_append, covers_each_cons_iff, covers_each_cons_iff, ih, and_assoc]

theorem allHold_of_covers (h : Covers ds cs) {v : Value} (hds : allHold ds v = true) : allHold cs v = true := by
  induction h generalizing v with
  | nil => rfl
  | compare hmem _ ih => exact allHold_iff.2 (List.forall_mem_cons.2 ⟨allHold_iff.1 hds _ hmem, allHold_iff.1 (ih hds)⟩)
  | each houter _ _ ihInner ih =>
    refine allHold_iff.2 (List.forall_mem_cons.2 ⟨?_, allHold_iff.1 (ih hds)⟩)
    -- the element that meets the larger group meets the smaller one
    obtain ⟨items, item, hitems, hitem, hold⟩ := holds_each_iff.1 (allHold_iff.1 hds _ houter)
    exact holds_each_iff.2 ⟨items, item, hitems, hitem, allHold_iff.1 (ihInner (allHold_iff.2 hold))⟩

/-! ## Placing what is covered -/

theorem WellGrouped.each_unique (h : WellGrouped cs) {path : List String} {inner inner' : List Condition}
    (hmem : .each path inner ∈ cs) (hmem' : .each path inner' ∈ cs) : inner = inner' := by
  obtain ⟨before, after, rfl⟩ := List.append_of_mem hmem
  have hpaths : (groupPaths before ++ path :: groupPaths after).Nodup := by simpa using (wellGrouped_iff.1 h).2
  have hother : path ∉ groupPaths before ++ groupPaths after :=
    (List.nodup_cons.1 (List.perm_middle.nodup_iff.1 hpaths)).1
  rw [← groupPaths_append] at hother
  rcases List.mem_cons.1 (List.perm_middle.mem_iff.1 hmem') with heq | hmem'
  · cases heq
    rfl
  · have hpath : path ∈ groupPaths (before ++ after) := List.mem_filterMap.2 ⟨_, hmem', rfl⟩
    exact absurd hpath hother

/-- What covers a predicate, and has a comparison in the same groups, covers the predicate with it. The induction is on
the groups: if the predicate has the outermost one, it is covered by the one that the comparison is in, for there is no
other of this path. -/
theorem Covers.place {path : List String} {op : Operator} {target : Value} {groups : List (List String)}
    (hds : WellGrouped ds) (h : Covers ds cs) (hplaced : (Condition.compare path op target).PlacedIn groups ds) :
    Covers ds ((Condition.compare path op target).place groups cs) := by
  induction groups generalizing cs ds with
  | nil => exact covers_append_iff.2 ⟨h, .compare hplaced (.nil ds)⟩
  | cons outer groups ih =>
    obtain ⟨full, hfull, hplaced⟩ := hplaced
    have hgroup : WellGrouped full := ((wellGrouped_iff.1 hds).1 _ hfull).2
    rw [Condition.place]
    obtain ⟨before, inner, after, rfl, hmodify⟩ | ⟨-, hmodify⟩ :=
      modifyGroup_cases outer ((Condition.compare path op target).place groups) cs
    · obtain ⟨hbefore, h⟩ := covers_append_iff.1 h
      obtain ⟨⟨full', hfull', hinner⟩, hafter⟩ := covers_each_cons_iff.1 h
      obtain rfl : full = full' := hds.each_unique hfull hfull'
      rw [hmodify]
      exact covers_append_iff.2 ⟨hbefore, .each hfull (ih hgroup hinner hplaced) hafter⟩
    · rw [hmodify]
      exact covers_append_iff.2 ⟨h, .each hfull (ih hgroup (.nil full) hplaced) (.nil ds)⟩

theorem Covers.foldl_addTo {criteria : List Criterion} (hds : WellGrouped ds) (h : Covers ds cs)
    (hplaced : ∀ c ∈ criteria, c.PlacedIn ds) : Covers ds (criteria.foldl Criterion.addTo cs) := by
  induction criteria generalizing cs with
  | nil => exact h
  | cons c criteria ih =>
    obtain ⟨hc, hcriteria⟩ := List.forall_mem_cons.1 hplaced
    exact ih (h.place hds hc) hcriteria

end Covers

/-! ## Whole filters -/

section Filters

variable {filter smaller : Filter} {v : Value}

/-- A filter that compiles covers all filters of some of its keys. -/
theorem exists_covers_of_subset (hsub : ∀ entry ∈ smaller, entry ∈ filter) {ds : List Condition}
    (h : compile filter = .ok ds) : ∃ cs, compile smaller = .ok cs ∧ Covers ds cs := by
  obtain ⟨hreadable, -⟩ := compile_eq_ok_iff.1 h
  refine ⟨_, compile_of_readable fun entry hentry => hreadable entry (hsub entry hentry), ?_⟩
  refine Covers.foldl_addTo (wellGrouped_of_compile_eq_ok h) (.nil ds) fun c hc => ?_
  obtain ⟨entry, hentry, rfl⟩ := List.mem_map.1 hc
  exact placedIn_of_compile_eq_ok h (hsub entry hentry)

theorem addTo_of_no_group {c : Criterion} (h : ¬ HasInnerAnyIndex c.path) (cs : List Condition) :
    c.addTo cs = cs ++ [c.condition] := by
  have hgroups : groups c.path = ([], c.path) := groupsFrom_of_no_cut h
  show c.condition.place (groups c.path).1 cs = _
  rw [hgroups]
  rfl

theorem foldl_addTo_of_no_groups {criteria : List Criterion} (h : ∀ c ∈ criteria, ¬ HasInnerAnyIndex c.path)
    (cs : List Condition) : criteria.foldl Criterion.addTo cs = cs ++ criteria.map Criterion.condition := by
  induction criteria generalizing cs with
  | nil => simp
  | cons c criteria ih =>
    obtain ⟨hc, hcriteria⟩ := List.forall_mem_cons.1 h
    rw [List.foldl_cons, addTo_of_no_group hc, ih hcriteria, List.append_assoc]
    rfl

/-- A filter without groups selects by its keys, each for itself. -/
theorem selects_iff_of_no_groups (h : ∀ entry ∈ filter, ¬ HasInnerAnyIndex (Criterion.spelled entry.1 entry.2).path) :
    filter.selects v = .ok true ↔ ∀ entry ∈ filter,
      ¬ Unreadable entry.1 ∧ (Criterion.spelled entry.1 entry.2).condition.holds v = true := by
  have hpaths : ∀ c ∈ filter.spelled, ¬ HasInnerAnyIndex c.path := List.forall_mem_map.2 h
  have hcompile : filter.spelled.foldl Criterion.addTo [] = filter.spelled.map Criterion.condition :=
    foldl_addTo_of_no_groups hpaths []
  have hold : allHold (filter.spelled.map Criterion.condition) v = true ↔
      ∀ entry ∈ filter, (Criterion.spelled entry.1 entry.2).condition.holds v = true := by
    rw [allHold_iff, List.forall_mem_map, Filter.spelled, List.forall_mem_map]
  simp only [selects_eq_ok_iff, compile_eq_ok_iff, hcompile]
  constructor
  · rintro ⟨_, ⟨hreadable, rfl⟩, hall⟩ entry hentry
    exact ⟨hreadable entry hentry, hold.1 hall entry hentry⟩
  · intro hall
    exact ⟨_, ⟨fun entry hentry => (hall entry hentry).1, rfl⟩, hold.2 fun entry hentry => (hall entry hentry).2⟩

/-- What a filter selects is selected by every filter of some of its entries, which compiles if it does. A filter none
of whose paths has an inner `ANYINDEX` selects exactly what all of its keys select, each as a filter of its own. -/
theorem selects_of_subset (hsub : ∀ entry ∈ smaller, entry ∈ filter) :
    (∀ v, filter.selects v = .ok true → smaller.selects v = .ok true) ∧
      ((∀ entry ∈ filter, ¬ HasInnerAnyIndex (Criterion.spelled entry.1 entry.2).path) →
        ∀ v, filter.selects v = .ok true ↔ ∀ entry ∈ filter, Filter.selects [entry] v = .ok true) := by
  constructor
  · intro v h
    obtain ⟨ds, hds, hold⟩ := selects_eq_ok_iff.1 h
    obtain ⟨cs, hcs, hcovers⟩ := exists_covers_of_subset hsub hds
    exact selects_eq_ok_iff.2 ⟨cs, hcs, allHold_of_covers hcovers hold⟩
  · intro h v
    rw [selects_iff_of_no_groups h]
    refine forall₂_congr fun entry hentry => ?_
    rw [selects_iff_of_no_groups (List.forall_mem_singleton.2 (h entry hentry)), List.forall_mem_singleton]

/-- The wider filter joins a group of the narrower one, makes one inside it, and makes another beside it; then a filter
without groups. -/
theorem selects_of_subset_nested :
    let narrow : Filter := [("a.ANYINDEX.b", .int 1), ("e", .int 7)]
    let wide : Filter := [("a.ANYINDEX.b", .int 1), ("a.ANYINDEX.c.gt", .int 2), ("a.ANYINDEX.g.ANYINDEX.h", .int 3),
      ("d.ANYINDEX.x.y", .int 5), ("e", .int 7)]
    let plain : Filter := [("a.c.gt", .int 2), ("e", .int 7)]
    let doc : Value := .map [(.str "a", .arr [.map [(.str "b", .int 1)],
        .map [(.str "b", .int 1), (.str "c", .int 3), (.str "g", .arr [.map [(.str "h", .int 3)]])]]),
      (.str "d", .arr [.map [(.str "x", .map [(.str "y", .int 5)])]]), (.str "e", .int 7)]
    (∀ entry ∈ narrow, entry ∈ wide) ∧ wide.selects doc = .ok true ∧ narrow.selects doc = .ok true ∧
      (∀ entry ∈ plain, ¬ HasInnerAnyIndex (Criterion.spelled entry.1 entry.2).path) ∧
        plain.selects doc = .ok true ∧ ∀ entry ∈ plain, Filter.selects [entry] doc = .ok true := by
  intro narrow wide plain doc
  have hsub : ∀ entry ∈ narrow, entry ∈ wide := by simp [narrow, wide]
  have hcompile : compile wide = .ok [
      .each ["a"] [.compare ["b"] .eq (.int 1), .compare ["c"] .gt (.int 2), .each ["g"] [.compare ["h"] .eq (.int 3)]],
      .each ["d"] [.compare ["x", "y"] .eq (.int 5)], .compare ["e"] .eq (.int 7)] := rfl
  have hwide : wide.selects doc = .ok true := selects_eq_ok_iff.2 ⟨_, hcompile, by decide +kernel⟩
  have hplain : ∀ entry ∈ plain, ¬ HasInnerAnyIndex (Criterion.spelled entry.1 entry.2).path := by
    simp only [plain, List.forall_mem_cons]
    decide
  have hcompilePlain : compile plain = .ok [.compare ["a", "c"] .gt (.int 2), .compare ["e"] .eq (.int 7)] := rfl
  have hselects : plain.selects doc = .ok true := selects_eq_ok_iff.2 ⟨_, hcompilePlain, by decide +kernel⟩
  exact ⟨hsub, hwide, (selects_of_subset hsub).1 doc hwide, hplain, hselects,
    ((selects_of_subset fun _ h => h).2 hplain doc).1 hselects⟩

end Filters

end RecordStore.Query
