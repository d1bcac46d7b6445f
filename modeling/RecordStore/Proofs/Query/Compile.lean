import RecordStore.Proofs.Path.Segments
import RecordStore.Query.Compile
import RecordStore.Query.Match

/-!
# What a compiled filter asks for

Flattening a predicate takes each comparison out of its groups and puts their paths before its own, with `ANYINDEX`
behind each. Cutting a path into groups can be undone (`ungrouped_groupsFrom`), and placing a condition adds it to the
flat predicate whatever groups are there (`flattenAll_place`), so compiling neither loses nor repeats an entry.

* `compile_spec`: which filters compile, and that the predicate asks for every entry once, in groups that are never
  split;
* `compile_keyOf`: the predicate of a single key that has no group.
-/

namespace RecordStore.Query

/-! ## Keys -/

section Keys

variable {key : String}

/-- No criterion can be read from the key: it is empty, it has an empty part, or it only names an operator. -/
def Unreadable (key : String) : Prop := key = "" ∨ "" ∈ Path.parts key ∨ Operator.isName key = true

/-- What a readable key asks for: its parts are the path, but for a last part that names the operator. -/
def Criterion.spelled (key : String) (target : Value) : Criterion :=
  match (Path.parts key).getLast?.bind Operator.ofName? with
  | some op => ⟨(Path.parts key).dropLast, op, target⟩
  | none => ⟨Path.parts key, .eq, target⟩

theorem Operator.not_point_mem_of_isName {name : String} (h : Operator.isName name = true) : '.' ∉ name.toList := by
  unfold isName ofName? at h
  split at h
  case h_10 => cases h
  all_goals decide

theorem parts_of_isName (h : Operator.isName key = true) : Path.parts key = [key] := by
  have hpieces : Text.pieces '.' key.toList = [key.toList] := by
    rw [Text.pieces_eq_splitOn, List.splitOn_eq_singleton (Operator.not_point_mem_of_isName h)]
  simp [Path.parts, hpieces]

/-- A key whose last part is an operator has a path before it, or is the name of that operator. -/
theorem isName_of_dropLast_eq_nil {op : Operator}
    (hlast : (Path.parts key).getLast?.bind Operator.ofName? = some op) (hdrop : (Path.parts key).dropLast = []) :
    Operator.isName key = true := by
  obtain ⟨last, hmem, hop⟩ := Option.bind_eq_some_iff.1 hlast
  obtain ⟨before, hparts⟩ := List.getLast?_eq_some_iff.1 hmem
  rw [hparts, List.dropLast_concat] at hdrop
  rw [hdrop, List.nil_append] at hparts
  rw [Path.eq_of_parts_eq_singleton hparts, Operator.isName, hop]
  rfl

theorem ofEntry_of_readable (h : ¬ Unreadable key) (target : Value) :
    Criterion.ofEntry key target = .ok (.spelled key target) := by
  simp only [Unreadable, not_or] at h
  obtain ⟨hne, hparts, hname⟩ := h
  unfold Criterion.ofEntry Criterion.spelled
  rw [if_neg hne, Path.segments?_eq, if_neg hparts]
  dsimp only
  cases hlast : (Path.parts key).getLast?.bind Operator.ofName? with
  | none => rfl
  | some op => exact if_neg fun hdrop => hname (isName_of_dropLast_eq_nil hlast hdrop)

theorem ofEntry_of_unreadable (h : Unreadable key) (target : Value) :
    ∃ e, Criterion.ofEntry key target = .error e := by
  unfold Criterion.ofEntry
  split
  · exact ⟨_, rfl⟩
  case isFalse hne =>
    rw [Path.segments?_eq]
    by_cases hparts : "" ∈ Path.parts key
    · rw [if_pos hparts]
      exact ⟨_, rfl⟩
    · have hname : Operator.isName key = true := (h.resolve_left hne).resolve_left hparts
      obtain ⟨op, hop⟩ := Option.isSome_iff_exists.1 hname
      rw [if_neg hparts]
      simp [parts_of_isName hname, hop]

end Keys

/-! ## Cutting a path into groups -/

section Groups

/-- The path that the paths of groups, outermost first, and a path inside the innermost one were cut from. -/
def ungrouped (groups : List (List String)) (path : List String) : List String :=
  groups.foldr (fun outer path => outer ++ anyIndex :: path) path

theorem ungrouped_groupsFrom (before path : List String) :
    ungrouped (groupsFrom before path).1 (groupsFrom before path).2 = before ++ path := by
  induction path generalizing before with
  | nil => simp [groupsFrom, ungrouped]
  | cons s rest ih =>
    rw [groupsFrom]
    split
    case isTrue h =>
      have hrest := ih []
      rw [ungrouped, List.nil_append] at hrest
      rw [ungrouped, List.foldr_cons, hrest, h.1]
    case isFalse =>
      rw [ih, List.append_assoc]
      rfl

theorem groupsFrom_ne_nil (before path : List String) (h : before ≠ [] ∨ path ≠ []) :
    (∀ outer ∈ (groupsFrom before path).1, outer ≠ []) ∧ (groupsFrom before path).2 ≠ [] := by
  induction path generalizing before with
  | nil => simpa [groupsFrom] using h
  | cons s rest ih =>
    rw [groupsFrom]
    split
    case isTrue hcut =>
      obtain ⟨-, hbefore, hrest⟩ := hcut
      obtain ⟨hgroups, hpath⟩ := ih [] (.inr hrest)
      exact ⟨List.forall_mem_cons.2 ⟨hbefore, hgroups⟩, hpath⟩
    case isFalse => exact ih _ (.inl (by simp))

/-- The path has the segment `ANYINDEX` with others before and after it. -/
def HasInnerAnyIndex (path : List String) : Prop :=
  ∃ before after, before ≠ [] ∧ after ≠ [] ∧ path = before ++ anyIndex :: after

theorem hasInnerAnyIndex_iff {path : List String} : HasInnerAnyIndex path ↔ anyIndex ∈ path.tail.dropLast := by
  constructor
  · rintro ⟨before, after, hbefore, hafter, rfl⟩
    rw [List.tail_append_of_ne_nil hbefore, List.dropLast_append_of_ne_nil (List.cons_ne_nil _ _),
      List.dropLast_cons_of_ne_nil hafter]
    exact List.mem_append_right _ List.mem_cons_self
  · intro h
    cases path with
    | nil => cases h
    | cons first rest =>
      rw [List.tail_cons] at h
      rcases List.eq_nil_or_concat rest with rfl | ⟨init, last, rfl⟩
      · cases h
      · rw [List.concat_eq_append, List.dropLast_concat] at h
        obtain ⟨before, after, rfl⟩ := List.append_of_mem h
        exact ⟨first :: before, after ++ [last], List.cons_ne_nil _ _, by simp, by simp⟩

instance (path : List String) : Decidable (HasInnerAnyIndex path) := decidable_of_iff _ hasInnerAnyIndex_iff.symm

theorem groupsFrom_of_no_cut {before path : List String} (h : ¬ HasInnerAnyIndex (before ++ path)) :
    groupsFrom before path = ([], before ++ path) := by
  induction path generalizing before with
  | nil => rw [groupsFrom, List.append_nil]
  | cons s rest ih =>
    rw [groupsFrom, if_neg]
    · rw [ih (by rwa [List.append_assoc]), List.append_assoc]
      rfl
    · rintro ⟨rfl, hbefore, hrest⟩
      exact h ⟨before, rest, hbefore, hrest, rfl⟩

end Groups

/-! ## Placing conditions -/

section Placing

/-- The criterion at a path before its own. -/
def Criterion.under (outer : List String) (c : Criterion) : Criterion := { c with path := outer ++ c.path }

mutual

/-- The comparisons of a condition, each with the paths of its groups and `ANYINDEX` behind them before its own. -/
def Condition.flatten : Condition → List Criterion
  | .compare path op target => [⟨path, op, target⟩]
  | .each path conditions => (flattenAll conditions).map (.under (path ++ [anyIndex]))

def flattenAll : List Condition → List Criterion
  | [] => []
  | c :: cs => c.flatten ++ flattenAll cs

end

def Condition.path : Condition → List String
  | .compare path _ _ => path
  | .each path _ => path

def Condition.groupPath? : Condition → Option (List String)
  | .compare _ _ _ => none
  | .each path _ => some path

/-- The conditions of a group; a comparison has none. -/
def Condition.inner : Condition → List Condition
  | .compare _ _ _ => []
  | .each _ conditions => conditions

/-- The paths of the groups in a list of conditions. -/
def groupPaths (cs : List Condition) : List (List String) := cs.filterMap Condition.groupPath?

@[simp] theorem groupPaths_append (cs ds : List Condition) : groupPaths (cs ++ ds) = groupPaths cs ++ groupPaths ds :=
  List.filterMap_append

@[simp] theorem groupPaths_cons_each (path : List String) (inner cs : List Condition) :
    groupPaths (.each path inner :: cs) = path :: groupPaths cs := rfl

@[simp] theorem groupPaths_cons_compare (path : List String) (op : Operator) (target : Value) (cs : List Condition) :
    groupPaths (.compare path op target :: cs) = groupPaths cs := rfl

@[simp] theorem groupPaths_nil : groupPaths [] = [] := rfl

/-- The list itself and the conditions of its groups, at every depth. -/
inductive Level : List Condition → List Condition → Prop
  | top (cs : List Condition) : Level cs cs
  | inner {cs level inner : List Condition} {path : List String} : .each path inner ∈ cs → Level inner level →
      Level cs level

/-- At every level no path is empty and no two groups have the same one. -/
def WellGrouped (cs : List Condition) : Prop :=
  ∀ level, Level cs level → (∀ c ∈ level, c.path ≠ []) ∧ (groupPaths level).Nodup

variable {cs : List Condition} {path : List String}

theorem wellGrouped_nil : WellGrouped [] := by
  intro level hlevel
  cases hlevel with
  | top => exact ⟨nofun, List.nodup_nil⟩
  | inner hmem _ => cases hmem

theorem wellGrouped_iff :
    WellGrouped cs ↔ (∀ c ∈ cs, c.path ≠ [] ∧ WellGrouped c.inner) ∧ (groupPaths cs).Nodup := by
  constructor
  · intro h
    obtain ⟨hpaths, hnodup⟩ := h cs (.top cs)
    refine ⟨fun c hc => ⟨hpaths c hc, ?_⟩, hnodup⟩
    cases c with
    | compare path op target => exact wellGrouped_nil
    | each path inner => exact fun level hlevel => h level (.inner hc hlevel)
  · rintro ⟨hcs, hnodup⟩ level hlevel
    cases hlevel with
    | top => exact ⟨fun c hc => (hcs c hc).1, hnodup⟩
    | inner hmem hlevel => exact (hcs _ hmem).2 level hlevel

theorem flattenAll_append (cs ds : List Condition) : flattenAll (cs ++ ds) = flattenAll cs ++ flattenAll ds := by
  induction cs with
  | nil => rfl
  | cons c cs ih => rw [List.cons_append, flattenAll, flattenAll, ih, List.append_assoc]

/-- The group at the path is changed where it stands, or a new one comes last. -/
theorem modifyGroup_cases (path : List String) (f : List Condition → List Condition) (cs : List Condition) :
    (∃ before inner after, cs = before ++ .each path inner :: after ∧
        Condition.modifyGroup path f cs = before ++ .each path (f inner) :: after) ∨
      path ∉ groupPaths cs ∧ Condition.modifyGroup path f cs = cs ++ [.each path (f [])] := by
  induction cs with
  | nil => exact .inr ⟨nofun, rfl⟩
  | cons c cs ih =>
    -- what holds of the rest holds with `c` before it, unless `c` is the group
    have skip (hc : c.groupPath? ≠ some path)
        (hmodify : Condition.modifyGroup path f (c :: cs) = c :: Condition.modifyGroup path f cs) :
        (∃ before inner after, c :: cs = before ++ .each path inner :: after ∧
            Condition.modifyGroup path f (c :: cs) = before ++ .each path (f inner) :: after) ∨
          path ∉ groupPaths (c :: cs) ∧ Condition.modifyGroup path f (c :: cs) = c :: cs ++ [.each path (f [])] := by
      rw [hmodify]
      rcases ih with ⟨before, inner, after, rfl, h⟩ | ⟨hpath, h⟩
      · exact .inl ⟨c :: before, inner, after, rfl, by rw [h]; rfl⟩
      · refine .inr ⟨?_, by rw [h]; rfl⟩
        simpa [groupPaths, hc] using hpath
    cases c with
    | compare path' op target => exact skip nofun rfl
    | each path' inner =>
      by_cases hpath : path' = path
      · subst hpath
        exact .inl ⟨[], inner, cs, rfl, by simp [Condition.modifyGroup]⟩
      · exact skip (by simpa [Condition.groupPath?] using hpath) (by simp [Condition.modifyGroup, hpath])

/-- What is added to a group comes to the flat predicate at the path of the group. -/
theorem flattenAll_modifyGroup {f : List Condition → List Condition} {c : Criterion}
    (hf : ∀ inner, (flattenAll (f inner)).Perm (c :: flattenAll inner)) (path : List String) (cs : List Condition) :
    (flattenAll (Condition.modifyGroup path f cs)).Perm (c.under (path ++ [anyIndex]) :: flattenAll cs) := by
  have group (inner : List Condition) : (Condition.each path (f inner)).flatten.Perm
      (c.under (path ++ [anyIndex]) :: (Condition.each path inner).flatten) := (hf inner).map _
  rcases modifyGroup_cases path f cs with ⟨before, inner, after, rfl, h⟩ | ⟨-, h⟩
  · rw [h, flattenAll_append, flattenAll_append, flattenAll, flattenAll]
    exact (((group inner).append_right _).append_left _).trans List.perm_middle
  · rw [h, flattenAll_append, flattenAll, flattenAll, List.append_nil]
    exact ((group []).append_left _).trans (List.perm_append_singleton _ _)

/-- Placing a comparison in groups adds it, at its full path, to what is there. -/
theorem flattenAll_place (path : List String) (op : Operator) (target : Value) (groups : List (List String))
    (cs : List Condition) :
    (flattenAll ((Condition.compare path op target).place groups cs)).Perm
      (⟨ungrouped groups path, op, target⟩ :: flattenAll cs) := by
  induction groups generalizing cs with
  | nil =>
    rw [Condition.place, flattenAll_append]
    exact List.perm_append_singleton _ _
  | cons outer groups ih =>
    have hunder : (Criterion.mk (ungrouped groups path) op target).under (outer ++ [anyIndex]) =
        ⟨ungrouped (outer :: groups) path, op, target⟩ := by
      simp [Criterion.under, ungrouped]
    rw [Condition.place, ← hunder]
    exact flattenAll_modifyGroup ih outer cs

theorem WellGrouped.modifyGroup {f : List Condition → List Condition} (h : WellGrouped cs) (hpath : path ≠ [])
    (hf : ∀ inner, WellGrouped inner → WellGrouped (f inner)) : WellGrouped (Condition.modifyGroup path f cs) := by
  obtain ⟨hcs, hnodup⟩ := wellGrouped_iff.1 h
  refine wellGrouped_iff.2 ?_
  rcases modifyGroup_cases path f cs with ⟨before, inner, after, rfl, h⟩ | ⟨hnew, h⟩
  · rw [h]
    simp only [List.forall_mem_append, List.forall_mem_cons] at hcs ⊢
    obtain ⟨hbefore, ⟨-, hinner⟩, hafter⟩ := hcs
    refine ⟨⟨hbefore, ⟨hpath, hf inner hinner⟩, hafter⟩, ?_⟩
    simpa using hnodup
  · rw [h]
    refine ⟨List.forall_mem_append.2 ⟨hcs, List.forall_mem_singleton.2 ⟨hpath, hf [] wellGrouped_nil⟩⟩, ?_⟩
    simpa [List.nodup_append, hnodup] using fun outer houter => ne_of_mem_of_not_mem houter hnew

theorem WellGrouped.place {op : Operator} {target : Value} {groups : List (List String)} (h : WellGrouped cs)
    (hpath : path ≠ []) (hgroups : ∀ outer ∈ groups, outer ≠ []) :
    WellGrouped ((Condition.compare path op target).place groups cs) := by
  induction groups generalizing cs with
  | nil =>
    obtain ⟨hcs, hnodup⟩ := wellGrouped_iff.1 h
    refine wellGrouped_iff.2 ⟨?_, by simpa [Condition.place] using hnodup⟩
    exact List.forall_mem_append.2 ⟨hcs, List.forall_mem_singleton.2 ⟨hpath, wellGrouped_nil⟩⟩
  | cons outer groups ih =>
    obtain ⟨houter, hgroups⟩ := List.forall_mem_cons.1 hgroups
    exact h.modifyGroup houter fun inner hinner => ih hinner hgroups

end Placing

/-! ## Whole filters -/

section Filters

variable {cs : List Condition}

theorem flattenAll_addTo (c : Criterion) (cs : List Condition) :
    (flattenAll (c.addTo cs)).Perm (c :: flattenAll cs) := by
  have h := flattenAll_place (groups c.path).2 c.op c.target (groups c.path).1 cs
  rwa [groups, ungrouped_groupsFrom, List.nil_append] at h

theorem flattenAll_foldl_addTo (criteria : List Criterion) (cs : List Condition) :
    (flattenAll (criteria.foldl Criterion.addTo cs)).Perm (criteria ++ flattenAll cs) := by
  induction criteria generalizing cs with
  | nil => exact .refl _
  | cons c criteria ih =>
    have hadd := (flattenAll_addTo c cs).append_left criteria
    exact (ih (c.addTo cs)).trans (hadd.trans List.perm_middle)

theorem WellGrouped.addTo {c : Criterion} (h : WellGrouped cs) (hc : c.path ≠ []) : WellGrouped (c.addTo cs) := by
  obtain ⟨hgroups, hpath⟩ := groupsFrom_ne_nil [] c.path (.inr hc)
  exact h.place hpath hgroups

theorem WellGrouped.foldl_addTo {criteria : List Criterion} (h : WellGrouped cs) (hne : ∀ c ∈ criteria, c.path ≠ []) :
    WellGrouped (criteria.foldl Criterion.addTo cs) := by
  induction criteria generalizing cs with
  | nil => exact h
  | cons c criteria ih =>
    obtain ⟨hc, hcriteria⟩ := List.forall_mem_cons.1 hne
    exact ih (h.addTo hc) hcriteria

theorem spelled_path_ne_nil {key : String} (h : ¬ Unreadable key) (target : Value) :
    (Criterion.spelled key target).path ≠ [] := by
  unfold Criterion.spelled
  split
  case h_1 op hlast => exact fun hdrop => h (.inr (.inr (isName_of_dropLast_eq_nil hlast hdrop)))
  case h_2 => exact Path.parts_ne_nil key

/-- The criteria of a filter, in the order of its keys. -/
def Filter.spelled (filter : Filter) : List Criterion := filter.map fun entry => .spelled entry.1 entry.2

theorem mapM_ofEntry_of_readable {filter : Filter} (h : ∀ entry ∈ filter, ¬ Unreadable entry.1) :
    filter.mapM (fun (key, target) => Criterion.ofEntry key target) = .ok filter.spelled := by
  induction filter with
  | nil => rfl
  | cons entry filter ih =>
    obtain ⟨key, target⟩ := entry
    obtain ⟨hkey, hfilter⟩ := List.forall_mem_cons.1 h
    rw [List.mapM_cons, ih hfilter]
    dsimp only
    rw [ofEntry_of_readable hkey]
    rfl

theorem mapM_ofEntry_of_unreadable {filter : Filter} {entry : String × Value} (hmem : entry ∈ filter)
    (hentry : Unreadable entry.1) :
    ∃ e, filter.mapM (fun (key, target) => Criterion.ofEntry key target) = .error e := by
  induction filter with
  | nil => cases hmem
  | cons first filter ih =>
    obtain ⟨key, target⟩ := first
    rw [List.mapM_cons]
    dsimp only
    by_cases hkey : Unreadable key
    · obtain ⟨e, he⟩ := ofEntry_of_unreadable hkey target
      rw [he]
      exact ⟨e, rfl⟩
    · rcases List.mem_cons.1 hmem with rfl | hmem
      · exact absurd hentry hkey
      · obtain ⟨e, he⟩ := ih hmem
        rw [ofEntry_of_readable hkey, he]
        exact ⟨e, rfl⟩

theorem compile_of_readable {filter : Filter} (h : ∀ entry ∈ filter, ¬ Unreadable entry.1) :
    compile filter = .ok (filter.spelled.foldl Criterion.addTo []) := by
  rw [compile, mapM_ofEntry_of_readable h]
  rfl

theorem compile_eq_error_iff {filter : Filter} :
    (∃ e, compile filter = .error e) ↔ ∃ entry ∈ filter, Unreadable entry.1 := by
  constructor
  · rintro ⟨e, he⟩
    by_cases h : ∃ entry ∈ filter, Unreadable entry.1
    · exact h
    · rw [compile_of_readable fun entry hmem hun => h ⟨entry, hmem, hun⟩] at he
      cases he
  · rintro ⟨entry, hmem, hentry⟩
    obtain ⟨e, he⟩ := mapM_ofEntry_of_unreadable hmem hentry
    rw [compile, he]
    exact ⟨e, rfl⟩

/-- A filter compiles unless one of its keys cannot be read. The predicate then asks for every entry once and for
nothing else, its paths are not empty, and at no level have two groups the same path. -/
theorem compile_spec (filter : Filter) :
    ((∃ e, compile filter = .error e) ↔ ∃ entry ∈ filter, Unreadable entry.1) ∧
      ∀ cs, compile filter = .ok cs →
        (flattenAll cs).Perm (filter.map fun entry => .spelled entry.1 entry.2) ∧
          ∀ level, Level cs level → (∀ c ∈ level, c.path ≠ []) ∧ (groupPaths level).Nodup := by
  refine ⟨compile_eq_error_iff, fun cs hcs => ?_⟩
  have hreadable : ∀ entry ∈ filter, ¬ Unreadable entry.1 := by
    intro entry hentry hun
    obtain ⟨e, he⟩ := compile_eq_error_iff.2 ⟨entry, hentry, hun⟩
    rw [he] at hcs
    cases hcs
  rw [compile_of_readable hreadable] at hcs
  cases hcs
  have hperm := flattenAll_foldl_addTo filter.spelled []
  rw [flattenAll, List.append_nil] at hperm
  refine ⟨hperm, wellGrouped_nil.foldl_addTo ?_⟩
  intro c hc
  obtain ⟨entry, hentry, rfl⟩ := List.mem_map.1 hc
  exact spelled_path_ne_nil (hreadable entry hentry) entry.2

/-- A leading and a trailing `ANYINDEX`, two keys in one group of a group, and a field that is called as an operator in
the outer group. -/
theorem compile_spec_nested :
    let filter : Filter := [("ANYINDEX.a.ANYINDEX", .int 1), ("a.ANYINDEX.b.ANYINDEX.c.gt", .int 2),
      ("a.ANYINDEX.b.ANYINDEX.d", .int 3), ("a.ANYINDEX.eq.ne", .int 4)]
    let criteria : List Criterion := [⟨["ANYINDEX", "a", "ANYINDEX"], .eq, .int 1⟩,
      ⟨["a", "ANYINDEX", "b", "ANYINDEX", "c"], .gt, .int 2⟩,
      ⟨["a", "ANYINDEX", "b", "ANYINDEX", "d"], .eq, .int 3⟩, ⟨["a", "ANYINDEX", "eq"], .neq, .int 4⟩]
    ∃ cs, compile filter = .ok cs ∧ (flattenAll cs).Perm criteria ∧
      ∀ level, Level cs level → (∀ c ∈ level, c.path ≠ []) ∧ (groupPaths level).Nodup := by
  intro filter criteria
  obtain ⟨cs, hcs⟩ : ∃ cs, compile filter = .ok cs := ⟨_, rfl⟩
  exact ⟨cs, hcs, (compile_spec filter).2 cs hcs⟩

end Filters

/-! ## Single keys -/

section SingleKey

variable {dotted : String} {path : List String}

/-- The key that compares the content at a dotted path by an operator. -/
def keyOf (dotted : String) (op : Operator) : String := dotted ++ "." ++ op.name

theorem segments?_keyOf (h : Path.segments? dotted = some path) (op : Operator) :
    Path.segments? (keyOf dotted op) = some (path ++ [op.name]) := by
  have hname : op.name ≠ "" ∧ '.' ∉ op.name.toList := by cases op <;> decide
  exact Path.segments?_append h hname.1 hname.2

theorem readable_keyOf (h : Path.segments? dotted = some path) (op : Operator) : ¬ Unreadable (keyOf dotted op) := by
  obtain ⟨hparts, hempty⟩ := Path.segments?_eq_some_iff.1 (segments?_keyOf h op)
  rintro (hkey | hkey | hkey)
  · rw [hkey] at hparts
    exact hempty (hparts ▸ List.mem_singleton.2 rfl)
  · exact hempty (hparts ▸ hkey)
  · rw [parts_of_isName hkey] at hparts
    have hlength := congrArg List.length hparts
    exact Path.segments?_ne_nil h (by simpa using hlength)

theorem spelled_keyOf (h : Path.segments? dotted = some path) (op : Operator) (target : Value) :
    Criterion.spelled (keyOf dotted op) target = ⟨path, op, target⟩ := by
  obtain ⟨hparts, -⟩ := Path.segments?_eq_some_iff.1 (segments?_keyOf h op)
  simp [Criterion.spelled, hparts]

/-- A key whose path has no inner `ANYINDEX` compiles to one comparison. -/
theorem compile_keyOf (h : Path.segments? dotted = some path) (hinner : ¬ HasInnerAnyIndex path) (op : Operator)
    (target : Value) : compile [(keyOf dotted op, target)] = .ok [.compare path op target] := by
  have hgroups : groups path = ([], path) := groupsFrom_of_no_cut hinner
  rw [compile_of_readable (List.forall_mem_singleton.2 (readable_keyOf h op))]
  simp [Filter.spelled, spelled_keyOf h, Criterion.addTo, hgroups, Condition.place]

/-- Whether a filter selects a document. -/
def Filter.selects (filter : Filter) (v : Value) : Except Error Bool := return allHold (← compile filter) v

theorem selects_keyOf (h : Path.segments? dotted = some path) (hinner : ¬ HasInnerAnyIndex path) (op : Operator)
    (target v : Value) :
    Filter.selects [(keyOf dotted op, target)] v = .ok ((Condition.compare path op target).holds v) := by
  rw [Filter.selects, compile_keyOf h hinner]
  exact congrArg Except.ok (Bool.and_true _)

end SingleKey

end RecordStore.Query
