import Mathlib.Data.List.Find
import RecordStore.Proofs.Patch.Merging
import RecordStore.Proofs.Value.Members

/-!
# Patches that change nothing the second time

A patch is stable if all its nodes are (`StableNode`): plain maps, edits by index, one edit by a selector, or one
insertion that its own selector would find. What a stable patch makes of a document it leaves as it is when it is
applied again (`apply_again`): of the members and elements that it went to, each is one that it would not change
(`Settled`, `EditsTo.again`, `EditsTo.again_matching`), and those of other keys and positions do not disturb this.
-/

namespace RecordStore.Patch

/-! ## Stable patches -/

/-- What a key asks for with its value, if it can be read, is of the kind. -/
def Asks (key : Key) (value : Value) (kind : Directive → Prop) : Prop :=
  ∀ d, Directive.ofKey key value = .ok d → kind d

/-- A node of a patch that a second run finds nothing left to do for, if its members are stable. -/
inductive StableNode : Members → Prop
  | plain {node : Members} : kind node = .plain → StableNode node
  | byIndex {node : Members} : kind node = .arrayEdit →
      (∀ e ∈ node, e.2 ≠ .null ∧ Asks e.1 e.2 fun d => ∃ i, d = .edit i) → StableNode node
  | bySelector {k : Key} {v : Value} : kind [(k, v)] = .arrayEdit →
      (Asks k v fun d => ∃ selector, d = .editMatching selector) → StableNode [(k, v)]
  | unlessMatched {k : Key} {v : Value} : kind [(k, v)] = .arrayEdit →
      (Asks k v fun d => ∃ selector, d = .appendUnless selector ∧
        ∀ copy, merge v .null = .ok () copy → elementMatches copy selector = true) → StableNode [(k, v)]

/-- All nodes of the patch are stable. -/
def Stable (patch : Value) : Prop := ∀ node, Node patch node → StableNode node

theorem stable_map_iff {ms : Members} : Stable (.map ms) ↔ StableNode ms ∧ ∀ e ∈ ms, Stable e.2 := forall_node_map_iff

theorem stable_of_ne_map {v : Value} (h : ∀ ms, v ≠ .map ms) : Stable v := fun node hnode =>
  absurd hnode (not_node_of_ne_map h node)

/-- What comes of a merge stays the same when the patch is merged into it. -/
def Settles (p : Value) : Prop := ∀ v v', merge p v = .ok () v' → merge p v' = .ok () v'

/-! ## Members -/

section Members

variable {patch ms ms' : Members} {e : Key × Value}

/-- Merging the member once more would change nothing. -/
def Settled (ms : Members) (e : Key × Value) : Prop :=
  e.2 = .null ∧ Entries.find? e.1 ms = none ∨
    e.2 ≠ .null ∧ ∃ member, Entries.insert e.1 member ms = ms ∧ merge e.2 member = .ok () member

theorem mergeMembers_of_settled (h : ∀ e ∈ patch, Settled ms e) : mergeMembers patch ms = .ok () ms := by
  induction patch with
  | nil => rfl
  | cons e patch ih =>
    obtain ⟨k, v⟩ := e
    obtain ⟨he, h⟩ := List.forall_mem_cons.1 h
    refine mergeMembers_cons_eq_ok.2 (he.imp ?_ ?_)
    · rintro ⟨hnull, hnone⟩
      rw [Entries.erase_eq_self hnone]
      exact ⟨hnull, ih h⟩
    · rintro ⟨hvalue, member, hinsert, hmerge⟩
      refine ⟨hvalue, member, ?_, ?_⟩
      · rwa [Entries.find?_of_insert_eq_self hinsert]
      · rw [hinsert]
        exact ih h

/-- Merging members of other keys does not disturb a settled one. -/
theorem Settled.mergeMembers (hs : Settled ms e) (hkeys : ∀ e' ∈ patch, e.1 ≠ e'.1)
    (h : mergeMembers patch ms = .ok () ms') : Settled ms' e := by
  induction patch generalizing ms with
  | nil =>
    cases h
    exact hs
  | cons e' patch ih =>
    obtain ⟨l, w⟩ := e'
    obtain ⟨hne, hkeys⟩ := List.forall_mem_cons.1 hkeys
    obtain ⟨-, h⟩ | ⟨-, new, -, h⟩ := mergeMembers_cons_eq_ok.1 h
    · refine ih (hs.imp ?_ ?_) hkeys h
      · rintro ⟨hnull, hnone⟩
        exact ⟨hnull, by rw [Entries.find?_erase, if_neg hne, hnone]⟩
      · rintro ⟨hvalue, member, hinsert, hmerge⟩
        exact ⟨hvalue, member, Entries.insert_eq_self_erase hne hinsert, hmerge⟩
    · refine ih (hs.imp ?_ ?_) hkeys h
      · rintro ⟨hnull, hnone⟩
        exact ⟨hnull, by rw [Entries.find?_insert, if_neg hne, hnone]⟩
      · rintro ⟨hvalue, member, hinsert, hmerge⟩
        exact ⟨hvalue, member, Entries.insert_eq_self_insert hne new hinsert, hmerge⟩

/-- After a merge all members of the patch are settled. -/
theorem settled_of_mergeMembers (hasc : Entries.Ascending patch) (hsettles : ∀ e ∈ patch, Settles e.2)
    (h : mergeMembers patch ms = .ok () ms') : ∀ e ∈ patch, Settled ms' e := by
  induction patch generalizing ms with
  | nil => exact nofun
  | cons e patch ih =>
    obtain ⟨k, v⟩ := e
    obtain ⟨hlt, hasc⟩ := Entries.ascending_cons_iff.1 hasc
    obtain ⟨hv, hsettles⟩ := List.forall_mem_cons.1 hsettles
    have hkeys : ∀ e' ∈ patch, k ≠ e'.1 := fun e' he' => Entries.ne_of_lt (hlt e' he')
    obtain ⟨hnull, h⟩ | ⟨hvalue, new, hmerge, h⟩ := mergeMembers_cons_eq_ok.1 h
    · have hs : Settled (Entries.erase k ms) (k, v) := .inl ⟨hnull, by rw [Entries.find?_erase, if_pos rfl]⟩
      exact List.forall_mem_cons.2 ⟨hs.mergeMembers hkeys h, ih hasc hsettles h⟩
    · have hs : Settled (Entries.insert k new ms) (k, v) :=
        .inr ⟨hvalue, new, Entries.insert_insert k new new ms, hv _ _ hmerge⟩
      exact List.forall_mem_cons.2 ⟨hs.mergeMembers hkeys h, ih hasc hsettles h⟩

theorem settles_plain (hkind : kind patch = .plain) (hasc : Entries.Ascending patch)
    (hsettles : ∀ e ∈ patch, Settles e.2) : Settles (.map patch) := by
  intro v v' h
  obtain ⟨ms, hms, rfl⟩ := (merge_plain_eq_ok hkind).1 h
  have hagain := mergeMembers_of_settled (settled_of_mergeMembers hasc hsettles hms)
  exact (merge_plain_eq_ok hkind).2 ⟨ms, hagain, rfl⟩

end Members

/-! ## Elements -/

section Elements

variable {items items' : List Value} {t : Task} {tasks : List Task}

/-- What the task makes of an element it leaves as it is the next time. -/
def Task.Settles (t : Task) : Prop := ∀ v v', t.onto v = .ok () v' → t.onto v' = .ok () v'

theorem EditsTo.again {task : Nat → Option Task} (hsettles : ∀ i t, task i = some t → t.value ≠ .null ∧ t.Settles)
    (h : EditsTo task items items') : items'.length = items.length ∧ EditsTo task items' items' := by
  induction h with
  | nil => exact ⟨rfl, .nil⟩
  | keep hnone _ ih =>
    obtain ⟨hlength, h⟩ := ih fun i t => hsettles (i + 1) t
    exact ⟨congrArg (· + 1) hlength, .keep hnone h⟩
  | erase hsome hnull _ _ => exact absurd hnull (hsettles 0 _ hsome).1
  | change hsome hvalue honto _ ih =>
    obtain ⟨hlength, h⟩ := ih fun i t => hsettles (i + 1) t
    exact ⟨congrArg (· + 1) hlength, .change hsome hvalue ((hsettles 0 _ hsome).2 _ _ honto) h⟩

/-- The task at the positions whose elements pass a test. -/
def onMatching (p : Value → Bool) (t : Task) (items : List Value) (i : Nat) : Option Task :=
  if (items[i]?).any p then some t else none

theorem onMatching_cons_zero (p : Value → Bool) (t : Task) (v : Value) (items : List Value) :
    onMatching p t (v :: items) 0 = if p v then some t else none := rfl

/-- With one task for all elements that pass a test, those that still pass it afterwards have been changed, and stay. -/
theorem EditsTo.again_matching {p : Value → Bool} (hsettles : t.Settles)
    (h : EditsTo (onMatching p t items) items items') : EditsTo (onMatching p t items') items' items' := by
  induction items generalizing items' with
  | nil =>
    cases editsTo_nil_iff.1 h
    exact .nil
  | cons v items ih =>
    obtain ⟨rest, hrest, h⟩ := editsTo_cons_iff.1 h
    have ih : EditsTo (onMatching p t rest) rest rest := ih hrest
    rw [onMatching_cons_zero] at h
    obtain ⟨hnone, rfl⟩ | ⟨t', hsome, h⟩ := h
    · exact .keep (by rw [onMatching_cons_zero, hnone]) ih
    · obtain rfl : t = t' := by
        split at hsome
        · exact Option.some.inj hsome
        · cases hsome
      obtain ⟨-, rfl⟩ | ⟨hvalue, new, honto, rfl⟩ := h
      · exact ih
      · cases hp : p new with
        | false => exact .keep (by rw [onMatching_cons_zero, hp]; rfl) ih
        | true => exact .change (by rw [onMatching_cons_zero, hp]; rfl) hvalue (hsettles v new honto) ih

/-! ## Array edits -/

theorem onlyEdits_of_asks (h : ∀ t ∈ tasks, Asks t.key t.value fun d => (∃ i, d = .edit i) ∨ ∃ s, d = .editMatching s) :
    OnlyEdits items tasks := by
  intro t ht
  cases hd : t.directive? with
  | none => simp [Task.inserts, Task.appends, hd]
  | some d =>
    obtain ⟨i, rfl⟩ | ⟨selector, rfl⟩ := h t ht d (Task.directive?_eq_some_iff.1 hd) <;>
      simp [Task.inserts, Task.appends, hd, Directive.inserted, Directive.appends]

section ByIndex

variable (hasks : ∀ t ∈ tasks, Asks t.key t.value fun d => ∃ i, d = .edit i) (hlength : items'.length = items.length)

include hasks hlength

/-- Edits by index look only at the size of the array. -/
theorem edits_congr {t : Task} (ht : t ∈ tasks) (i : Nat) : t.edits items' i = t.edits items i := by
  cases hd : t.directive? with
  | none => simp [Task.edits, hd]
  | some d =>
    obtain ⟨j, rfl⟩ := hasks t ht d (Task.directive?_eq_some_iff.1 hd)
    simp [Task.edits, hd, Directive.edited, hlength]

theorem ofTasks_congr (plan : Plan) : Plan.ofTasks items' plan tasks = Plan.ofTasks items plan tasks := by
  induction tasks generalizing plan with
  | nil => rfl
  | cons t tasks ih =>
    obtain ⟨ht, hasks⟩ := List.forall_mem_cons.1 hasks
    have hadd : plan.add items' t = plan.add items t := by
      cases hd : Directive.ofKey t.key t.value with
      | error e => simp only [Plan.add, hd, bind, Except.bind]
      | ok d =>
        obtain ⟨j, rfl⟩ := ht d hd
        simp only [Plan.add, hd, hlength, bind, Except.bind]
    rw [Plan.ofTasks, Plan.ofTasks, hadd]
    cases plan.add items t with
    | error e => rfl
    | ok plan => exact ih hasks plan

end ByIndex

theorem editArray_again_of_edit (hasks : ∀ t ∈ tasks, Asks t.key t.value fun d => ∃ i, d = .edit i)
    (hsettles : ∀ t ∈ tasks, t.value ≠ .null ∧ t.Settles) (h : editArray tasks items = .ok () items') :
    editArray tasks items' = .ok () items' := by
  have honly {items : List Value} : OnlyEdits items tasks := onlyEdits_of_asks fun t ht d hd => .inl (hasks t ht d hd)
  obtain ⟨plan, hplan, hrange, hedits⟩ := honly.editArray_eq_ok.1 h
  obtain ⟨hlength, hagain⟩ := hedits.again fun i t ht => hsettles t (List.mem_of_find?_eq_some ht)
  refine honly.editArray_eq_ok.2 ⟨plan, ?_, ?_, ?_⟩
  · rw [ofTasks_congr hasks hlength, hplan]
  · rwa [hlength]
  · refine hagain.congr fun i _ => List.find?_congr fun t ht => ?_
    exact (edits_congr hasks hlength ht i).symm

theorem exists_ofKey_of_editArray (h : editArray [t] items = .ok () items') :
    ∃ d, Directive.ofKey t.key t.value = .ok d := by
  obtain ⟨plan, -, -, hplan, -⟩ := editArray_eq_ok.1 h
  obtain ⟨d, hd, -⟩ := Plan.add_eq_ok.1 (Plan.ofTasks_singleton_eq_ok.1 hplan)
  exact ⟨d, hd⟩

/-- An edit by a selector goes to the elements that match, and all of these are there. -/
theorem editArray_matching_eq_ok {selector : Value} (h : Directive.ofKey t.key t.value = .ok (.editMatching selector)) :
    editArray [t] items = .ok () items' ↔ EditsTo (onMatching (elementMatches · selector) t items) items items' := by
  have honly : OnlyEdits items [t] := onlyEdits_of_asks fun t' ht' d hd => by
    cases List.mem_singleton.1 ht'
    cases h.symm.trans hd
    exact .inr ⟨selector, rfl⟩
  have hfind (i : Nat) : [t].find? (·.edits items i) = onMatching (elementMatches · selector) t items i := by
    simp only [List.find?_cons, Task.edits_of_ofKey h, Directive.edited, mem_matchingFrom_zero, onMatching]
    cases (items[i]?).any (elementMatches · selector) <;> rfl
  rw [honly.editArray_eq_ok]
  simp only [hfind]
  constructor
  · rintro ⟨-, -, -, hedits⟩
    exact hedits
  · intro hedits
    obtain ⟨edits, hqueue⟩ : ∃ edits, (matchingFrom selector 0 items).foldlM (Plan.queue .severalEditions t) [] =
        .ok edits := Plan.exists_queueAll (nodup_matchingFrom selector 0 items) fun _ _ => rfl
    have hplan : Plan.ofTasks items .empty [t] = .ok ⟨edits, [], []⟩ :=
      Plan.ofTasks_singleton_eq_ok.2 (Plan.add_eq_ok.2 ⟨_, h, hqueue, rfl, rfl⟩)
    refine ⟨_, hplan, fun e he hlength => ?_, hedits⟩
    -- no edit is queued behind the end
    have hnone : Entries.find? e.1 edits = none := by
      rw [Plan.find?_edits_ofTasks hplan, hfind, onMatching, List.getElem?_eq_none hlength]
      rfl
    exact absurd rfl (Entries.find?_eq_none_iff.1 hnone e he)

/-- An insertion unless an element matches does nothing if one does, and else appends what its value makes of null. -/
theorem editArray_unless_eq_ok {selector : Value} (h : Directive.ofKey t.key t.value = .ok (.appendUnless selector)) :
    editArray [t] items = .ok () items' ↔ items.any (elementMatches · selector) = true ∧ items = items' ∨
      items.any (elementMatches · selector) = false ∧
        ∃ copy, t.onto .null = .ok () copy ∧ items ++ [copy] = items' := by
  have hplan : Plan.ofTasks items .empty [t] =
      .ok ⟨[], [], if items.any (elementMatches · selector) then [] else [t]⟩ := by
    refine Plan.ofTasks_singleton_eq_ok.2 (Plan.add_eq_ok.2 ⟨_, h, rfl, rfl, ?_⟩)
    cases hany : items.any (elementMatches · selector) <;> simp [Directive.appends, hany, Plan.empty]
  unfold editArray
  rw [hplan]
  cases items.any (elementMatches · selector) with
  | true => simp [runAll]
  | false =>
    simp [runAll, append]
    cases t.onto .null <;> simp

end Elements

/-! ## Nodes of directives -/

section Directives

variable {node : Members} {k : Key} {value : Value}

theorem settles_byIndex (hkind : kind node = .arrayEdit)
    (hasks : ∀ e ∈ node, e.2 ≠ .null ∧ Asks e.1 e.2 fun d => ∃ i, d = .edit i)
    (hsettles : ∀ e ∈ node, Settles e.2) : Settles (.map node) := by
  intro v v' h
  obtain ⟨items, items', rfl, hedit, rfl⟩ := (merge_arrayEdit_eq_ok hkind).1 h
  refine (merge_arrayEdit_eq_ok hkind).2 ⟨items', items', rfl, editArray_again_of_edit ?_ ?_ hedit, rfl⟩
  · exact forall_mem_tasks_iff.2 fun e he => (hasks e he).2
  · exact forall_mem_tasks_iff.2 fun e he => ⟨(hasks e he).1, hsettles e he⟩

theorem settles_bySelector (hkind : kind [(k, value)] = .arrayEdit)
    (hasks : Asks k value fun d => ∃ selector, d = .editMatching selector) (hsettles : Settles value) :
    Settles (.map [(k, value)]) := by
  intro v v' h
  obtain ⟨items, items', rfl, hedit, rfl⟩ := (merge_arrayEdit_eq_ok hkind).1 h
  obtain ⟨d, hd⟩ := exists_ofKey_of_editArray hedit
  obtain ⟨selector, rfl⟩ := hasks d hd
  have htask : Task.Settles ⟨k, value, merge value⟩ := hsettles
  have hagain := ((editArray_matching_eq_ok hd).1 hedit).again_matching htask
  exact (merge_arrayEdit_eq_ok hkind).2 ⟨items', items', rfl, (editArray_matching_eq_ok hd).2 hagain, rfl⟩

theorem settles_unlessMatched (hkind : kind [(k, value)] = .arrayEdit)
    (hasks : Asks k value fun d => ∃ selector, d = .appendUnless selector ∧
      ∀ copy, merge value .null = .ok () copy → elementMatches copy selector = true) :
    Settles (.map [(k, value)]) := by
  intro v v' h
  obtain ⟨items, items', rfl, hedit, rfl⟩ := (merge_arrayEdit_eq_ok hkind).1 h
  obtain ⟨d, hd⟩ := exists_ofKey_of_editArray hedit
  obtain ⟨selector, rfl, hcopy⟩ := hasks d hd
  have hmatched : items'.any (elementMatches · selector) = true := by
    obtain ⟨hany, rfl⟩ | ⟨-, copy, honto, rfl⟩ := (editArray_unless_eq_ok hd).1 hedit
    · exact hany
    · rw [List.any_append, List.any_cons, hcopy copy honto, Bool.true_or, Bool.or_true]
  have hagain := (editArray_unless_eq_ok hd).2 (.inl ⟨hmatched, rfl⟩)
  exact (merge_arrayEdit_eq_ok hkind).2 ⟨items', items', rfl, hagain, rfl⟩

end Directives

/-! ## Applying a stable patch again -/

/-- The induction is on the patch: the members of a stable node are stable, and settle. -/
theorem settles_of_stable {patch : Value} (hsorted : patch.Sorted) (hstable : Stable patch) : Settles patch := by
  induction patch using Value.induction with
  | map ms ih =>
    obtain ⟨hasc, hsorted⟩ := Value.sorted_map_iff.1 hsorted
    obtain ⟨hroot, hstable⟩ := stable_map_iff.1 hstable
    have ih : ∀ e ∈ ms, Settles e.2 := fun e he => ih e he (hsorted e he) (hstable e he)
    cases hroot with
    | plain hkind => exact settles_plain hkind hasc ih
    | byIndex hkind hasks => exact settles_byIndex hkind hasks ih
    | bySelector hkind hasks => exact settles_bySelector hkind hasks (ih _ List.mem_cons_self)
    | unlessMatched hkind hasks => exact settles_unlessMatched hkind hasks
  | _ =>
    intro v v' h
    cases h
    rfl

/-- Applied to what it made, a stable patch succeeds and changes nothing. Its maps are in key order, as maps are: with a
key twice, one member could undo what the other needs. -/
theorem apply_again {patch v v' : Value} (hsorted : patch.Sorted) (hstable : Stable patch)
    (h : apply patch v = .ok () v') : apply patch v' = .ok () v' := by
  rw [apply_eq_ok_iff] at h ⊢
  exact settles_of_stable hsorted hstable v v' h

theorem asks_of_ofKey {key : Key} {value : Value} {kind : Directive → Prop} {d : Directive}
    (hd : Directive.ofKey key value = .ok d) (h : kind d) : Asks key value kind := by
  intro d' hd'
  cases hd.symm.trans hd'
  exact h

/-- Below a plain map: erasing all sevens, editing the last element, and inserting an eight. -/
theorem apply_again_directives :
    let erasing : Value := .map [(.str "$7", .null)]
    let editing : Value := .map [(.str "$[-1]", .map [(.str "x", .int 1), (.str "y", .null)])]
    let inserting : Value := .map [(.str "$+8", .int 8)]
    let patch : Value := .map [(.str "a", erasing), (.str "b", editing), (.str "c", inserting)]
    let before : Value := .map [(.str "a", .arr [.int 7, .int 1, .arr [.int 7]]),
      (.str "b", .arr [.int 1, .map [(.str "y", .int 2)]]), (.str "c", .arr [.int 7])]
    let after : Value := .map [(.str "a", .arr [.int 1]),
      (.str "b", .arr [.int 1, .map [(.str "x", .int 1)]]), (.str "c", .arr [.int 7, .int 8])]
    patch.Sorted ∧ Stable patch ∧ apply patch before = .ok () after ∧ apply patch after = .ok () after := by
  intro erasing editing inserting patch before after
  have hsorted : patch.Sorted := by
    simp only [patch, erasing, editing, inserting, Value.Sorted, Value.SortedMembers]
    decide
  have herase : Directive.ofKey (.str "$7") .null = .ok (.editMatching (.int 7)) := rfl
  have hedit : Directive.ofKey (.str "$[-1]") (.map [(.str "x", .int 1), (.str "y", .null)]) = .ok (.edit (-1)) := rfl
  have hinsert : Directive.ofKey (.str "$+8") (.int 8) = .ok (.appendUnless (.int 8)) := rfl
  have hstable : Stable patch := by
    have hscalar : Stable .null ∧ ∀ i, Stable (.int i) :=
      ⟨stable_of_ne_map (by simp), fun _ => stable_of_ne_map (by simp)⟩
    have hcopy : ∀ copy, merge (.int 8) .null = .ok () copy → elementMatches copy (.int 8) = true := by
      rintro copy ⟨⟩
      rfl
    have herasing : Stable erasing :=
      stable_map_iff.2 ⟨.bySelector (by decide) (asks_of_ofKey herase ⟨_, rfl⟩), by simp [hscalar]⟩
    have hediting : Stable editing := by
      refine stable_map_iff.2 ⟨.byIndex (by decide) ?_, ?_⟩
      · exact List.forall_mem_singleton.2 ⟨by simp, asks_of_ofKey hedit ⟨_, rfl⟩⟩
      · simpa [stable_map_iff, hscalar] using StableNode.plain (by decide)
    have hinserting : Stable inserting :=
      stable_map_iff.2 ⟨.unlessMatched (by decide) (asks_of_ofKey hinsert ⟨_, rfl, hcopy⟩), by simp [hscalar]⟩
    refine stable_map_iff.2 ⟨.plain (by decide), ?_⟩
    simp [herasing, hediting, hinserting]
  have hfirst : apply patch before = .ok () after := rfl
  exact ⟨hsorted, hstable, hfirst, apply_again hsorted hstable hfirst⟩

end RecordStore.Patch
