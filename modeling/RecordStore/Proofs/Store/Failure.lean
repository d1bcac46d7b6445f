import RecordStore.Proofs.Store.Action

/-!
# Failing operations

An operation works on copies and writes to the tables in its last step, so it changes no record when it fails, however
far it had come with the copies (`failsClean_run`).
-/

namespace RecordStore.Store

/-! ## Reading keeps the store -/

section Reading

variable {β : Type} {view : Store → β}

theorem keeps_predicate (filter : Query.Filter) : Keeps view (predicate filter) := by
  unfold predicate
  split
  · exact .pure _
  · exact .throw _

theorem keeps_matching (table : String) (filter : Query.Filter) : Keeps view (matching table filter) :=
  .bind (keeps_predicate filter) fun _ => .bind .get fun _ => .pure _

theorem keeps_single {α : Type} (filter : Query.Filter) (failOnEmpty failOnMore : Bool) (found : List α) :
    Keeps view (single filter failOnEmpty failOnMore found) := by
  cases found with
  | nil =>
    rw [single]
    split
    · exact .throw _
    · exact .pure _
  | cons _ _ =>
    rw [single]
    split
    · exact .throw _
    · exact .pure _

theorem keeps_getList (table : String) (filter : Query.Filter) : Keeps view (getList table filter) :=
  .guarded <| .bind (keeps_matching table filter) fun _ => .pure _

theorem keeps_count (table : String) (filter : Query.Filter) : Keeps view (count table filter) :=
  .guarded <| .bind (keeps_matching table filter) fun _ => .pure _

theorem keeps_getOne (table : String) (filter : Query.Filter) (failOnEmpty failOnMore : Bool) :
    Keeps view (getOne table filter failOnEmpty failOnMore) :=
  .guarded <| .bind (keeps_matching table filter) fun _ => .bind (keeps_single _ _ _ _) fun _ => .pure _

end Reading

/-! ## Preparing records -/

theorem onlyDraws_freshId : OnlyDraws freshId := fun _ _ _ => rfl

/-- A record is prepared beside those that are handed in, wherever these are. -/
theorem onlyDraws_prepare (table : String) (others : List Value) (record : Value) :
    OnlyDraws (prepare table others record) := by
  unfold prepare
  split
  · exact .throw _
  · split
    · exact .bind onlyDraws_freshId fun _ => .bind (.accessed _) fun _ => .pure _
    · exact .bind onlyDraws_freshId fun _ => .bind (.accessed _) fun _ => .pure _
    · split
      · exact .throw _
      · split
        · exact .throw _
        · exact .pure _

theorem onlyDraws_prepareAll (table : String) (others records : List Value) :
    OnlyDraws (prepareAll table others records) := by
  induction records generalizing others with
  | nil => exact .pure _
  | cons record records ih =>
    exact .bind (onlyDraws_prepare table others record) fun r => .bind (ih (others ++ [r.2])) fun _ => .pure _

theorem keeps_prepare (table : String) (others : List Value) (record : Value) :
    Keeps rest (prepare table others record) := (onlyDraws_prepare table others record).keeps

theorem keeps_prepareAll (table : String) (others records : List Value) :
    Keeps rest (prepareAll table others records) := (onlyDraws_prepareAll table others records).keeps

section

variable {s s' : Store} {table : String} {others records : List Value} {record : Value} {e : Error}

theorem tables_of_prepare_ok {r : Value × Value} (h : prepare table others record s = .ok r s') :
    s'.tables = s.tables := congrArg Prod.fst ((keeps_prepare table others record).ok s r s' h)

theorem writer_of_prepare_ok {r : Value × Value} (h : prepare table others record s = .ok r s') :
    s'.writer = s.writer := congrArg Prod.snd ((keeps_prepare table others record).ok s r s' h)

theorem tables_of_prepareAll_ok {r : List Value × List Value} (h : prepareAll table others records s = .ok r s') :
    s'.tables = s.tables := congrArg Prod.fst ((keeps_prepareAll table others records).ok s r s' h)

theorem tables_of_prepareAll_error (h : prepareAll table others records s = .error e s') : s'.tables = s.tables :=
  congrArg Prod.fst ((keeps_prepareAll table others records).error s e s' h)

end

/-! ## Operations that write -/

theorem failsClean_delList (table : String) (filter : Query.Filter) : FailsClean (delList table filter) :=
  .guarded <| .bind (keeps_matching table filter) fun _ => .setRecords_pure _ _ _

theorem failsClean_delOne (table : String) (filter : Query.Filter) (failOnEmpty failOnMore : Bool) :
    FailsClean (delOne table filter failOnEmpty failOnMore) := by
  refine .guarded <| .bind (keeps_matching table filter) fun _ =>
    .bind (keeps_single _ _ _ _) fun found => ?_
  cases found with
  | none => exact .pure _
  | some _ => exact .setRecords_pure _ _ _

theorem failsClean_create (table : String) (record : Value) : FailsClean (create table record) :=
  .guarded <| .bind .get fun _ => .bind (keeps_prepare _ _ _) fun _ => .setRecords_pure _ _ _

theorem failsClean_createList (table : String) (records : List Value) : FailsClean (createList table records) :=
  .guarded <| .bind .get fun _ => .bind (keeps_prepareAll _ _ _) fun _ => .setRecords_pure _ _ _

theorem failsClean_replace (table : String) (id record : Value) (failOnEmpty : Bool) :
    FailsClean (replace table id record failOnEmpty) := by
  refine .guarded ?_
  split
  · exact .throw _
  · split
    · exact .throw _
    · refine .bind (.accessed _) fun record => .bind .get fun s => ?_
      dsimp only
      split
      · exact .setRecords_pure _ _ _
      · split
        · exact .throw _
        · exact .pure _

theorem failsClean_setOne (table : String) (filter : Query.Filter) (update : Update) (failOnEmpty : Bool) :
    FailsClean (setOne table filter update failOnEmpty) := by
  refine .guarded <| .bind (keeps_matching table filter) fun _ =>
    .bind (keeps_single _ _ _ _) fun found => ?_
  cases found with
  | none => exact .pure _
  | some found =>
    refine .bind (.ofExcept _) fun amended => ?_
    cases amended with
    | none => exact .pure _
    | some _ => exact .setRecords_pure _ _ _

theorem failsClean_setList (table : String) (filter : Query.Filter) (update : Update) :
    FailsClean (setList table filter update) := by
  refine .guarded <| .bind (keeps_matching table filter) fun found => ?_
  split
  · exact .pure _
  · exact .bind (.ofExcept _) fun _ => .setRecords_pure _ _ _

/-- An action followed by a result fails as the action does. -/
theorem FailsClean.map {α β : Type} {x : Action α} (hx : FailsClean x) (f : α → β) :
    FailsClean (do return f (← x)) where
  writer := .bind hx.writer fun _ => .pure _
  tables s e s' h := by
    rcases bind_eq_error.1 h with h | ⟨a, t, _, h⟩
    · exact hx.tables s e s' h
    · cases h

theorem failsClean_run (op : Operation) : FailsClean op.run := by
  cases op with
  | getList table filter => exact (keeps_getList table filter).failsClean.map _
  | count table filter => exact (keeps_count table filter).failsClean.map _
  | getOne table filter failOnEmpty failOnMore =>
    exact (keeps_getOne table filter failOnEmpty failOnMore).failsClean.map _
  | delList table filter => exact (failsClean_delList table filter).map _
  | delOne table filter failOnEmpty failOnMore => exact (failsClean_delOne table filter failOnEmpty failOnMore).map _
  | create table record => exact (failsClean_create table record).map _
  | createList table records => exact (failsClean_createList table records).map _
  | replace table id record failOnEmpty => exact (failsClean_replace table id record failOnEmpty).map _
  | setOne table filter update failOnEmpty => exact (failsClean_setOne table filter update failOnEmpty).map _
  | setList table filter update => exact (failsClean_setList table filter update).map _

theorem records_congr {s t : Store} (h : t.tables = s.tables) (table : String) : t.records table = s.records table := by
  rw [records, h, records]

/-- An operation that fails leaves the records of every table as they were. -/
theorem records_of_run_error {op : Operation} {s s' : Store} {e : Error} (h : op.run s = .error e s')
    (table : String) : s'.records table = s.records table :=
  records_congr ((failsClean_run op).tables s e s' h) table

/-- The update changes a copy of the first record before it fails at the second. -/
theorem records_of_setList_error :
    let s := (empty fun _ => (0, 0)).afterAll [
      .createList "t" [.map [(idKey, .int 1)], .map [(idKey, .int 2), (.str "a", .int 3)]]]
    let op := Operation.setList "t" [] ⟨[("a.b", .int 1)], [], [], [], [], []⟩
    ∃ e s', op.run s = .error e s' ∧ s'.records "t" = s.records "t" := by
  intro s op
  obtain ⟨e, s', h⟩ : ∃ e s', op.run s = .error e s' := ⟨_, _, rfl⟩
  exact ⟨e, s', h, records_of_run_error h "t"⟩

end RecordStore.Store
