import RecordStore.Proofs.Store.Identified

/-!
# Operations as functions of lists

What a successful operation answers and what it makes of the records of its table is a function of these records
(`Operation.onRows`): it filters them, finds, erases, sets or modifies the first that passes a test, appends to them or
maps them. The test is that of the compiled filter, and new records take their ids in turn from those to come
(`completeAll`). An operation `ActsAsList` if it does what this function says and leaves the other tables alone, and
every successful one does (`exists_actsAsList_of_run`).
-/

namespace RecordStore.Store

variable {s s' : Store}

/-! ## New records -/

/-- The ids that the supply has still to give, in their order. -/
def supply (s : Store) (n : Nat) : Value := .str (Uuid.ofWords (s.words (s.drawn + n)).1 (s.words (s.drawn + n)).2)

/-- The record with the given id. -/
def withId (id : Value) : Value → Value
  | .map ms => .map (Entries.insert idKey id ms)
  | record => record

/-- The record as it is created: with the next id, if it wants one. -/
def complete (next record : Value) : Value := if wantsId record then withId next record else record

/-- The records as they are created one after another, with the ids to come. -/
def completeAll (ids : Nat → Value) : List Value → List Value
  | [] => []
  | record :: records =>
    complete (ids 0) record :: completeAll (fun n => ids (n + [record].countP wantsId)) records

/-- The id of a record that has one. -/
def idOf (record : Value) : Value := (recordId? record).getD .null

/-- A new record takes the next id if it wants one, and leaves the later ones to those after it. -/
theorem prepare_complete {table : String} {others : List Value} {record id new : Value}
    (h : prepare table others record s = .ok (id, new) s') :
    new = complete (s.supply 0) record ∧ id = idOf new ∧
      s'.supply = fun n => s.supply (n + [record].countP wantsId) := by
  refine ⟨?_, by simp [idOf, (identified_prepare h).1], ?_⟩
  · obtain ⟨ms, rfl, ⟨hw, rfl, rfl, -⟩ | ⟨hw, -, -, -, rfl, -⟩⟩ := prepare_ok h
    · rw [complete, if_pos hw]
      rfl
    · simp [complete, hw]
  · funext n
    obtain ⟨ms, rfl, ⟨hw, -, -, rfl⟩ | ⟨hw, -, -, -, -, rfl⟩⟩ := prepare_ok h
    · simp [supply, hw, Nat.add_comm, Nat.add_left_comm]
    · simp [hw]

theorem prepareAll_completeAll {table : String} {others records ids added : List Value}
    (h : prepareAll table others records s = .ok (ids, added) s') :
    added = completeAll s.supply records ∧ ids = added.map idOf ∧
      s'.supply = fun n => s.supply (n + records.countP wantsId) := by
  induction records generalizing others s ids added with
  | nil =>
    obtain ⟨h, rfl⟩ := pure_eq_ok.1 h
    cases h
    exact ⟨rfl, rfl, rfl⟩
  | cons record records ih =>
    obtain ⟨id, new, t, ids', added', hp, hall, rfl, rfl⟩ := prepareAll_cons_ok h
    obtain ⟨rfl, rfl, ht⟩ := prepare_complete hp
    obtain ⟨rfl, rfl, hs'⟩ := ih hall
    refine ⟨by rw [completeAll, ht], rfl, ?_⟩
    funext n
    simp only [hs', ht, List.countP_cons, List.countP_nil]
    rw [Nat.zero_add, Nat.add_assoc]

/-! ## The specification -/

/-- The filter of an operation that has one. -/
def Operation.filter? : Operation → Option Query.Filter
  | getList _ filter | count _ filter | getOne _ filter _ _ | delList _ filter | delOne _ filter _ _
  | setOne _ filter _ _ | setList _ filter _ => some filter
  | create _ _ | createList _ _ | replace _ _ _ _ => none

/-- The test is that of the compiled filter, where the operation has a filter. -/
def Operation.HasTest (op : Operation) (M : Value → Bool) : Prop :=
  ∀ filter ∈ op.filter?, ∃ conditions, Query.compile filter = .ok conditions ∧ M = Query.allHold conditions

/-- The records that an operation updates, with the update, when those pass the test that match its filter. -/
def Operation.updates (M : Value → Bool) (rows : List Value) : Operation → List (Update × Value)
  | setOne _ _ update _ => (rows.find? M).toList.map (update, ·)
  | setList _ _ update => (rows.filter M).map (update, ·)
  | _ => []

/-- What a successful operation answers, and what it makes of the records of its table, when those pass the test that
match its filter and `ids` are the generated ids to come. -/
def Operation.onRows (M : Value → Bool) (ids : Nat → Value) (rows : List Value) : Operation → Answer × List Value
  | getList _ _ => (.records (rows.filter M), rows)
  | count _ _ => (.count (rows.filter M).length, rows)
  | getOne _ _ _ _ => (.record (rows.find? M), rows)
  | delList _ _ => (.deleted (some (rows.filter M).length), rows.filter (!M ·))
  | delOne _ _ _ _ => (.deleted ((rows.find? M).map fun _ => 1), rows.eraseP M)
  | create _ record => (.id (idOf (complete (ids 0) record)), rows ++ [complete (ids 0) record])
  | createList _ records => (.ids ((completeAll ids records).map idOf), rows ++ completeAll ids records)
  | replace _ id record _ =>
    (.updated ((rows.find? (hasId id)).map fun _ => 1), rows.set (rows.findIdx (hasId id)) (withId id record))
  | setOne _ _ update _ =>
    (.updated ((rows.find? M).map fun record => if update.changes record then 1 else 0),
      rows.modify (rows.findIdx M) update.onto)
  | setList _ _ update =>
    (.updated (if rows.any M then some (rows.countP fun record => M record && update.changes record) else none),
      rows.map fun record => if M record then update.onto record else record)

/-- With `M` for the test of its filter, the operation answers and changes the records of its table as a function of
lists says, without a failing update; it changes no other table, and uses up the ids that its new records want. -/
structure ActsAsList (op : Operation) (M : Value → Bool) (s : Store) (a : Answer) (s' : Store) : Prop where
  test : op.HasTest M
  updates : ∀ e ∈ op.updates M (s.records op.table), ∃ changed new, e.1.apply e.2 = .ok changed new
  rows : op.onRows M s.supply (s.records op.table) = (a, s'.records op.table)
  others : ∀ table, table ≠ op.table → s'.records table = s.records table
  supply : s'.supply = fun n => s.supply (n + op.newRecords.countP wantsId)

/-! ## The first record that passes a test -/

section First

variable {p : Value → Bool} {rows : List Value} {record : Value}

theorem updateFirst_eq_set (p : Value → Bool) (new : Value) (rows : List Value) :
    updateFirst p new rows = rows.set (rows.findIdx p) new := by
  induction rows with
  | nil => rfl
  | cons row rows ih => cases hp : p row <;> simp [updateFirst, List.findIdx_cons, hp, ih]

theorem updateFirst_eq_modify (h : rows.find? p = some record) (f : Value → Value) :
    updateFirst p (f record) rows = rows.modify (rows.findIdx p) f := by
  induction rows with
  | nil => cases h
  | cons row rows ih =>
    cases hp : p row with
    | true =>
      obtain rfl : row = record := by simpa [hp] using h
      simp [updateFirst, List.findIdx_cons, hp]
    | false =>
      have := ih (by simpa [hp] using h)
      simp [updateFirst, List.findIdx_cons, hp, this]

theorem updateFirst_self (h : rows.find? p = some record) : updateFirst p record rows = rows := by
  obtain ⟨hp, before, after, rfl, hbefore⟩ := List.find?_eq_some_iff_append.1 h
  exact updateFirst_append (by simpa using hbefore) hp record after

/-- Where no record passes the test, there is none to be set or modified. -/
theorem length_le_findIdx (h : rows.find? p = none) : rows.length ≤ rows.findIdx p :=
  Nat.le_of_eq (List.findIdx_eq_length.2 (by simpa using h)).symm

end First

/-! ## Every operation -/

section Acts

variable {op : Operation} {M : Value → Bool} {a : Answer}

theorem ActsAsList.of_unchanged (test : op.HasTest M)
    (updates : ∀ e ∈ op.updates M (s.records op.table), ∃ changed new, e.1.apply e.2 = .ok changed new)
    (rows : op.onRows M s.supply (s.records op.table) = (a, s.records op.table)) (hnew : op.newRecords = []) :
    ActsAsList op M s a s where
  test := test
  updates := updates
  rows := rows
  others _ _ := rfl
  supply := by rw [hnew]; rfl

theorem ActsAsList.of_setRecords {t : Store} {after : List Value} (test : op.HasTest M)
    (updates : ∀ e ∈ op.updates M (s.records op.table), ∃ changed new, e.1.apply e.2 = .ok changed new)
    (rows : op.onRows M s.supply (s.records op.table) = (a, after)) (htables : t.tables = s.tables)
    (supply : t.supply = fun n => s.supply (n + op.newRecords.countP wantsId)) :
    ActsAsList op M s a (t.setRecords op.table after) where
  test := test
  updates := updates
  rows := by rw [rows, records_setRecords, if_pos rfl]
  others table hne := by rw [records_setRecords, if_neg hne, records_congr htables]
  supply := supply

theorem hasTest_allHold {filter : Query.Filter} {cs : List Query.Condition} (hfilter : op.filter? = some filter)
    (hcs : Query.compile filter = .ok cs) : op.HasTest (Query.allHold cs) := by
  intro filter' h
  obtain rfl : filter = filter' := Option.some.inj (hfilter.symm.trans h)
  exact ⟨cs, hcs, rfl⟩

theorem hasTest_of_filter?_eq_none (hfilter : op.filter? = none) : op.HasTest M := by
  intro filter h
  rw [hfilter] at h
  cases h

end Acts

section Operations

variable {table : String} {filter : Query.Filter}

theorem getList_acts {rows : List Value} (h : getList table filter s = .ok rows s') :
    ∃ M, ActsAsList (.getList table filter) M s (.records rows) s' := by
  obtain ⟨rfl, cs, hcs, rfl⟩ := getList_ok h
  exact ⟨_, .of_unchanged (hasTest_allHold rfl hcs) nofun rfl rfl⟩

theorem count_acts {n : Nat} (h : count table filter s = .ok n s') :
    ∃ M, ActsAsList (.count table filter) M s (.count n) s' := by
  obtain ⟨rfl, cs, hcs, rfl⟩ := count_ok h
  exact ⟨_, .of_unchanged (hasTest_allHold rfl hcs) nofun rfl rfl⟩

theorem getOne_acts {failOnEmpty failOnMore : Bool} {found : Option Value}
    (h : getOne table filter failOnEmpty failOnMore s = .ok found s') :
    ∃ M, ActsAsList (.getOne table filter failOnEmpty failOnMore) M s (.record found) s' := by
  obtain ⟨rfl, cs, hcs, rfl⟩ := getOne_ok h
  exact ⟨_, .of_unchanged (hasTest_allHold rfl hcs) nofun rfl rfl⟩

theorem delList_acts {n : Nat} (h : delList table filter s = .ok n s') :
    ∃ M, ActsAsList (.delList table filter) M s (.deleted (some n)) s' := by
  obtain ⟨cs, hcs, rfl, rfl⟩ := delList_ok h
  exact ⟨_, .of_setRecords (hasTest_allHold rfl hcs) nofun rfl rfl rfl⟩

theorem delOne_acts {failOnEmpty failOnMore : Bool} {n : Option Nat}
    (h : delOne table filter failOnEmpty failOnMore s = .ok n s') :
    ∃ M, ActsAsList (.delOne table filter failOnEmpty failOnMore) M s (.deleted n) s' := by
  obtain ⟨cs, hcs, ⟨hnone, rfl, rfl⟩ | ⟨record, hfound, rfl, rfl⟩⟩ := delOne_ok h
  · refine ⟨_, .of_unchanged (hasTest_allHold rfl hcs) nofun ?_ rfl⟩
    have herase := List.eraseP_of_forall_not (List.find?_eq_none.1 hnone)
    simp only [Operation.onRows, Operation.table, hnone, herase, Option.map_none]
  · refine ⟨_, .of_setRecords (hasTest_allHold rfl hcs) nofun ?_ rfl rfl⟩
    simp only [Operation.onRows, Operation.table, hfound, Option.map_some]

theorem create_acts {record id : Value} (h : create table record s = .ok id s') :
    ∃ M, ActsAsList (.create table record) M s (.id id) s' := by
  obtain ⟨new, t, hp, rfl⟩ := create_ok h
  obtain ⟨rfl, rfl, hsupply⟩ := prepare_complete hp
  have htables := tables_of_prepare_ok hp
  exact ⟨fun _ => true, .of_setRecords (hasTest_of_filter?_eq_none rfl) nofun rfl htables hsupply⟩

theorem createList_acts {records ids : List Value} (h : createList table records s = .ok ids s') :
    ∃ M, ActsAsList (.createList table records) M s (.ids ids) s' := by
  obtain ⟨added, t, hall, rfl⟩ := createList_ok h
  obtain ⟨rfl, rfl, hsupply⟩ := prepareAll_completeAll hall
  have htables := tables_of_prepareAll_ok hall
  exact ⟨fun _ => true, .of_setRecords (hasTest_of_filter?_eq_none rfl) nofun rfl htables hsupply⟩

theorem replace_acts {id record : Value} {failOnEmpty : Bool} {n : Option Nat}
    (h : replace table id record failOnEmpty s = .ok n s') :
    ∃ M, ActsAsList (.replace table id record failOnEmpty) M s (.updated n) s' := by
  obtain ⟨ms, rfl, -, ⟨hnone, rfl, rfl⟩ | ⟨row, hfound, rfl, rfl⟩⟩ := replace_ok h
  · refine ⟨fun _ => true, .of_unchanged (hasTest_of_filter?_eq_none rfl) nofun ?_ rfl⟩
    have hset := List.set_eq_of_length_le (length_le_findIdx hnone) (a := withId id (.map ms))
    simp only [Operation.onRows, Operation.table, hnone, Option.map_none, hset]
  · refine ⟨fun _ => true, .of_setRecords (hasTest_of_filter?_eq_none rfl) nofun ?_ rfl rfl⟩
    simp only [Operation.onRows, Operation.table, hfound, Option.map_some, updateFirst_eq_set, withId]

theorem setOne_acts {update : Update} {failOnEmpty : Bool} {n : Option Nat}
    (h : setOne table filter update failOnEmpty s = .ok n s') :
    ∃ M, ActsAsList (.setOne table filter update failOnEmpty) M s (.updated n) s' := by
  obtain ⟨cs, hcs, ⟨hnone, rfl, rfl⟩ | ⟨record, hfound, hamended⟩⟩ := setOne_ok h
  · refine ⟨_, .of_unchanged (hasTest_allHold rfl hcs) (by simp [Operation.updates, Operation.table, hnone]) ?_ rfl⟩
    have hmodify := List.modify_eq_self (length_le_findIdx hnone) (f := update.onto)
    simp only [Operation.onRows, Operation.table, hnone, Option.map_none, hmodify]
  · have hmodify := updateFirst_eq_modify hfound update.onto
    obtain ⟨hamended, rfl, rfl⟩ | ⟨new, hamended, rfl, rfl⟩ := hamended
    · -- nothing was written, and modifying the record would leave it as it is
      obtain ⟨hif, hupdate, -⟩ := amended?_eq_ok hamended
      have hc : update.changes record = false := by simpa using hif
      rw [onto_of_not_changes hc, updateFirst_self hfound] at hmodify
      refine ⟨_, .of_unchanged (hasTest_allHold rfl hcs) ?_ ?_ rfl⟩
      · simpa [Operation.updates, Operation.table, hfound] using hupdate
      · simp [Operation.onRows, Operation.table, hfound, hc, ← hmodify]
    · obtain ⟨hif, hupdate, -⟩ := amended?_eq_ok hamended
      obtain ⟨hc, rfl⟩ : update.changes record = true ∧ new = update.onto record := by simpa using hif
      refine ⟨_, .of_setRecords (hasTest_allHold rfl hcs) ?_ ?_ rfl rfl⟩
      · simpa [Operation.updates, Operation.table, hfound] using hupdate
      · simp [Operation.onRows, Operation.table, hfound, hc, ← hmodify]

theorem setList_acts {update : Update} {n : Option Nat} (h : setList table filter update s = .ok n s') :
    ∃ M, ActsAsList (.setList table filter update) M s (.updated n) s' := by
  obtain ⟨cs, hcs, ⟨hnone, rfl, rfl⟩ | ⟨hany, hall, rfl, rfl⟩⟩ := setList_ok h
  · have hno : ∀ record ∈ s'.records table, ¬ Query.allHold cs record = true := List.any_eq_false.1 hnone
    refine ⟨_, .of_unchanged (hasTest_allHold rfl hcs) (fun e he => ?_) ?_ rfl⟩
    · obtain ⟨record, hrecord, rfl⟩ := List.mem_map.1 he
      obtain ⟨hmem, hM⟩ := List.mem_filter.1 hrecord
      exact absurd hM (hno record hmem)
    · have hmap : (s'.records table).map (fun r => if Query.allHold cs r then update.onto r else r) =
          s'.records table := by
        rw [List.map_congr_left fun record hmem => if_neg (hno record hmem), List.map_id']
      simp [Operation.onRows, Operation.table, hnone, hmap]
  · refine ⟨_, .of_setRecords (hasTest_allHold rfl hcs) (fun e he => ?_) ?_ rfl rfl⟩
    · obtain ⟨record, hrecord, rfl⟩ := List.mem_map.1 he
      obtain ⟨hmem, hM⟩ := List.mem_filter.1 hrecord
      obtain ⟨amended, hamended⟩ := hall record hmem hM
      exact (amended?_eq_ok hamended).2.1
    · simp only [Operation.onRows, Operation.table, hany, if_true]

end Operations

/-- An operation that succeeds does what its function of lists says. -/
theorem exists_actsAsList_of_run {op : Operation} {a : Answer} (h : op.run s = .ok a s') :
    ∃ M, ActsAsList op M s a s' := by
  cases op with
  | getList table filter =>
    obtain ⟨_, hop, rfl⟩ := map_eq_ok.1 h
    exact getList_acts hop
  | count table filter =>
    obtain ⟨_, hop, rfl⟩ := map_eq_ok.1 h
    exact count_acts hop
  | getOne table filter failOnEmpty failOnMore =>
    obtain ⟨_, hop, rfl⟩ := map_eq_ok.1 h
    exact getOne_acts hop
  | delList table filter =>
    obtain ⟨_, hop, rfl⟩ := map_eq_ok.1 h
    exact delList_acts hop
  | delOne table filter failOnEmpty failOnMore =>
    obtain ⟨_, hop, rfl⟩ := map_eq_ok.1 h
    exact delOne_acts hop
  | create table record =>
    obtain ⟨_, hop, rfl⟩ := map_eq_ok.1 h
    exact create_acts hop
  | createList table records =>
    obtain ⟨_, hop, rfl⟩ := map_eq_ok.1 h
    exact createList_acts hop
  | replace table id record failOnEmpty =>
    obtain ⟨_, hop, rfl⟩ := map_eq_ok.1 h
    exact replace_acts hop
  | setOne table filter update failOnEmpty =>
    obtain ⟨_, hop, rfl⟩ := map_eq_ok.1 h
    exact setOne_acts hop
  | setList table filter update =>
    obtain ⟨_, hop, rfl⟩ := map_eq_ok.1 h
    exact setList_acts hop

/-- An update of the first and the third of three records changes the first alone. -/
theorem exists_actsAsList_of_setList :
    let s := (empty fun _ => (0, 0)).afterAll [
      .createList "t" [
        .map [(idKey, .int 1), (.str "a", .int 0)],
        .map [(idKey, .int 2), (.str "a", .int 1)],
        .map [(idKey, .int 3), (.str "a", .int 0), (.str "b", .int 5)]]]
    let op := Operation.setList "t" [("a", .int 0)] ⟨[("b", .int 5)], [], [], [], [], []⟩
    ∃ s', op.run s = .ok (.updated (some 1)) s' ∧
      s'.records "t" = [
        .map [(idKey, .int 1), (.str "a", .int 0), (.str "b", .int 5)],
        .map [(idKey, .int 2), (.str "a", .int 1)],
        .map [(idKey, .int 3), (.str "a", .int 0), (.str "b", .int 5)]] ∧
      ∃ M, ActsAsList op M s (.updated (some 1)) s' := by
  intro s op
  obtain ⟨s', h, hrecords⟩ : ∃ s', op.run s = .ok (.updated (some 1)) s' ∧ s'.records "t" = [
      .map [(idKey, .int 1), (.str "a", .int 0), (.str "b", .int 5)],
      .map [(idKey, .int 2), (.str "a", .int 1)],
      .map [(idKey, .int 3), (.str "a", .int 0), (.str "b", .int 5)]] :=
    ⟨_, rfl, rfl⟩
  exact ⟨s', h, hrecords, exists_actsAsList_of_run h⟩

end RecordStore.Store
