import RecordStore.Proofs.Store.Specification

/-!
# Creating records in one go

`createList` prepares all its records before it stores any, each beside the records of the table and those prepared
before it. `create`, called for one record after another, finds these in the table instead. Preparing does not look at
the tables (`onlyDraws_prepareAll`), so both prepare the same (`prepareAll_of_mapM_create_ok`,
`prepareAll_of_mapM_create_error`) and end alike (`createList_endsAs_mapM_create`); only that what was created before a
failure stays when records are created singly.
-/

namespace RecordStore.Store

/-- Two ways of creating records in a store end alike: they answer the same ids and leave the same records; or they fail
with the same error, and then the first has left all records as they were. In both cases they leave the same ids to
come. -/
def EndsAs (s : Store) : (batch singly : EStateM.Result Error Store (List Value)) → Prop
  | .ok ids t, .ok ids' t' => ids = ids' ∧ t.supply = t'.supply ∧ ∀ table, t.records table = t'.records table
  | .error e t, .error e' t' => e = e' ∧ t.supply = t'.supply ∧ ∀ table, t.records table = s.records table
  | _, _ => False

/-! ## One record after another -/

section

variable {s s' : Store} {table : String} {record : Value} {records ids : List Value} {e : Error}

/-- A record is not created only where it cannot be prepared. -/
theorem create_error (h : create table record s = .error e s') :
    ∃ inner, prepare table (s.records table) record s = .error inner s' ∧ e = inner.reported s.writer := by
  obtain ⟨inner, hinner, he⟩ := guarded_eq_error.1 h
  refine ⟨inner, ?_, he⟩
  rcases bind_eq_error.1 hinner with h | ⟨_, _, hget, h⟩
  · cases h
  · obtain ⟨rfl, rfl⟩ := get_eq_ok.1 hget
    rcases bind_eq_error.1 h with h | ⟨_, _, _, h⟩
    · exact h
    · cases h

/-- Records that can be created one after another can be prepared together: with the same ids, and as they then stand
in the table. -/
theorem prepareAll_of_mapM_create_ok (h : records.mapM (create table) s = .ok ids s') :
    ∃ added t, prepareAll table (s.records table) records s = .ok (ids, added) t ∧ t.supply = s'.supply ∧
      ∀ u, s'.records u = if u = table then s.records table ++ added else s.records u := by
  induction records generalizing s ids with
  | nil =>
    obtain ⟨rfl, rfl⟩ := pure_eq_ok.1 h
    refine ⟨[], s, rfl, rfl, fun u => ?_⟩
    rw [List.append_nil]
    exact records_of_tables_eq rfl table u
  | cons record records ih =>
    simp only [List.mapM_cons, bind_eq_ok, pure_eq_ok] at h
    obtain ⟨id, s₁, hcreate, ids', _, hrest, rfl, rfl⟩ := h
    obtain ⟨new, t, hprepare, rfl⟩ := create_ok hcreate
    obtain ⟨added, _, hall, hsupply, hrecords⟩ := ih hrest
    rw [records_setRecords, if_pos rfl] at hall hrecords
    -- the records prepared so far are in the table, but the others are prepared alike without them there
    rw [Store.setRecords, onlyDraws_prepareAll, withRest_eq_ok] at hall
    obtain ⟨t', hall, rfl⟩ := hall
    refine ⟨new :: added, t', ?_, hsupply, fun u => ?_⟩
    · simp only [prepareAll, bind_eq_ok, pure_eq_ok]
      exact ⟨_, t, hprepare, _, t', hall, rfl, rfl⟩
    · have htables := tables_of_prepare_ok hprepare
      rw [hrecords, List.append_assoc, List.singleton_append, records_setRecords, records_congr htables]
      split <;> rfl

/-- The first record that cannot be created cannot be prepared either. -/
theorem prepareAll_of_mapM_create_error (h : records.mapM (create table) s = .error e s') :
    ∃ inner t, prepareAll table (s.records table) records s = .error inner t ∧ e = inner.reported s.writer ∧
      t.supply = s'.supply := by
  induction records generalizing s with
  | nil => cases h
  | cons record records ih =>
    simp only [prepareAll, bind_eq_error]
    simp only [List.mapM_cons, bind_eq_error] at h
    obtain hcreate | ⟨id, s₁, hcreate, hrest | ⟨_, _, _, h⟩⟩ := h
    · obtain ⟨inner, hprepare, he⟩ := create_error hcreate
      exact ⟨inner, s', .inl hprepare, he, rfl⟩
    · obtain ⟨new, t, hprepare, rfl⟩ := create_ok hcreate
      obtain ⟨inner, _, hall, he, hsupply⟩ := ih hrest
      rw [records_setRecords, if_pos rfl, Store.setRecords, onlyDraws_prepareAll, withRest_eq_error] at hall
      obtain ⟨t', hall, rfl⟩ := hall
      rw [Store.setRecords, writer_of_prepare_ok hprepare] at he
      exact ⟨inner, t', .inr ⟨_, t, hprepare, .inl hall⟩, he, hsupply⟩
    · cases h

end

/-- Creating records in one go ends as creating them one after another, only that a failure leaves nothing behind. -/
theorem createList_endsAs_mapM_create (s : Store) (table : String) (records : List Value) :
    EndsAs s (createList table records s) (records.mapM (create table) s) := by
  cases hsingly : records.mapM (create table) s with
  | ok ids s' =>
    obtain ⟨added, t, hall, hsupply, hrecords⟩ := prepareAll_of_mapM_create_ok hsingly
    have hbatch : createList table records s = .ok ids (t.setRecords table (s.records table ++ added)) :=
      guarded_eq_ok.2 (bind_eq_ok.2 ⟨s, s, rfl, bind_eq_ok.2 ⟨_, t, hall, rfl⟩⟩)
    rw [hbatch]
    refine ⟨rfl, hsupply, fun u => ?_⟩
    rw [records_setRecords, hrecords, records_congr (tables_of_prepareAll_ok hall)]
  | error e s' =>
    obtain ⟨inner, t, hall, he, hsupply⟩ := prepareAll_of_mapM_create_error hsingly
    have hbatch : createList table records s = .error e t :=
      guarded_eq_error.2 ⟨inner, bind_eq_error.2 (.inr ⟨s, s, rfl, bind_eq_error.2 (.inl hall)⟩), he⟩
    rw [hbatch]
    exact ⟨rfl, hsupply, fun u => records_congr (tables_of_prepareAll_error hall) u⟩

end RecordStore.Store
