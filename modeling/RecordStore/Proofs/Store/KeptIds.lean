import RecordStore.Proofs.Store.DistinctIds

/-!
# Ids of changed records

Replacing and updating leave every record where it stands, with an id that equals the old one (`run_ok_amends`). Where
nothing else equals the old id it is kept as it is; but an integer has twins among the reals, and replacing the record
by one of these writes it over the integer. So the ids of a store are safe exactly when none of them has a twin
(`keepsIds_iff_no_twins`).
-/

namespace RecordStore.Store

variable {s s' : Store} {table : String} {rows rows' : List Value}

/-- A replacement or an update that succeeds leads from one store to the other. -/
def Rewritten (s s' : Store) : Prop := ∃ (op : Operation) (a : Answer), op.rewrites = true ∧ op.run s = .ok a s'

/-- All records have exactly their old ids, at their old positions. -/
def KeepsIds (s s' : Store) : Prop := ∀ table, (s'.records table).map recordId? = (s.records table).map recordId?

/-- The record has its old id after the change, or a twin of it. -/
def KeepsIdOrTwin (before after : Value) : Prop :=
  ∃ id new, recordId? before = some id ∧ recordId? after = some new ∧ (new = id ∨ id.IsTwin new)

/-- No id in the store has a twin. -/
def NoTwins (s : Store) : Prop :=
  ∀ table, ∀ record ∈ s.records table, ∀ id, recordId? record = some id → ¬ id.HasTwin

/-! ## What is kept -/

theorem keepsIdOrTwin_of_link {before after : Value} (hid : Identified before)
    (hl : after = before ∨ sameId before after = true) : KeepsIdOrTwin before after := by
  obtain ⟨id, hid, -⟩ := hid
  obtain ⟨new, hnew, hlink⟩ := exists_id_of_link hl hid
  refine ⟨id, new, hid, hnew, ?_⟩
  by_cases h : new = id
  · exact .inl h
  · exact .inr ⟨h, hlink.resolve_left h⟩

theorem Amends.keepsIdOrTwin (h : Amends rows rows') (hid : ∀ record ∈ rows, Identified record) :
    List.Forall₂ KeepsIdOrTwin rows rows' := by
  induction h with
  | nil => exact .nil
  | cons hl _ ih =>
    obtain ⟨hbefore, hid⟩ := List.forall_mem_cons.1 hid
    exact .cons (keepsIdOrTwin_of_link hbefore hl) (ih hid)

theorem Rewritten.keepsIdOrTwin (h : Rewritten s s') (hid : s.AllIdentified) (table : String) :
    List.Forall₂ KeepsIdOrTwin (s.records table) (s'.records table) := by
  obtain ⟨op, a, hop, h⟩ := h
  obtain ⟨rows, hrows, hamends⟩ := run_ok_amends hop h
  rw [hrows]
  split
  case isTrue htable =>
    rw [htable]
    exact hamends.keepsIdOrTwin (hid op.table)
  case isFalse => exact Amends.keepsIdOrTwin (.refl _) (hid table)

/-- Where no id has a twin, all are kept. -/
theorem map_recordId?_eq (h : List.Forall₂ KeepsIdOrTwin rows rows')
    (hno : ∀ record ∈ rows, ∀ id, recordId? record = some id → ¬ id.HasTwin) :
    rows'.map recordId? = rows.map recordId? := by
  induction h with
  | nil => rfl
  | cons hkeeps _ ih =>
    obtain ⟨hbefore, hno⟩ := List.forall_mem_cons.1 hno
    obtain ⟨id, new, hid, hnew, rfl | htwin⟩ := hkeeps
    · rw [List.map_cons, List.map_cons, hid, hnew, ih hno]
    · exact absurd ⟨new, htwin⟩ (hbefore id hid)

/-! ## What is lost -/

theorem recordId?_of_updateFirst {p : Value → Bool} {new row : Value} (hfirst : rows.find? p = some row)
    (h : (updateFirst p new rows).map recordId? = rows.map recordId?) : recordId? row = recordId? new := by
  induction rows with
  | nil => cases hfirst
  | cons r rows ih =>
    rw [updateFirst] at h
    cases hp : p r with
    | true =>
      obtain rfl : r = row := by simpa [hp] using hfirst
      rw [if_pos hp, List.map_cons, List.map_cons] at h
      exact (List.cons.inj h).1.symm
    | false =>
      rw [if_neg (by simp [hp]), List.map_cons, List.map_cons] at h
      exact ih (by simpa [hp] using hfirst) (List.cons.inj h).2

/-- Two first finds that pass each other's test are one. -/
theorem find?_unique {p q : Value → Bool} {r r' : Value} (hr : rows.find? p = some r) (hr' : rows.find? q = some r')
    (hq : q r = true) (hp : p r' = true) : r = r' := by
  induction rows with
  | nil => cases hr
  | cons row rows ih =>
    rw [List.find?_cons] at hr hr'
    cases hprow : p row with
    | true =>
      obtain rfl : row = r := by simpa [hprow] using hr
      simpa [hq] using hr'
    | false =>
      cases hqrow : q row with
      | true =>
        obtain rfl : row = r' := by simpa [hqrow] using hr'
        rw [hprow] at hp
        cases hp
      | false => exact ih (by simpa [hprow] using hr) (by simpa [hqrow] using hr')

theorem run_replace {id : Value} {ms : Members} {failOnEmpty : Bool} (hms : Entries.find? idKey ms = none)
    (hany : (s.records table).any (hasId id) = true) :
    (Operation.replace table id (.map ms) failOnEmpty).run s = .ok (.updated (some 1))
      (s.setRecords table (updateFirst (hasId id) (.map (Entries.insert idKey id ms)) (s.records table))) := by
  have h : Store.replace table id (.map ms) failOnEmpty s = .ok (some 1)
      (s.setRecords table (updateFirst (hasId id) (.map (Entries.insert idKey id ms)) (s.records table))) := by
    obtain ⟨⟨row, i⟩, hfirst⟩ : ∃ first, (s.records table).zipIdx.find? (hasId id ·.1) = some first := by
      refine Option.ne_none_iff_exists'.1 fun hnone => ?_
      obtain ⟨row, hrow, hid⟩ := List.any_eq_true.1 hany
      exact List.find?_eq_none.1 (found_none hnone) row hrow hid
    rw [replace_map, guarded_eq_ok]
    simp only [hms, Option.any_none, Bool.false_eq_true, if_false, bind_eq_ok, get_eq_ok]
    refine ⟨s, s, ⟨rfl, rfl⟩, ?_⟩
    rw [hfirst]
    simp only [bind_eq_ok, modify_eq_ok, pure_eq_ok]
    exact ⟨⟨⟩, _, by rw [(found_first hfirst).2.2], trivial, rfl⟩
  exact map_eq_ok.2 ⟨some 1, h, rfl⟩

theorem rewritten_replace {id : Value} (hany : (s.records table).any (hasId id) = true) :
    Rewritten s (s.setRecords table
      (updateFirst (hasId id) (.map (Entries.insert idKey id [])) (s.records table))) :=
  ⟨.replace table id (.map []) true, _, rfl, run_replace rfl hany⟩

/-- If replacing records keeps all ids, the first record with an id equal to the given one has that id itself. -/
theorem exists_first_of_keepsIds {id : Value} (hany : (s.records table).any (hasId id) = true)
    (hkeeps : ∀ s', Rewritten s s' → KeepsIds s s') :
    ∃ row, (s.records table).find? (hasId id) = some row ∧ recordId? row = some id := by
  obtain ⟨row, hrow⟩ : ∃ row, (s.records table).find? (hasId id) = some row := by
    simpa [List.find?_isSome, ← Option.isSome_iff_exists] using hany
  have hids := hkeeps _ (rewritten_replace hany) table
  rw [records_setRecords, if_pos rfl] at hids
  exact ⟨row, hrow, (recordId?_of_updateFirst hrow hids).trans (recordId?_insert id [])⟩

/-- Replacing by an id the record of its twin, or the other way round, changes an id. -/
theorem noTwins_of_keepsIds (hkeeps : ∀ s', Rewritten s s' → KeepsIds s s') :
    s.NoTwins := by
  rintro table record hmem id hid ⟨twin, hne, htwin⟩
  have hsymm : (id == twin) = true := (Value.beq_comm id twin).trans htwin
  have hmatch : hasId twin record = true := by rw [hasId, hid, Option.any_some, hsymm]
  obtain ⟨row, hrow, hrowId⟩ := exists_first_of_keepsIds (List.any_eq_true.2 ⟨record, hmem, hmatch⟩) hkeeps
  have hrowMatch : hasId id row = true := by rw [hasId, hrowId, Option.any_some, htwin]
  have hany := List.any_eq_true.2 ⟨row, List.mem_of_find?_eq_some hrow, hrowMatch⟩
  obtain ⟨row', hrow', hrowId'⟩ := exists_first_of_keepsIds hany hkeeps
  have hrowMatch' : hasId twin row' = true := by rw [hasId, hrowId', Option.any_some, hsymm]
  obtain rfl := find?_unique hrow hrow' hrowMatch hrowMatch'
  exact hne (Option.some.inj (hrowId.symm.trans hrowId'))

/-! ## Reachable stores -/

theorem keepsIds_iff_of_allIdentified (hid : s.AllIdentified) :
    (∀ s', Rewritten s s' → KeepsIds s s') ↔ s.NoTwins := by
  constructor
  · exact noTwins_of_keepsIds
  · intro hno s' h table
    exact map_recordId?_eq (h.keepsIdOrTwin hid table) (hno table)

/-- In every state that a history leads to, replacing and updating keep each record at its position with its id or a
twin of that; and they keep all ids exactly when none has a twin. -/
theorem keepsIds_iff_no_twins (words : Nat → UInt64 × UInt64) (writer : Json.Writer) (history : List Operation) :
    (∀ s', Rewritten ((empty words writer).afterAll history) s' → ∀ table,
        List.Forall₂ KeepsIdOrTwin (((empty words writer).afterAll history).records table) (s'.records table)) ∧
      ((∀ s', Rewritten ((empty words writer).afterAll history) s' →
          KeepsIds ((empty words writer).afterAll history) s') ↔
        ((empty words writer).afterAll history).NoTwins) := by
  have hid := allIdentified_afterAll words writer history
  exact ⟨fun s' h => h.keepsIdOrTwin hid, keepsIds_iff_of_allIdentified hid⟩

/-- A real with the value 1 takes the place of the integer. -/
theorem not_keepsIds_of_real_id : ¬ ∀ words history s', Rewritten ((empty words).afterAll history) s' →
    KeepsIds ((empty words).afterAll history) s' := by
  intro h
  let history : List Operation := [.create "t" (.map [(idKey, .int 1)])]
  let s := (empty fun _ => (0, 0)).afterAll history
  have hany : (s.records "t").any (hasId (.real ⟨0x3FF0000000000000⟩)) = true := by decide +kernel
  have hkeeps := h (fun _ => (0, 0)) history _ (rewritten_replace hany) "t"
  rw [records_setRecords, if_pos rfl] at hkeeps
  have hkinds := congrArg (·.map (Option.map Value.typeName)) hkeeps
  revert hkinds
  decide +kernel

end RecordStore.Store
