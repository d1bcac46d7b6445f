import RecordStore.Proofs.Store.Effect

/-!
# Stored records have ids

Every record in a table is a map with an id, a scalar that is neither null nor the empty string (`Identified`). A new
record has one when it is prepared (`identified_prepareAll`), and a changed one has an id equal to the old
(`Identified.of_sameId`), so no operation breaks this (`AllIdentified.after`, `allIdentified_afterAll`).
-/

namespace RecordStore.Store

/-- The record is a map with an id. -/
def Identified (record : Value) : Prop := ∃ id, recordId? record = some id ∧ IsId id

/-- All records of all tables have ids. -/
def AllIdentified (s : Store) : Prop := ∀ table, ∀ record ∈ s.records table, Identified record

/-- What holds at first and is kept by each operation holds after all of them. -/
theorem afterAll_keeps {P : Store → Prop} (step : ∀ s op, P s → P (s.after op)) {s : Store} (h : P s)
    (history : List Operation) : P (s.afterAll history) := by
  induction history generalizing s with
  | nil => exact h
  | cons op history ih => exact ih (step s op h)

/-! ## New records -/

section New

variable {s s' : Store} {table : String} {others : List Value}

theorem isId_nextId (s : Store) : IsId (.str s.nextId) := by
  refine ⟨rfl, nofun, fun h => ?_⟩
  -- the text is too long to be empty, whatever the words are
  have hchars := congrArg String.toList (Value.str.inj h)
  simp [nextId, Uuid.ofWords, Uuid.groupSizes, Uuid.grouped] at hchars

theorem identified_prepare {record id new : Value} (h : prepare table others record s = .ok (id, new) s') :
    recordId? new = some id ∧ IsId id := by
  obtain ⟨ms, rfl, ⟨-, rfl, rfl, -⟩ | ⟨-, hid, his, -, rfl, -⟩⟩ := prepare_ok h
  · exact ⟨recordId?_insert _ ms, isId_nextId s⟩
  · exact ⟨hid, his⟩

theorem prepareAll_cons_ok {record : Value} {records ids added : List Value}
    (h : prepareAll table others (record :: records) s = .ok (ids, added) s') :
    ∃ id new t ids' added', prepare table others record s = .ok (id, new) t ∧
      prepareAll table (others ++ [new]) records t = .ok (ids', added') s' ∧ ids = id :: ids' ∧
      added = new :: added' := by
  simp only [prepareAll, bind_eq_ok, pure_eq_ok] at h
  obtain ⟨⟨id, new⟩, t, hp, ⟨ids', added'⟩, _, hall, h, rfl⟩ := h
  cases h
  exact ⟨id, new, t, ids', added', hp, hall, rfl, rfl⟩

theorem identified_prepareAll {records ids added : List Value}
    (h : prepareAll table others records s = .ok (ids, added) s') : ∀ record ∈ added, Identified record := by
  induction records generalizing others s ids added with
  | nil =>
    obtain ⟨h, -⟩ := pure_eq_ok.1 h
    cases h
    exact nofun
  | cons record records ih =>
    obtain ⟨id, new, t, ids', added', hp, hall, -, rfl⟩ := prepareAll_cons_ok h
    intro r hr
    rcases List.mem_cons.1 hr with rfl | hr
    · exact ⟨id, identified_prepare hp⟩
    · exact ih hall r hr

end New

/-! ## Changed records -/

theorem IsId.of_beq {a b : Value} (h : (a == b) = true) (hb : IsId b) : IsId a := by
  obtain ⟨hs, hnull, hstr⟩ := hb
  refine ⟨(Value.isScalar_eq_of_beq h).trans hs, ?_, ?_⟩
  · rintro rfl
    rw [Value.beq_comm] at h
    exact hnull (Value.eq_null_of_beq h)
  · rintro rfl
    rw [Value.beq_comm] at h
    exact hstr (Value.eq_str_of_beq h)

theorem Identified.of_sameId {before after : Value} (h : sameId before after = true) (hb : Identified before) :
    Identified after := by
  obtain ⟨old, new, hold, hnew, heq⟩ := sameId_eq_true_iff.1 h
  obtain ⟨id, hid, his⟩ := hb
  obtain rfl : old = id := Option.some.inj (hold.symm.trans hid)
  exact ⟨new, hnew, his.of_beq heq⟩

/-- Every record of a changed list is an old one, or comes from one. -/
theorem Amends.exists_of_mem {rows rows' : List Value} (h : Amends rows rows') {after : Value} (ha : after ∈ rows') :
    ∃ before ∈ rows, after = before ∨ sameId before after = true := by
  induction h with
  | nil => cases ha
  | cons hd _ ih =>
    rcases List.mem_cons.1 ha with rfl | ha
    · exact ⟨_, List.mem_cons_self, hd⟩
    · obtain ⟨before, hb, hl⟩ := ih ha
      exact ⟨before, List.mem_cons_of_mem _ hb, hl⟩

/-! ## Every operation -/

theorem allIdentified_empty (words : Nat → UInt64 × UInt64) (writer : Json.Writer) :
    (empty words writer).AllIdentified := nofun

theorem AllIdentified.after {s : Store} (h : s.AllIdentified) (op : Operation) : (s.after op).AllIdentified := by
  obtain ⟨rows, hrows, hchange⟩ := after_changes s op
  have hnew : ∀ record ∈ rows, Identified record := by
    cases hchange with
    | removed hsub => exact fun record hr => h op.table record (hsub.subset hr)
    | appended hall =>
      intro record hr
      rcases List.mem_append.1 hr with hr | hr
      · exact h op.table record hr
      · exact identified_prepareAll hall record hr
    | amended hamends =>
      intro record hr
      obtain ⟨before, hb, rfl | hsame⟩ := hamends.exists_of_mem hr
      · exact h op.table record hb
      · exact (h op.table before hb).of_sameId hsame
  intro table record hr
  rw [hrows] at hr
  split at hr
  · exact hnew record hr
  · exact h table record hr

theorem allIdentified_afterAll (words : Nat → UInt64 × UInt64) (writer : Json.Writer) (history : List Operation) :
    ((empty words writer).afterAll history).AllIdentified :=
  afterAll_keeps (fun _ op h => h.after op) (allIdentified_empty words writer) history

/-- In every state that a history leads to, each record is a map with a member for its id, a scalar that is neither
null nor the empty string. -/
theorem exists_id_of_mem_records (words : Nat → UInt64 × UInt64) (writer : Json.Writer) (history : List Operation)
    (table : String) {record : Value} (h : record ∈ ((empty words writer).afterAll history).records table) :
    ∃ ms id, record = .map ms ∧ Entries.find? idKey ms = some id ∧ id.isScalar = true ∧ id ≠ .null ∧ id ≠ .str "" := by
  obtain ⟨id, hid, hscalar, hnull, hstr⟩ := allIdentified_afterAll words writer history table record h
  cases record with
  | map ms => exact ⟨ms, id, rfl, hid, hscalar, hnull, hstr⟩
  | _ => cases hid

/-- A setting writes to the id, together with another member. -/
theorem exists_id_of_mem_setOne :
    let history : List Operation := [.create "t" (.map [(idKey, .int 1)]),
      .setOne "t" [] ⟨[("_id", .int 1), ("a", .null)], [], [], [], [], []⟩ true]
    let ms : Members := [(idKey, .int 1), (.str "a", .null)]
    .map ms ∈ ((empty fun _ => (0, 0)).afterAll history).records "t" ∧
      ∃ id, Entries.find? idKey ms = some id ∧ id.isScalar = true ∧ id ≠ .null ∧ id ≠ .str "" := by
  intro history ms
  have hmem : .map ms ∈ ((empty fun _ => (0, 0)).afterAll history).records "t" := by
    have hrecords : ((empty fun _ => (0, 0)).afterAll history).records "t" = [.map ms] := rfl
    rw [hrecords]
    exact List.mem_singleton_self _
  obtain ⟨_, id, hms, hid⟩ := exists_id_of_mem_records (fun _ => (0, 0)) .unrestricted history "t" hmem
  cases hms
  exact ⟨hmem, id, hid⟩

end RecordStore.Store
