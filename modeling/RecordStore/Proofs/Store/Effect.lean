import RecordStore.Proofs.Store.Failure
import RecordStore.Proofs.Store.Positions
import RecordStore.Proofs.Value.Equality
import Mathlib.Data.List.Forall2

/-!
# What operations do to the records of their table

One lemma for each operation says what a successful run returns and what store it leaves (`delList_ok`, `setOne_ok`
and so on). From them an operation does one of three things to the records of its table, and nothing to other tables
(`Changes`, `after_changes`): it takes some away, it appends new ones, or it changes some in place and keeps their ids
up to equality (`Amends`).
-/

namespace RecordStore.Store

variable {s s' : Store} {table : String} {filter : Query.Filter}

/-! ## Ids -/

theorem recordId?_insert (id : Value) (ms : Members) : recordId? (.map (Entries.insert idKey id ms)) = some id := by
  simp [recordId?, Value.find?, Entries.find?_insert]

theorem sameId_eq_hasId {id before after : Value} (h : recordId? after = some id) :
    sameId before after = hasId id before := by
  unfold sameId
  cases hb : recordId? before with
  | none => simp [hasId, hb]
  | some old => simp [hasId, hb, h, Value.beq_comm id]

theorem sameId_eq_true_iff {before after : Value} : sameId before after = true ↔
    ∃ old new, recordId? before = some old ∧ recordId? after = some new ∧ (new == old) = true := by
  unfold sameId hasId
  cases recordId? before <;> cases recordId? after <;> simp

/-! ## The parts of operations -/

theorem predicate_eq_ok {p : Value → Bool} :
    predicate filter s = .ok p s' ↔ ∃ cs, Query.compile filter = .ok cs ∧ Query.allHold cs = p ∧ s = s' := by
  unfold predicate
  cases Query.compile filter with
  | ok cs => simp [pure_eq_ok]
  | error e => simp [throw_ne_ok]

theorem matching_eq_ok {found : List (Value × Nat)} : matching table filter s = .ok found s' ↔
    ∃ cs, Query.compile filter = .ok cs ∧ found = (s.records table).zipIdx.filter (Query.allHold cs ·.1) ∧ s = s' := by
  simp only [matching, bind_eq_ok, predicate_eq_ok, get_eq_ok, pure_eq_ok]
  constructor
  · rintro ⟨_, _, ⟨cs, hcs, rfl, rfl⟩, _, _, ⟨rfl, rfl⟩, rfl, rfl⟩
    exact ⟨cs, hcs, rfl, rfl⟩
  · rintro ⟨cs, hcs, rfl, rfl⟩
    exact ⟨_, s, ⟨cs, hcs, rfl, rfl⟩, s, s, ⟨rfl, rfl⟩, rfl, rfl⟩

theorem single_eq_ok {α : Type} {failOnEmpty failOnMore : Bool} {found : List α} {first : Option α}
    (h : single filter failOnEmpty failOnMore found s = .ok first s') : found.head? = first ∧ s = s' := by
  cases found with
  | nil =>
    rw [single] at h
    split at h
    · exact absurd h throw_ne_ok
    · exact pure_eq_ok.1 h
  | cons _ _ =>
    rw [single] at h
    split at h
    · exact absurd h throw_ne_ok
    · exact pure_eq_ok.1 h

theorem freshId_eq_ok {id : Value} :
    freshId s = .ok id s' ↔ .str s.nextId = id ∧ { s with drawn := s.drawn + 1 } = s' := by
  show EStateM.Result.ok _ _ = .ok id s' ↔ _
  simp

/-- A record that is to be created without an id of its own: a map with none, or with null or the empty string for
one. -/
def wantsId : Value → Bool
  | .map ms =>
    match (Entries.find? idKey ms).getD .null with
    | .null | .str "" => true
    | _ => false
  | _ => false

/-- What may be the id of a record: a scalar, but not null and not the empty string. -/
def IsId (id : Value) : Prop := id.isScalar = true ∧ id ≠ .null ∧ id ≠ .str ""

theorem generate_ok {ms : Members} {id new : Value}
    (h : (do let id ← freshId; return (id, Value.map (Entries.insert idKey id ms)) : Action (Value × Value)) s =
      .ok (id, new) s') :
    id = .str s.nextId ∧ new = .map (Entries.insert idKey id ms) ∧ s' = { s with drawn := s.drawn + 1 } := by
  simp only [bind_eq_ok, freshId_eq_ok, pure_eq_ok] at h
  obtain ⟨_, _, ⟨rfl, rfl⟩, h, rfl⟩ := h
  cases h
  exact ⟨rfl, rfl, rfl⟩

/-- A record is created with a generated id, or with its own, which no other record has. -/
theorem prepare_ok {others : List Value} {record id new : Value}
    (h : prepare table others record s = .ok (id, new) s') :
    ∃ ms, record = .map ms ∧
      (wantsId record = true ∧ id = .str s.nextId ∧ new = .map (Entries.insert idKey id ms) ∧
          s' = { s with drawn := s.drawn + 1 } ∨
        wantsId record = false ∧ Entries.find? idKey ms = some id ∧ IsId id ∧ others.any (hasId id) = false ∧
          new = record ∧ s' = s) := by
  cases record with
  | map ms =>
    refine ⟨ms, rfl, ?_⟩
    rw [prepare_map] at h
    generalize hfound : (Entries.find? idKey ms).getD .null = found at h
    split at h
    · exact .inl ⟨by simp [wantsId, hfound], generate_ok h⟩
    · exact .inl ⟨by simp [wantsId, hfound], generate_ok h⟩
    case h_3 found hnull hstr =>
      split at h
      · exact absurd h throw_ne_ok
      · rename_i hscalar
        split at h
        · exact absurd h throw_ne_ok
        · rename_i hother
          obtain ⟨hid, rfl⟩ := pure_eq_ok.1 h
          cases hid
          have hsome : Entries.find? idKey ms = some id := by
            cases hf : Entries.find? idKey ms with
            | none => exact (hnull (by simpa [hf] using hfound.symm)).elim
            | some v => simpa [hf] using hfound
          have hwants : wantsId (.map ms) = false := by
            simp only [wantsId, hfound]
          exact .inr ⟨hwants, hsome, ⟨by simpa using hscalar, hnull, hstr⟩, by simpa using hother, rfl, rfl⟩
  | _ => exact absurd h throw_ne_ok

/-! ## Single operations -/

theorem getList_ok {rows : List Value} (h : getList table filter s = .ok rows s') :
    s' = s ∧ ∃ cs, Query.compile filter = .ok cs ∧ rows = (s.records table).filter (Query.allHold cs) := by
  simp only [getList, guarded_eq_ok, bind_eq_ok, matching_eq_ok, pure_eq_ok] at h
  obtain ⟨_, _, ⟨cs, hcs, rfl, rfl⟩, rfl, rfl⟩ := h
  exact ⟨rfl, cs, hcs, map_fst_found _ _ 0⟩

theorem count_ok {n : Nat} (h : count table filter s = .ok n s') :
    s' = s ∧ ∃ cs, Query.compile filter = .ok cs ∧ n = ((s.records table).filter (Query.allHold cs)).length := by
  simp only [count, guarded_eq_ok, bind_eq_ok, matching_eq_ok, pure_eq_ok] at h
  obtain ⟨_, _, ⟨cs, hcs, rfl, rfl⟩, rfl, rfl⟩ := h
  exact ⟨rfl, cs, hcs, length_found _ _ 0⟩

theorem getOne_ok {failOnEmpty failOnMore : Bool} {found : Option Value}
    (h : getOne table filter failOnEmpty failOnMore s = .ok found s') :
    s' = s ∧ ∃ cs, Query.compile filter = .ok cs ∧ found = (s.records table).find? (Query.allHold cs) := by
  simp only [getOne, guarded_eq_ok, bind_eq_ok, matching_eq_ok, pure_eq_ok] at h
  obtain ⟨_, _, ⟨cs, hcs, rfl, rfl⟩, first, _, hsingle, rfl, rfl⟩ := h
  obtain ⟨hfirst, rfl⟩ := single_eq_ok hsingle
  rw [List.head?_filter] at hfirst
  refine ⟨rfl, cs, hcs, ?_⟩
  cases first with
  | none => exact (found_none hfirst).symm
  | some first => exact (found_first hfirst).1.symm

theorem delList_ok {n : Nat} (h : delList table filter s = .ok n s') :
    ∃ cs, Query.compile filter = .ok cs ∧ n = ((s.records table).filter (Query.allHold cs)).length ∧
      s' = s.setRecords table ((s.records table).filter (!Query.allHold cs ·)) := by
  simp only [delList, guarded_eq_ok, bind_eq_ok, matching_eq_ok, modify_eq_ok, pure_eq_ok] at h
  obtain ⟨_, _, ⟨cs, hcs, rfl, rfl⟩, _, _, rfl, rfl, rfl⟩ := h
  exact ⟨cs, hcs, length_found _ _ 0, by rw [eraseAll_found]⟩

theorem delOne_ok {failOnEmpty failOnMore : Bool} {n : Option Nat}
    (h : delOne table filter failOnEmpty failOnMore s = .ok n s') :
    ∃ cs, Query.compile filter = .ok cs ∧
      ((s.records table).find? (Query.allHold cs) = none ∧ n = none ∧ s' = s ∨
        ∃ record, (s.records table).find? (Query.allHold cs) = some record ∧ n = some 1 ∧
          s' = s.setRecords table ((s.records table).eraseP (Query.allHold cs))) := by
  simp only [delOne, guarded_eq_ok, bind_eq_ok, matching_eq_ok] at h
  obtain ⟨_, _, ⟨cs, hcs, rfl, rfl⟩, first, _, hsingle, h⟩ := h
  obtain ⟨hfirst, rfl⟩ := single_eq_ok hsingle
  rw [List.head?_filter] at hfirst
  refine ⟨cs, hcs, ?_⟩
  cases first with
  | none =>
    obtain ⟨rfl, rfl⟩ := pure_eq_ok.1 h
    exact .inl ⟨found_none hfirst, rfl, rfl⟩
  | some first =>
    simp only [bind_eq_ok, modify_eq_ok, pure_eq_ok] at h
    obtain ⟨_, _, rfl, rfl, rfl⟩ := h
    obtain ⟨hfind, herase, -⟩ := found_first hfirst
    exact .inr ⟨first.1, hfind, rfl, by rw [herase]⟩

theorem create_ok {record id : Value} (h : create table record s = .ok id s') :
    ∃ new t, prepare table (s.records table) record s = .ok (id, new) t ∧
      s' = t.setRecords table (s.records table ++ [new]) := by
  simp only [create, guarded_eq_ok, bind_eq_ok, get_eq_ok, modify_eq_ok, pure_eq_ok] at h
  obtain ⟨_, _, ⟨rfl, rfl⟩, ⟨_, new⟩, t, hp, _, _, rfl, rfl, rfl⟩ := h
  exact ⟨new, t, hp, rfl⟩

theorem createList_ok {records ids : List Value} (h : createList table records s = .ok ids s') :
    ∃ added t, prepareAll table (s.records table) records s = .ok (ids, added) t ∧
      s' = t.setRecords table (s.records table ++ added) := by
  simp only [createList, guarded_eq_ok, bind_eq_ok, get_eq_ok, modify_eq_ok, pure_eq_ok] at h
  obtain ⟨_, _, ⟨rfl, rfl⟩, ⟨_, added⟩, t, hp, _, _, rfl, rfl, rfl⟩ := h
  exact ⟨added, t, hp, rfl⟩

theorem replace_ok {id record : Value} {failOnEmpty : Bool} {n : Option Nat}
    (h : replace table id record failOnEmpty s = .ok n s') :
    ∃ ms, record = .map ms ∧ (∀ new, Entries.find? idKey ms = some new → (new == id) = true) ∧
      ((s.records table).find? (hasId id) = none ∧ n = none ∧ s' = s ∨
        ∃ row, (s.records table).find? (hasId id) = some row ∧ n = some 1 ∧
          s' = s.setRecords table (updateFirst (hasId id) (.map (Entries.insert idKey id ms)) (s.records table))) := by
  cases record with
  | map ms =>
    rw [replace_map, guarded_eq_ok] at h
    split at h
    · exact absurd h throw_ne_ok
    · rename_i hid
      simp only [bind_eq_ok, get_eq_ok] at h
      obtain ⟨_, _, ⟨rfl, rfl⟩, h⟩ := h
      refine ⟨ms, rfl, fun new hnew => ?_, ?_⟩
      · simpa [hnew] using hid
      · cases hfirst : (s.records table).zipIdx.find? (hasId id ·.1) with
        | none =>
          rw [hfirst] at h
          dsimp only at h
          split at h
          · exact absurd h throw_ne_ok
          · obtain ⟨rfl, rfl⟩ := pure_eq_ok.1 h
            exact .inl ⟨found_none hfirst, rfl, rfl⟩
        | some first =>
          rw [hfirst] at h
          simp only [bind_eq_ok, modify_eq_ok, pure_eq_ok] at h
          obtain ⟨_, _, rfl, rfl, rfl⟩ := h
          obtain ⟨hfind, -, hset⟩ := found_first hfirst
          exact .inr ⟨first.1, hfind, rfl, by rw [hset]⟩
  | _ => exact absurd h throw_ne_ok

theorem setOne_ok {update : Update} {failOnEmpty : Bool} {n : Option Nat}
    (h : setOne table filter update failOnEmpty s = .ok n s') :
    ∃ cs, Query.compile filter = .ok cs ∧
      ((s.records table).find? (Query.allHold cs) = none ∧ n = none ∧ s' = s ∨
        ∃ record, (s.records table).find? (Query.allHold cs) = some record ∧
          (amended? update record = .ok none ∧ n = some 0 ∧ s' = s ∨
            ∃ new, amended? update record = .ok (some new) ∧ n = some 1 ∧
              s' = s.setRecords table (updateFirst (Query.allHold cs) new (s.records table)))) := by
  simp only [setOne, guarded_eq_ok, bind_eq_ok, matching_eq_ok] at h
  obtain ⟨_, _, ⟨cs, hcs, rfl, rfl⟩, first, _, hsingle, h⟩ := h
  obtain ⟨hfirst, rfl⟩ := single_eq_ok hsingle
  rw [List.head?_filter] at hfirst
  refine ⟨cs, hcs, ?_⟩
  cases first with
  | none =>
    obtain ⟨rfl, rfl⟩ := pure_eq_ok.1 h
    exact .inl ⟨found_none hfirst, rfl, rfl⟩
  | some first =>
    obtain ⟨record, i⟩ := first
    obtain ⟨hfind, -, hset⟩ := found_first hfirst
    simp only [bind_eq_ok, ofExcept_eq_ok] at h
    obtain ⟨amended, _, ⟨hamended, rfl⟩, h⟩ := h
    refine .inr ⟨record, hfind, ?_⟩
    cases amended with
    | none =>
      obtain ⟨rfl, rfl⟩ := pure_eq_ok.1 h
      exact .inl ⟨hamended, rfl, rfl⟩
    | some new =>
      simp only [bind_eq_ok, modify_eq_ok, pure_eq_ok] at h
      obtain ⟨_, _, rfl, rfl, rfl⟩ := h
      exact .inr ⟨new, hamended, rfl, by rw [hset]⟩

theorem setList_ok {update : Update} {n : Option Nat} (h : setList table filter update s = .ok n s') :
    ∃ cs, Query.compile filter = .ok cs ∧
      ((s.records table).any (Query.allHold cs) = false ∧ n = none ∧ s' = s ∨
        (s.records table).any (Query.allHold cs) = true ∧
          (∀ record ∈ s.records table, Query.allHold cs record = true →
            ∃ amended, amended? update record = .ok amended) ∧
          n = some ((s.records table).countP fun record => Query.allHold cs record && update.changes record) ∧
          s' = s.setRecords table
            ((s.records table).map fun record => if Query.allHold cs record then update.onto record else record)) := by
  simp only [setList, guarded_eq_ok, bind_eq_ok, matching_eq_ok] at h
  obtain ⟨_, _, ⟨cs, hcs, rfl, rfl⟩, h⟩ := h
  refine ⟨cs, hcs, ?_⟩
  have hmatching := map_fst_found (Query.allHold cs) (s.records table) 0
  split at h
  case isTrue hempty =>
    obtain ⟨rfl, rfl⟩ := pure_eq_ok.1 h
    rw [List.isEmpty_iff.1 hempty, List.map_nil, eq_comm, List.filter_eq_nil_iff] at hmatching
    exact .inl ⟨List.any_eq_false.2 hmatching, rfl, rfl⟩
  case isFalse hempty =>
    simp only [bind_eq_ok, ofExcept_eq_ok, modify_eq_ok, pure_eq_ok] at h
    obtain ⟨changed, _, ⟨hamend, rfl⟩, _, _, rfl, rfl, rfl⟩ := h
    obtain ⟨hall, hlength, hput⟩ := putAll_amendAll hamend
    have hany : (s.records table).any (Query.allHold cs) = true := by
      by_contra hnone
      rw [Bool.not_eq_true, List.any_eq_false, ← List.filter_eq_nil_iff, ← hmatching, List.map_eq_nil_iff] at hnone
      exact hempty (List.isEmpty_iff.2 hnone)
    exact .inr ⟨hany, hall, congrArg some hlength, by rw [hput]⟩

/-! ## Changes of the records of a table -/

/-- Each record stays, or becomes one with an equal id. -/
abbrev Amends : List Value → List Value → Prop :=
  List.Forall₂ fun before after => after = before ∨ sameId before after = true

theorem Amends.refl (rows : List Value) : Amends rows rows := List.forall₂_same.2 fun _ _ => .inl rfl

theorem amends_updateFirst {p : Value → Bool} {new : Value} {rows : List Value}
    (h : ∀ record, rows.find? p = some record → sameId record new = true) : Amends rows (updateFirst p new rows) := by
  induction rows with
  | nil => exact .nil
  | cons row rows ih =>
    rw [updateFirst]
    cases hp : p row with
    | true =>
      rw [if_pos rfl]
      exact .cons (.inr (h row (by simp [hp]))) (Amends.refl rows)
    | false =>
      rw [if_neg (by simp)]
      exact .cons (.inl rfl) (ih fun record hr => h record (by simp [hp, hr]))

theorem amends_onto {p : Value → Bool} {update : Update} {rows : List Value}
    (h : ∀ record ∈ rows, p record = true → ∃ amended, amended? update record = .ok amended) :
    Amends rows (rows.map fun record => if p record then update.onto record else record) := by
  refine List.forall₂_map_right_iff.2 (List.forall₂_same.2 fun record hmem => ?_)
  cases hp : p record with
  | false => exact .inl rfl
  | true =>
    obtain ⟨amended, hamended⟩ := h record hmem hp
    exact (amended?_eq_ok hamended).2.2

/-- The records that an operation asks to create. -/
def Operation.newRecords : Operation → List Value
  | .create _ record => [record]
  | .createList _ records => records
  | _ => []

/-- Whether an operation changes records where they stand. -/
def Operation.rewrites : Operation → Bool
  | .replace _ _ _ _ | .setOne _ _ _ _ | .setList _ _ _ => true
  | _ => false

/-- What an operation may make of the records of its table. -/
inductive Change (s : Store) (op : Operation) : List Value → Prop
  | removed {rows : List Value} : rows.Sublist (s.records op.table) → Change s op rows
  | appended {ids added : List Value} {t : Store} :
      prepareAll op.table (s.records op.table) op.newRecords s = .ok (ids, added) t →
        Change s op (s.records op.table ++ added)
  | amended {rows : List Value} : Amends (s.records op.table) rows → Change s op rows

theorem map_eq_ok {α β : Type} {x : Action α} {f : α → β} {b : β} :
    (do return f (← x)) s = .ok b s' ↔ ∃ a, x s = .ok a s' ∧ f a = b := by
  simp only [bind_eq_ok, pure_eq_ok]
  constructor
  · rintro ⟨a, t, hx, hf, rfl⟩
    exact ⟨a, hx, hf⟩
  · rintro ⟨a, hx, hf⟩
    exact ⟨a, s', hx, hf, rfl⟩

/-- The records of the operation's table have become what an operation may make of them, and no others have changed. -/
def Changes (s : Store) (op : Operation) (s' : Store) : Prop :=
  ∃ rows, (∀ u, s'.records u = if u = op.table then rows else s.records u) ∧ Change s op rows

theorem records_of_tables_eq (h : s'.tables = s.tables) (table u : String) :
    s'.records u = if u = table then s.records table else s.records u := by
  rw [records_congr h]
  split
  case isTrue hu => rw [hu]
  case isFalse => rfl

theorem changes_of_tables_eq {op : Operation} (h : s'.tables = s.tables) : Changes s op s' :=
  ⟨s.records op.table, records_of_tables_eq h op.table, .removed (List.Sublist.refl _)⟩

theorem changes_of_setRecords {op : Operation} {rows : List Value} {t : Store} (h : t.tables = s.tables)
    (hc : Change s op rows) : Changes s op (t.setRecords op.table rows) := by
  refine ⟨rows, fun u => ?_, hc⟩
  rw [records_setRecords, records_congr h]

/-- Replacing and updating amend the records of their table, and leave all others. -/
theorem run_ok_amends {op : Operation} {a : Answer} (hop : op.rewrites = true) (h : op.run s = .ok a s') :
    ∃ rows, (∀ u, s'.records u = if u = op.table then rows else s.records u) ∧ Amends (s.records op.table) rows := by
  have unchanged : s' = s → ∃ rows, (∀ u, s'.records u = if u = op.table then rows else s.records u) ∧
      Amends (s.records op.table) rows := by
    rintro rfl
    exact ⟨_, records_of_tables_eq rfl op.table, .refl _⟩
  cases op with
  | replace table id record failOnEmpty =>
    obtain ⟨_, h, -⟩ := map_eq_ok.1 h
    obtain ⟨ms, rfl, -, ⟨-, -, hs⟩ | ⟨_, -, -, rfl⟩⟩ := replace_ok h
    · exact unchanged hs
    · refine ⟨_, fun u => records_setRecords s table u _, amends_updateFirst fun row hrow => ?_⟩
      rw [sameId_eq_hasId (recordId?_insert id ms)]
      exact List.find?_some hrow
  | setOne table filter update failOnEmpty =>
    obtain ⟨_, h, -⟩ := map_eq_ok.1 h
    obtain ⟨cs, -, ⟨-, -, hs⟩ | ⟨record, hfound, ⟨-, -, hs⟩ | ⟨new, hnew, -, rfl⟩⟩⟩ := setOne_ok h
    · exact unchanged hs
    · exact unchanged hs
    · refine ⟨_, fun u => records_setRecords s table u _, amends_updateFirst fun row hrow => ?_⟩
      obtain rfl : record = row := Option.some.inj (hfound.symm.trans hrow)
      exact (amended?_eq_some hnew).2
  | setList table filter update =>
    obtain ⟨_, h, -⟩ := map_eq_ok.1 h
    obtain ⟨cs, -, ⟨-, -, hs⟩ | ⟨-, hall, -, rfl⟩⟩ := setList_ok h
    · exact unchanged hs
    · exact ⟨_, fun u => records_setRecords s table u _, amends_onto hall⟩
  | _ => cases hop

/-- An operation that succeeds changes the records of its table, and no others. -/
theorem run_ok_changes {op : Operation} {a : Answer} (h : op.run s = .ok a s') : Changes s op s' := by
  cases op with
  | getList table filter =>
    obtain ⟨_, h, -⟩ := map_eq_ok.1 h
    exact changes_of_tables_eq ((keeps_getList table filter).ok _ _ _ h)
  | count table filter =>
    obtain ⟨_, h, -⟩ := map_eq_ok.1 h
    exact changes_of_tables_eq ((keeps_count table filter).ok _ _ _ h)
  | getOne table filter failOnEmpty failOnMore =>
    obtain ⟨_, h, -⟩ := map_eq_ok.1 h
    exact changes_of_tables_eq ((keeps_getOne table filter failOnEmpty failOnMore).ok _ _ _ h)
  | delList table filter =>
    obtain ⟨_, h, -⟩ := map_eq_ok.1 h
    obtain ⟨cs, -, -, rfl⟩ := delList_ok h
    exact changes_of_setRecords rfl (.removed List.filter_sublist)
  | delOne table filter failOnEmpty failOnMore =>
    obtain ⟨_, h, -⟩ := map_eq_ok.1 h
    obtain ⟨cs, -, ⟨-, -, rfl⟩ | ⟨_, -, -, rfl⟩⟩ := delOne_ok h
    · exact changes_of_tables_eq rfl
    · exact changes_of_setRecords rfl (.removed List.eraseP_sublist)
  | create table record =>
    obtain ⟨id, h, -⟩ := map_eq_ok.1 h
    obtain ⟨new, t, hp, rfl⟩ := create_ok h
    have hall : prepareAll table (s.records table) [record] s = .ok ([id], [new]) t := by
      simp only [prepareAll, bind_eq_ok, pure_eq_ok]
      exact ⟨_, t, hp, _, t, ⟨rfl, rfl⟩, rfl, rfl⟩
    exact changes_of_setRecords (tables_of_prepare_ok hp) (.appended hall)
  | createList table records =>
    obtain ⟨_, h, -⟩ := map_eq_ok.1 h
    obtain ⟨added, t, hp, rfl⟩ := createList_ok h
    exact changes_of_setRecords (tables_of_prepareAll_ok hp) (.appended hp)
  | replace _ _ _ _ | setOne _ _ _ _ | setList _ _ _ =>
    obtain ⟨rows, hrows, hamends⟩ := run_ok_amends rfl h
    exact ⟨rows, hrows, .amended hamends⟩

/-- An operation changes the records of its table, if it succeeds, and no others. -/
theorem after_changes (s : Store) (op : Operation) : Changes s op (s.after op) := by
  unfold after
  cases h : op.run s with
  | ok a s' => exact run_ok_changes h
  | error e s' => exact changes_of_tables_eq ((failsClean_run op).tables s e s' h)

end RecordStore.Store
