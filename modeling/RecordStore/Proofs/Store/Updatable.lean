import RecordStore.Proofs.Store.Kinds
import RecordStore.Proofs.Update.Untouched

/-!
# Updates that leave the id alone

An update with no path into the id leaves the id as it is, so the check that the id stayed the same can fail only where
the id does not equal itself. Creating a record accepts such an id, a real that is no number. From then on every update
of that record that would succeed is refused, even one that changes nothing; and there is no other record of which such
an update is refused (`amended?_eq_idChanged_iff`). So the records of a store stay updatable exactly when none has such
an id (`updatable_iff_no_nan_id`).
-/

namespace RecordStore

/-- The update can be made. -/
def Update.Succeeds (u : Update) (record : Value) : Prop := ∃ changed new, u.apply record = .ok changed new

namespace Store

variable {s : Store} {table : String} {filter : Query.Filter} {update : Update} {failOnEmpty : Bool} {record : Value}

/-- The update has no path into the id. -/
def LeavesId (update : Update) : Prop := ∀ dotted ∈ update.paths, Update.Avoids "_id" dotted

/-- The id of the record is a real that is no number. -/
def hasNaNId (record : Value) : Bool :=
  match recordId? record with
  | some (.real x) => x.isNaN
  | _ => false

theorem hasNaNId_eq_true_iff : hasNaNId record = true ↔ ∃ x, recordId? record = some (.real x) ∧ x.isNaN = true := by
  unfold hasNaNId
  split
  case h_1 x hid => simp [hid]
  case h_2 hno => simpa using fun x hid => (hno x hid).elim

/-- The update can be made, but the record has an id that does not equal itself. -/
def Refuses (update : Update) (record : Value) : Prop := hasNaNId record = true ∧ update.Succeeds record

/-- The update can be made, and the record has an id that equals itself. -/
def Accepts (update : Update) (record : Value) : Prop := hasNaNId record = false ∧ update.Succeeds record

/-- The first of the records refuses the update. -/
def FirstRefuses (update : Update) (found : List Value) : Prop := ∃ record ∈ found.head?, Refuses update record

/-- One of the records refuses the update, after others that accept it. -/
def OneRefuses (update : Update) (found : List Value) : Prop :=
  ∃ before record after, found = before ++ record :: after ∧ (∀ earlier ∈ before, Accepts update earlier) ∧
    Refuses update record

/-! ## One record -/

theorem recordId?_of_apply {changed : Bool} {new : Value} (hu : LeavesId update)
    (h : update.apply record = .ok changed new) : recordId? new = recordId? record :=
  Update.find?_of_apply hu h

/-- A scalar equals itself unless it is a real that is no number. -/
theorem beq_self_eq_false_iff {id : Value} (hid : recordId? record = some id) (hs : id.isScalar = true) :
    (id == id) = false ↔ hasNaNId record = true := by
  rw [hasNaNId_eq_true_iff]
  constructor
  · intro h
    by_contra hno
    have hnan : ∀ x, id = .real x → x.isNaN = false := by
      rintro x rfl
      exact Bool.eq_false_iff.2 fun hnan => hno ⟨x, hid, hnan⟩
    rw [Value.beq_self_of_isScalar hs hnan] at h
    cases h
  · rintro ⟨x, hx, hnan⟩
    cases hid.symm.trans hx
    have hself : ¬ x.equal x = true := fun h => by simp [Binary64.equal_eq_true_iff, hnan] at h
    exact Bool.eq_false_iff.2 hself

/-- A record whose id does not equal itself is unequal to every record with that id. -/
theorem beq_eq_false_of_id {new id : Value} (hrecord : recordId? record = some id) (hnew : recordId? new = some id)
    (hid : (id == id) = false) : (new == record) = false := by
  refine Bool.eq_false_iff.2 fun h => ?_
  obtain ⟨_, hold, hself⟩ := Value.exists_find?_of_beq h hnew
  cases hrecord.symm.trans hold
  rw [hself] at hid
  cases hid

theorem amended?_of_refuses (hu : LeavesId update) (hid : Identified record) (h : Refuses update record) :
    amended? update record = .error .idChanged := by
  obtain ⟨hnan, changed, new, happly⟩ := h
  obtain ⟨id, hrecord, hscalar, -⟩ := hid
  have hself : (id == id) = false := (beq_self_eq_false_iff hrecord hscalar).2 hnan
  have hnew : recordId? new = some id := (recordId?_of_apply hu happly).trans hrecord
  obtain rfl : changed = true := by
    obtain ⟨-, rfl⟩ := Update.apply_eq_ok.1 happly
    rw [beq_eq_false_of_id hrecord hnew hself]
    rfl
  have hsame : sameId record new = false := by
    rw [sameId_eq_hasId hnew, hasId, hrecord, Option.any_some, hself]
  rw [amended?, happly]
  exact if_neg (Bool.eq_false_iff.1 hsame)

theorem exists_amended_of_accepts (hu : LeavesId update) (hid : Identified record) (h : Accepts update record) :
    ∃ amended, amended? update record = .ok amended := by
  obtain ⟨hnan, changed, new, happly⟩ := h
  obtain ⟨id, hrecord, hscalar, -⟩ := hid
  have hself : (id == id) = true := by
    rw [← Bool.not_eq_false, beq_self_eq_false_iff hrecord hscalar, hnan]
    exact Bool.false_ne_true
  have hnew : recordId? new = some id := (recordId?_of_apply hu happly).trans hrecord
  have hsame : sameId record new = true := by
    rw [sameId_eq_hasId hnew, hasId, hrecord, Option.any_some, hself]
  rw [amended?, happly]
  cases changed with
  | false => exact ⟨none, rfl⟩
  | true => exact ⟨some new, if_pos hsame⟩

theorem amended?_of_not_succeeds (h : ¬ update.Succeeds record) : ∃ e, amended? update record = .error (.update e) := by
  cases happly : update.apply record with
  | ok changed new => exact absurd ⟨changed, new, happly⟩ h
  | error e new =>
    rw [amended?, happly]
    exact ⟨e, rfl⟩

/-- The id counts as changed exactly where it does not equal itself and the update can be made. -/
theorem amended?_eq_idChanged_iff (hu : LeavesId update) (hid : Identified record) :
    amended? update record = .error .idChanged ↔ Refuses update record := by
  refine ⟨fun h => ?_, amended?_of_refuses hu hid⟩
  by_cases hsucceeds : update.Succeeds record
  · refine ⟨by_contra fun hnan => ?_, hsucceeds⟩
    obtain ⟨amended, hok⟩ := exists_amended_of_accepts hu hid ⟨Bool.eq_false_iff.2 hnan, hsucceeds⟩
    cases hok.symm.trans h
  · obtain ⟨e, he⟩ := amended?_of_not_succeeds hsucceeds
    cases he.symm.trans h

theorem exists_amended_iff (hu : LeavesId update) (hid : Identified record) :
    (∃ amended, amended? update record = .ok amended) ↔ Accepts update record := by
  refine ⟨fun h => ?_, exists_amended_of_accepts hu hid⟩
  obtain ⟨amended, h⟩ := h
  obtain ⟨-, hsucceeds, -⟩ := amended?_eq_ok h
  refine ⟨Bool.eq_false_iff.2 fun hnan => ?_, hsucceeds⟩
  cases h.symm.trans (amended?_of_refuses hu hid ⟨hnan, hsucceeds⟩)

/-! ## The records of a table -/

/-- Amending records finds an id changed where one of them refuses the update, after others that accept it. -/
theorem amendAll_eq_idChanged_iff {found : List (Value × Nat)} (hu : LeavesId update)
    (hid : ∀ record ∈ found.map Prod.fst, Identified record) :
    amendAll update found = .error .idChanged ↔ OneRefuses update (found.map Prod.fst) := by
  have hrow (e : Value × Nat) (he : e ∈ found) := hid e.1 (List.mem_map_of_mem he)
  rw [amendAll_eq_error_iff]
  constructor
  · rintro ⟨before, first, after, rfl, hbefore, hfirst⟩
    refine ⟨before.map Prod.fst, first.1, after.map Prod.fst, by simp, List.forall_mem_map.2 fun e he => ?_, ?_⟩
    · exact (exists_amended_iff hu (hrow e (by simp [he]))).1 (hbefore e he)
    · exact (amended?_eq_idChanged_iff hu (hrow first (by simp))).1 hfirst
  · rintro ⟨_, _, _, hfound, hbefore, hfirst⟩
    obtain ⟨before, rest, rfl, rfl, hrest⟩ := List.map_eq_append_iff.1 hfound
    obtain ⟨first, after, rfl, rfl, rfl⟩ := List.map_eq_cons_iff.1 hrest
    refine ⟨before, first, after, rfl, fun e he => ?_, ?_⟩
    · exact (exists_amended_iff hu (hrow e (by simp [he]))).2 (List.forall_mem_map.1 hbefore e he)
    · exact (amended?_eq_idChanged_iff hu (hrow first (by simp))).2 hfirst

/-- Updating one record finds its id changed where the first record that matches refuses the update. -/
theorem setOne_idChanged_iff (hu : LeavesId update) (hid : s.AllIdentified) :
    Fails (setOne table filter update failOnEmpty) s (· = .idChanged) ↔
      Matched s table filter (FirstRefuses update) := by
  rw [setOne, fails_guarded_iff]
  simp only [Error.reported_eq_idChanged_iff]
  refine (matching_bind_fails_iff fun _ => Error.noConfusion).trans (exists_congr fun cs => and_congr_right fun _ => ?_)
  rw [← map_fst_found (Query.allHold cs) (s.records table) 0, FirstRefuses, List.head?_map]
  cases hfound : (s.records table).zipIdx.filter (Query.allHold cs ·.1) with
  | nil => cases failOnEmpty <;> simp [single, fails_bind, fails_throw, not_fails_pure, throw_ne_ok]
  | cons first more =>
    have hfirst : Identified first.1 := by
      have hmem : first ∈ (s.records table).zipIdx.filter (Query.allHold cs ·.1) := by simp [hfound]
      exact hid table first.1 (List.fst_mem_of_mem_zipIdx (List.mem_filter.1 hmem).1)
    have hsingle : single filter failOnEmpty false (first :: more) s = .ok (some first) s := rfl
    rw [fails_bind_of_ok hsingle]
    refine (fails_bind_iff_of_not fun amended t => ?_).trans ?_
    · cases amended with
      | none => exact not_fails_pure
      | some new => exact not_fails_modify_pure
    · simp [fails_ofExcept, amended?_eq_idChanged_iff hu hfirst]

/-- Updating all records finds an id changed where one that matches refuses the update, after others that accept it. -/
theorem setList_idChanged_iff (hu : LeavesId update) (hid : s.AllIdentified) :
    Fails (setList table filter update) s (· = .idChanged) ↔ Matched s table filter (OneRefuses update) := by
  rw [setList, fails_guarded_iff]
  simp only [Error.reported_eq_idChanged_iff]
  refine (matching_bind_fails_iff fun _ => Error.noConfusion).trans (exists_congr fun cs => and_congr_right fun _ => ?_)
  have hfst := map_fst_found (Query.allHold cs) (s.records table) 0
  have hfound : ∀ record ∈ ((s.records table).zipIdx.filter (Query.allHold cs ·.1)).map Prod.fst,
      Identified record := by
    rw [hfst]
    exact fun record hrecord => hid table record (List.mem_filter.1 hrecord).1
  rw [← hfst, ← amendAll_eq_idChanged_iff hu hfound]
  split
  case isTrue hempty =>
    rw [List.isEmpty_iff.1 hempty]
    refine iff_of_false not_fails_pure fun h => ?_
    cases h
  case isFalse =>
    refine (fails_bind_iff_of_not fun changed t => not_fails_modify_pure).trans ?_
    simp [fails_ofExcept]

/-! ## Reachable stores -/

/-- The update that does nothing. -/
def noUpdate : Update := ⟨[], [], [], [], [], []⟩

theorem leavesId_noUpdate : LeavesId noUpdate := by
  intro dotted hdotted
  simp [Update.paths, noUpdate] at hdotted

theorem leavesId_ofSet {dotted : String} (h : Update.Avoids "_id" dotted) (v : Value) :
    LeavesId (Update.ofSet [(dotted, v)]) := by
  intro other hother
  obtain rfl : other = dotted := by simpa [Update.paths, Update.ofSet] using hother
  exact h

theorem segments?_a : Path.segments? "a" = some ["a"] := by decide +kernel

/-- Among records of which one has an id that is no number, one refuses even the update that does nothing. -/
theorem oneRefuses_noUpdate {found : List Value} (h : ∃ record ∈ found, hasNaNId record = true) :
    OneRefuses noUpdate found := by
  have hsucceeds (record : Value) : noUpdate.Succeeds record := ⟨_, record, rfl⟩
  obtain ⟨first, hfirst⟩ := Option.isSome_iff_exists.1 (List.find?_isSome.2 h)
  obtain ⟨hnan, before, after, hfound, hbefore⟩ := List.find?_eq_some_iff_append.1 hfirst
  exact ⟨before, first, after, hfound, fun r hr => ⟨by simpa using hbefore r hr, hsucceeds r⟩, hnan, hsucceeds first⟩

/-- In every state that a history leads to, an update with no path into the id is refused as a change of it exactly
where a record that it comes to has an id that is no number; so no such update is ever so refused exactly when no
record has such an id. -/
theorem updatable_iff_no_nan_id (words : Nat → UInt64 × UInt64) (writer : Json.Writer) (history : List Operation) :
    let s := (empty words writer).afterAll history
    (∀ table filter update failOnEmpty, LeavesId update →
      (Fails (setOne table filter update failOnEmpty) s (· = .idChanged) ↔
        Matched s table filter (FirstRefuses update)) ∧
      (Fails (setList table filter update) s (· = .idChanged) ↔ Matched s table filter (OneRefuses update))) ∧
    ((∀ table filter update failOnEmpty, LeavesId update →
        ¬ Fails (setOne table filter update failOnEmpty) s (· = .idChanged) ∧
          ¬ Fails (setList table filter update) s (· = .idChanged)) ↔
      ∀ table, ∀ record ∈ s.records table, hasNaNId record = false) := by
  intro s
  have hid : s.AllIdentified := allIdentified_afterAll words writer history
  refine ⟨fun table filter update failOnEmpty hu => ⟨setOne_idChanged_iff hu hid, setList_idChanged_iff hu hid⟩, ?_⟩
  constructor
  · intro hno table record hrecord
    refine Bool.eq_false_iff.2 fun hnan => ?_
    obtain ⟨-, hno⟩ := hno table [] noUpdate true leavesId_noUpdate
    refine hno ((setList_idChanged_iff leavesId_noUpdate hid).2 ⟨[], rfl, oneRefuses_noUpdate ?_⟩)
    exact ⟨record, by simpa [Query.allHold] using hrecord, hnan⟩
  · intro hno table filter update failOnEmpty hu
    rw [setOne_idChanged_iff hu hid, setList_idChanged_iff hu hid]
    constructor
    · rintro ⟨cs, -, record, hrecord, hnan, -⟩
      have hmem := (List.mem_filter.1 (List.mem_of_mem_head? hrecord)).1
      rw [hno table record hmem] at hnan
      cases hnan
    · rintro ⟨cs, -, before, record, after, hfound, -, hnan, -⟩
      have hmem : record ∈ (s.records table).filter (Query.allHold cs) := by simp [hfound]
      rw [hno table record (List.mem_filter.1 hmem).1] at hnan
      cases hnan

/-- The second of two records has an id that is no number: an update of the first alone is not refused, one of both
is. -/
theorem updatable_iff_no_nan_id_second :
    let first : Value := .map [(idKey, .str "x")]
    let second : Value := .map [(idKey, .real ⟨0x7FF8000000000000⟩)]
    let s := (empty fun _ => (0, 0)).afterAll [.create "t" first, .create "t" second]
    let update := Update.ofSet [("a", .int 1)]
    LeavesId update ∧ ¬ Fails (setOne "t" [] update true) s (· = .idChanged) ∧
      Fails (setList "t" [] update) s (· = .idChanged) := by
  intro first second s update
  have hu : LeavesId update := leavesId_ofSet (Update.avoids_of_segments segments?_a (by decide)) _
  let history : List Operation := [.create "t" first, .create "t" second]
  obtain ⟨hone, hlist⟩ := (updatable_iff_no_nan_id (fun _ => (0, 0)) .unrestricted history).1 "t" [] update true hu
  have hfound : (s.records "t").filter (Query.allHold []) = [first, second] := rfl
  have haccepts : Accepts update first := ⟨rfl, true, _, rfl⟩
  have hrefuses : Refuses update second := ⟨rfl, true, _, rfl⟩
  refine ⟨hu, fun h => ?_, hlist.2 ⟨[], rfl, [first], second, [], hfound, by simpa using haccepts, hrefuses⟩⟩
  obtain ⟨cs, hcs, record, hrecord, hnan, -⟩ := hone.1 h
  obtain rfl : [] = cs := Except.ok.inj hcs
  obtain rfl : first = record := Option.some.inj ((congrArg List.head? hfound).symm.trans hrecord)
  cases hnan

/-- Setting another member of a record whose id is no number counts as a change of the id. -/
theorem not_updatable_of_nan_id : ¬ ∀ words history table filter update failOnEmpty, LeavesId update →
    ¬ Fails (setOne table filter update failOnEmpty) ((empty words).afterAll history) (· = .idChanged) ∧
      ¬ Fails (setList table filter update) ((empty words).afterAll history) (· = .idChanged) := by
  intro h
  let record : Value := .map [(idKey, .real ⟨0x7FF8000000000000⟩)]
  let update := Update.ofSet [("a", .int 1)]
  have hu : LeavesId update := leavesId_ofSet (Update.avoids_of_segments segments?_a (by decide)) _
  have hrefuses : Refuses update record := ⟨rfl, true, _, rfl⟩
  obtain ⟨hone, -⟩ := h (fun _ => (0, 0)) [.create "t" record] "t" [] update true hu
  exact hone ((setOne_idChanged_iff hu (allIdentified_afterAll _ _ _)).2 ⟨[], rfl, record, rfl, hrefuses⟩)

end Store

end RecordStore
