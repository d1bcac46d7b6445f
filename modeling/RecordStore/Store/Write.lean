import RecordStore.Store.Read

/-!
# Changing records

Creating, replacing, updating and deleting. Every operation works out the new records of its table before it stores
them, so an error leaves all tables as they were. A new record must not have the id of another, and a changed one must
keep an equal id.
-/

namespace RecordStore.Store

/-! ## Deleting -/

/-- The records without those at the positions, in ascending order. They are erased from the last one on, so that
erasing one does not move those still to come. -/
def eraseAll (positions : List Nat) (rows : List Value) : List Value :=
  positions.foldr (fun i rows => rows.eraseIdx i) rows

/-- Deletes the records that match, and says how many there were. -/
def delList (table : String) (filter : Query.Filter) : Action Nat := guarded do
  let found ← matching table filter
  modify fun s => s.setRecords table (eraseAll (found.map Prod.snd) (s.records table))
  return found.length

/-- Deletes the first record that matches. -/
def delOne (table : String) (filter : Query.Filter) (failOnEmpty failOnMore : Bool) : Action (Option Nat) := guarded do
  let found ← matching table filter
  match ← single filter failOnEmpty failOnMore found with
  | none => return none
  | some (_, i) =>
    modify fun s => s.setRecords table ((s.records table).eraseIdx i)
    return some 1

/-! ## Creating -/

/-- The next id of the supply. -/
def freshId : Action Value := do
  let s ← get
  set { s with drawn := s.drawn + 1 }
  return .str s.nextId

/-- The id of a record to be created beside the given ones, and the record with it. A record without an id, or with
null or the empty string for one, gets a fresh id. -/
def prepare (table : String) (others : List Value) (record : Value) : Action (Value × Value) :=
  if !record.isMap then throw (.notAMap table record)
  else
    match (recordId? record).getD .null with
    | .null | .str "" => do
      let id ← freshId
      let record ← accessed (record.put? idKey id)
      return (id, record)
    | id =>
      if !id.isScalar then throw (.idNotScalar id)
      else if others.any (hasId id) then throw (.duplicateId table id)
      else return (id, record)

/-- A map has room for its id. -/
theorem prepare_map (table : String) (others : List Value) (ms : Members) : prepare table others (.map ms) =
    match (Entries.find? idKey ms).getD .null with
    | .null | .str "" => do
      let id ← freshId
      return (id, .map (Entries.insert idKey id ms))
    | id =>
      if !id.isScalar then throw (.idNotScalar id)
      else if others.any (hasId id) then throw (.duplicateId table id)
      else return (id, .map ms) := rfl

/-- The ids of records to be created one after another, and the records with them. -/
def prepareAll (table : String) (others : List Value) : List Value → Action (List Value × List Value)
  | [] => return ([], [])
  | record :: records => do
    let (id, record) ← prepare table others record
    let (ids, records) ← prepareAll table (others ++ [record]) records
    return (id :: ids, record :: records)

/-- Creates a record and returns its id. -/
def create (table : String) (record : Value) : Action Value := guarded do
  let rows := (← get).records table
  let (id, record) ← prepare table rows record
  modify fun s => s.setRecords table (rows ++ [record])
  return id

/-- Creates all records, or none if one cannot be, and returns their ids. -/
def createList (table : String) (records : List Value) : Action (List Value) := guarded do
  let rows := (← get).records table
  let (ids, records) ← prepareAll table rows records
  modify fun s => s.setRecords table (rows ++ records)
  return ids

/-! ## Replacing and updating -/

/-- Replaces the whole record that has the id. -/
def replace (table : String) (id record : Value) (failOnEmpty : Bool) : Action (Option Nat) := guarded do
  if !record.isMap then throw (.replacementNotAMap table)
  else if (recordId? record).any fun new => !(new == id) then throw .idChanged
  else
    let record ← accessed (record.put? idKey id)
    let rows := (← get).records table
    match rows.zipIdx.find? (hasId id ·.1) with
    | some (_, i) =>
      modify fun s => s.setRecords table (rows.set i record)
      return some 1
    | none => if failOnEmpty then throw (.noRecord id) else return none

theorem replace_map (table : String) (id : Value) (ms : Members) (failOnEmpty : Bool) :
    replace table id (.map ms) failOnEmpty = guarded (
      if (Entries.find? idKey ms).any fun new => !(new == id) then throw .idChanged
      else do
        let rows := (← get).records table
        match rows.zipIdx.find? (hasId id ·.1) with
        | some (_, i) =>
          modify fun s => s.setRecords table (rows.set i (.map (Entries.insert idKey id ms)))
          return some 1
        | none => if failOnEmpty then throw (.noRecord id) else return none) := rfl

/-- The record after an update, if that changes it; the id has to stay. -/
def amended? (update : Update) (record : Value) : Except Error (Option Value) :=
  match update.apply record with
  | .error e _ => .error (.update e)
  | .ok false _ => .ok none
  | .ok true new => if sameId record new then .ok (some new) else .error .idChanged

/-- Updates the first record that matches, and says how many records changed. -/
def setOne (table : String) (filter : Query.Filter) (update : Update) (failOnEmpty : Bool) :
    Action (Option Nat) := guarded do
  let found ← matching table filter
  match ← single filter failOnEmpty false found with
  | none => return none
  | some (record, i) =>
    match ← MonadExcept.ofExcept (amended? update record) with
    | none => return some 0
    | some new =>
      modify fun s => s.setRecords table ((s.records table).set i new)
      return some 1

/-- Of records with their positions those that an update changes, as they are then. -/
def amendAll (update : Update) : List (Value × Nat) → Except Error (List (Value × Nat))
  | [] => .ok []
  | (record, i) :: found => do
    match ← amended? update record with
    | some new => return (new, i) :: (← amendAll update found)
    | none => amendAll update found

/-- The records with new ones at their positions. -/
def putAll (changed : List (Value × Nat)) (rows : List Value) : List Value :=
  changed.foldl (fun rows new => rows.set new.2 new.1) rows

/-- Updates all records that match, and says how many changed; `none` where none matches. -/
def setList (table : String) (filter : Query.Filter) (update : Update) : Action (Option Nat) := guarded do
  let found ← matching table filter
  if found.isEmpty then return none
  else
    let changed ← MonadExcept.ofExcept (amendAll update found)
    modify fun s => s.setRecords table (putAll changed (s.records table))
    return some changed.length

end RecordStore.Store
