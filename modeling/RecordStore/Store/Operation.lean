import RecordStore.Store.Write

/-!
# Operations as data

All operations on a store with their arguments, what they answer, and histories of them. A history goes on after an
operation that fails, with the store as that operation left it.
-/

namespace RecordStore.Store

/-- An operation with its arguments. -/
inductive Operation where
  | getList (table : String) (filter : Query.Filter)
  | count (table : String) (filter : Query.Filter)
  | getOne (table : String) (filter : Query.Filter) (failOnEmpty failOnMore : Bool)
  | delList (table : String) (filter : Query.Filter)
  | delOne (table : String) (filter : Query.Filter) (failOnEmpty failOnMore : Bool)
  | create (table : String) (record : Value)
  | createList (table : String) (records : List Value)
  | replace (table : String) (id record : Value) (failOnEmpty : Bool)
  | setOne (table : String) (filter : Query.Filter) (update : Update) (failOnEmpty : Bool)
  | setList (table : String) (filter : Query.Filter) (update : Update)
deriving Repr

/-- What an operation answers. -/
inductive Answer where
  | records (records : List Value)
  | record (record : Option Value)
  | count (n : Nat)
  | id (id : Value)
  | ids (ids : List Value)
  | deleted (n : Option Nat)
  | updated (n : Option Nat)
deriving Repr

namespace Operation

/-- The table that an operation is about. -/
def table : Operation → String
  | getList table _ | count table _ | getOne table _ _ _ | delList table _ | delOne table _ _ _ | create table _
  | createList table _ | replace table _ _ _ | setOne table _ _ _ | setList table _ _ => table

/-- Whether an operation only reads. -/
def isReading : Operation → Bool
  | getList _ _ | count _ _ | getOne _ _ _ _ => true
  | _ => false

/-- Carries out an operation. -/
def run : Operation → Action Answer
  | getList table filter => return .records (← Store.getList table filter)
  | count table filter => return .count (← Store.count table filter)
  | getOne table filter failOnEmpty failOnMore => return .record (← Store.getOne table filter failOnEmpty failOnMore)
  | delList table filter => return .deleted (some (← Store.delList table filter))
  | delOne table filter failOnEmpty failOnMore => return .deleted (← Store.delOne table filter failOnEmpty failOnMore)
  | create table record => return .id (← Store.create table record)
  | createList table records => return .ids (← Store.createList table records)
  | replace table id record failOnEmpty => return .updated (← Store.replace table id record failOnEmpty)
  | setOne table filter update failOnEmpty => return .updated (← Store.setOne table filter update failOnEmpty)
  | setList table filter update => return .updated (← Store.setList table filter update)

end Operation

/-- The store after an operation, whether it succeeds or fails. -/
def after (s : Store) (op : Operation) : Store :=
  match op.run s with
  | .ok _ s => s
  | .error _ s => s

/-- The store after a history of operations. -/
def afterAll (s : Store) (history : List Operation) : Store := history.foldl after s

end RecordStore.Store
