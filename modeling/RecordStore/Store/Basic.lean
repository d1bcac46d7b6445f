import RecordStore.Query.Compile
import RecordStore.Query.Match
import RecordStore.Update.Basic
import RecordStore.Uuid

/-!
# Stores

A store holds named tables, each a list of records in the order of their creation, the random words from which record
ids are made, and the writer of the JSON text in its messages. An operation is an `Action`: it returns a result or an
error, and the store as it is then. A fault inside an operation becomes an error of kind internal (`guarded`). A table
that was never written to is empty.
-/

namespace RecordStore

/-- Tables of records, a supply of random words of which the first `drawn` pairs have been used, and the writer of the
JSON text in messages. -/
structure Store where
  tables : List (String × List Value)
  words : Nat → UInt64 × UInt64
  drawn : Nat
  writer : Json.Writer

namespace Store

/-- A store without records. -/
def empty (words : Nat → UInt64 × UInt64) (writer : Json.Writer := .unrestricted) : Store := ⟨[], words, 0, writer⟩

/-- The records of a table. -/
def records (s : Store) (table : String) : List Value := (Entries.find? table s.tables).getD []

def setRecords (s : Store) (table : String) (rows : List Value) : Store :=
  { s with tables := Entries.insert table rows s.tables }

/-- The id that the next random words make. -/
def nextId (s : Store) : String := Uuid.ofWords (s.words s.drawn).1 (s.words s.drawn).2

theorem records_setRecords (s : Store) (t u : String) (rows : List Value) :
    (s.setRecords t rows).records u = if u = t then rows else s.records u := by
  simp only [records, setRecords, Entries.find?_insert]
  split <;> rfl

/-! ## Errors -/

/-- Why an operation fails. -/
inductive Error where
  | query (e : Query.Error)
  | update (e : Update.Error)
  | noMatch (filter : Query.Filter)
  | severalMatches (filter : Query.Filter)
  | notAMap (table : String) (record : Value)
  | replacementNotAMap (table : String)
  | idNotScalar (id : Value)
  | duplicateId (table : String) (id : Value)
  | idChanged
  | noRecord (id : Value)
  | fault (f : Fault)
deriving Repr

/-- A filter as a document. -/
def filterMap (filter : Query.Filter) : Value := .map (filter.map fun e => (.str e.1, e.2))

/-- A filter as JSON text. -/
def filterText (filter : Query.Filter) : String := (filterMap filter).compact

/-- An id as it is named in messages: a string without quotes. -/
def idText : Value → String
  | .str s => s
  | v => v.compact

/-- The texts that are quoted where an id is named. -/
def idQuoted : Value → List String
  | .str _ => []
  | v => v.toJson.texts

namespace Error

def kind : Error → ErrorKind
  | query e => e.kind
  | update e => e.kind
  | noMatch _ | noRecord _ => .notFound
  | severalMatches _ | duplicateId _ _ => .conflict
  | notAMap _ _ | replacementNotAMap _ | idNotScalar _ | idChanged => .badRequest
  | fault _ => .internal

def message : Error → String
  | query e => e.message
  | update e => e.message
  | noMatch filter => "Not found entry with filter='" ++ filterText filter ++ "'"
  | severalMatches filter => "Found more than one entry with filter='" ++ filterText filter ++ "'"
  | notAMap table record => "Cannot insert into '" ++ table ++ "': a record must be a map, got " ++ record.typeName
  | replacementNotAMap table => "Cannot replace at '" ++ table ++ "': a record must be a map"
  | idNotScalar id => "Invalid _id " ++ id.compact ++ ": it must be a scalar"
  | duplicateId table id => "Duplicate _id '" ++ idText id ++ "' at table '" ++ table ++ "'"
  | idChanged => "Cannot modify the _id of a record"
  | noRecord id => "Not found entry with _id='" ++ idText id ++ "'"
  | fault f => f.message

/-- The texts that the message of an error quotes as JSON. -/
def quoted : Error → List String
  | noMatch filter | severalMatches filter => (filterMap filter).toJson.texts
  | idNotScalar id => id.toJson.texts
  | duplicateId _ id | noRecord id => idQuoted id
  | _ => []

/-- What goes wrong in place of the error, where it is a fault or its message cannot be written. -/
def fault? (w : Json.Writer) : Error → Option Fault
  | fault f => some f
  | update e => e.fault? w
  | e => w.fault? e.quoted

/-- The error as the caller of an operation sees it. -/
def reported (w : Json.Writer) (e : Error) : Error :=
  match e.fault? w with
  | some f => fault f
  | none => e

end Error

/-- An operation on a store. -/
abbrev Action (α : Type) := EStateM Error Store α

/-- Carries out an operation, and reports a fault inside it as an internal failure. -/
def guarded {α : Type} (x : Action α) : Action α := fun s =>
  match x s with
  | .ok a t => .ok a t
  | .error e t => .error (e.reported s.writer) t

/-- Content that is asked of a value, which may be of another kind. -/
def accessed {α : Type} : Option α → Action α
  | some a => return a
  | none => throw (.fault .badAccess)

/-! ## Records and their ids -/

/-- The key under which a record keeps its id. -/
def idKey : Key := .str "_id"

/-- The id of a record. -/
def recordId? (record : Value) : Option Value := record.find? idKey

/-- The record has an id equal to the given one. -/
def hasId (id record : Value) : Bool := (recordId? record).any (· == id)

/-- Both records have ids, and these are equal. -/
def sameId (before after : Value) : Bool :=
  match recordId? before with
  | some id => hasId id after
  | none => false

/-- The test that a filter stands for. -/
def predicate (filter : Query.Filter) : Action (Value → Bool) :=
  match Query.compile filter with
  | .ok conditions => return Query.allHold conditions
  | .error e => throw (.query e)

end Store

end RecordStore
