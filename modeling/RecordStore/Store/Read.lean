import RecordStore.Store.Basic

/-!
# Reading records

All matching records, their number, or a single one. A filter that is not understood is an error, whether or not the
table has records. Every operation is guarded, those that change records too.
-/

namespace RecordStore.Store

/-- The records that match, in their order, each with its position in the table. -/
def matching (table : String) (filter : Query.Filter) : Action (List (Value × Nat)) := do
  let p ← predicate filter
  return ((← get).records table).zipIdx.filter (p ·.1)

/-- The records that match, in their order. -/
def getList (table : String) (filter : Query.Filter) : Action (List Value) :=
  guarded do return (← matching table filter).map Prod.fst

/-- The number of records that match. -/
def count (table : String) (filter : Query.Filter) : Action Nat :=
  guarded do return (← matching table filter).length

/-- The first of what a filter has found. Finding nothing, or more than one, is an error if the caller says so. -/
def single {α : Type} (filter : Query.Filter) (failOnEmpty failOnMore : Bool) : List α → Action (Option α)
  | [] => if failOnEmpty then throw (.noMatch filter) else return none
  | found :: more =>
    if failOnMore && !more.isEmpty then throw (.severalMatches filter) else return some found

/-- The first record that matches. -/
def getOne (table : String) (filter : Query.Filter) (failOnEmpty failOnMore : Bool) :
    Action (Option Value) := guarded do
  let found ← matching table filter
  return (← single filter failOnEmpty failOnMore found).map Prod.fst

end RecordStore.Store
