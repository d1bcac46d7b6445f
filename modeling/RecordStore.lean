import RecordStore.Comparison
import RecordStore.Config
import RecordStore.Entries
import RecordStore.Error
import RecordStore.Json.Basic
import RecordStore.Json.Document
import RecordStore.Json.Printer
import RecordStore.Json.Reader
import RecordStore.LogLevel
import RecordStore.Number.Binary64
import RecordStore.Number.Decimal
import RecordStore.Number.Shortest
import RecordStore.Patch.ArrayEdit
import RecordStore.Patch.Directive
import RecordStore.Patch.Error
import RecordStore.Patch.Merge
import RecordStore.Path
import RecordStore.Query.Compile
import RecordStore.Query.Condition
import RecordStore.Query.Match
import RecordStore.Query.Operator
import RecordStore.Selector.Error
import RecordStore.Selector.Integer
import RecordStore.Selector.Loader
import RecordStore.Selector.Node
import RecordStore.Selector.Real
import RecordStore.Selector.Scalar
import RecordStore.Session
import RecordStore.Store.Basic
import RecordStore.Store.Operation
import RecordStore.Store.Read
import RecordStore.Store.Result
import RecordStore.Store.Write
import RecordStore.Text.Numeral
import RecordStore.Text.Pieces
import RecordStore.Update.Basic
import RecordStore.Update.Populate
import RecordStore.Uuid
import RecordStore.Value.Basic
import RecordStore.Value.Order
import RecordStore.Proofs.Entries
import RecordStore.Proofs.Text.Decimal
import RecordStore.Proofs.Text.Numeral
import RecordStore.Proofs.Patch.ArrayEdit
import RecordStore.Proofs.Patch.AtOnce
import RecordStore.Proofs.Patch.Clean
import RecordStore.Proofs.Patch.FromTheEnd
import RecordStore.Proofs.Patch.Insertions
import RecordStore.Proofs.Patch.MergePatch
import RecordStore.Proofs.Patch.Merging
import RecordStore.Proofs.Patch.Stable
import RecordStore.Proofs.Path.IntegerKeys
import RecordStore.Proofs.Path.Naming
import RecordStore.Proofs.Path.Segments
import RecordStore.Proofs.Query.Compile
import RecordStore.Proofs.Query.InTheWay
import RecordStore.Proofs.Query.MoreKeys
import RecordStore.Proofs.Query.Negation
import RecordStore.Proofs.Query.Placement
import RecordStore.Proofs.Query.Range
import RecordStore.Proofs.Query.Reach
import RecordStore.Proofs.Query.Uncorrelated
import RecordStore.Proofs.Selector.Integer
import RecordStore.Proofs.Selector.Notation
import RecordStore.Proofs.Selector.Plain
import RecordStore.Proofs.Selector.Words
import RecordStore.Proofs.Sequence
import RecordStore.Proofs.Store.Action
import RecordStore.Proofs.Store.Batch
import RecordStore.Proofs.Store.DistinctIds
import RecordStore.Proofs.Store.Effect
import RecordStore.Proofs.Store.Failure
import RecordStore.Proofs.Store.Identified
import RecordStore.Proofs.Store.KeptIds
import RecordStore.Proofs.Store.Positions
import RecordStore.Proofs.Store.Specification
import RecordStore.Proofs.Update.NestedPatch
import RecordStore.Proofs.Update.ReadBack
import RecordStore.Proofs.Update.Children
import RecordStore.Proofs.Update.OnePlace
import RecordStore.Proofs.Update.AnyOrder
import RecordStore.Proofs.Update.Lists
import RecordStore.Proofs.Number.Rounding
import RecordStore.Proofs.Value.Comparison
import RecordStore.Proofs.Value.Equality
import RecordStore.Proofs.Value.Members
import RecordStore.Proofs.Value.Transitivity
import RecordStore.Proofs.Store.Acceptance
import RecordStore.Proofs.Store.Created
import RecordStore.Proofs.Store.Kinds
import RecordStore.Proofs.Store.Updatable
import RecordStore.Proofs.Json.RoundTrip
import RecordStore.Proofs.Json.TextKeys
import RecordStore.Proofs.Config
import RecordStore.Proofs.Update.Padding
import RecordStore.Proofs.Value.Places
import RecordStore.Proofs.Selector.Loading
import RecordStore.Proofs.Selector.Nesting
import RecordStore.Proofs.Number.Range
import RecordStore.Proofs.Selector.RealNotation
import RecordStore.Proofs.Selector.Refusal
import RecordStore.Proofs.Patch.Bracketed
import RecordStore.Proofs.Uuid
import RecordStore.Json.Writer
import RecordStore.Proofs.Json.Quoted
import RecordStore.Proofs.Json.Tokens
import RecordStore.Proofs.Patch.Faults
import RecordStore.Proofs.Patch.Kept
import RecordStore.Proofs.Store.Faults
import RecordStore.Proofs.Update.Faults
import RecordStore.Proofs.Update.Untouched
import RecordStore.Proofs.Value.Parts
