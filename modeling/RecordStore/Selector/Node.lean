import RecordStore.Selector.Scalar

/-!
# The node tree of a selector

A selector is written in a small part of YAML and read as a tree of nodes: null, scalars, sequences and maps. The tree
keeps the text of a scalar, for a key that is no integer is used as it was written.
-/

namespace RecordStore.Selector

/-- A node as it was written. -/
inductive Node where
  | null
  | scalar (tag : Tag) (text : String)
  | seq (items : List Node)
  | map (entries : List (Node × Node))
deriving Repr

namespace Node

/-- The key that a node stands for: null is the empty string, and only an integer loses its spelling. -/
def toKey : Node → Except Error Key
  | null => .ok (.str "")
  | scalar tag text => do
    match ← valueOfScalar tag text with
    | .int i => return .int i
    | _ => return .str text
  | _ => .error .collectionKey

mutual

/-- The value of a node that stands at the given depth. -/
def toValue (depth : Nat) : Node → Except Error Value
  | null => if maxDepth < depth then .error .tooDeep else .ok .null
  | scalar tag text => if maxDepth < depth then .error .tooDeep else valueOfScalar tag text
  | seq items => if maxDepth < depth then .error .tooDeep else (toItems (depth + 1) items).map .arr
  | map entries => if maxDepth < depth then .error .tooDeep else (toMembers (depth + 1) [] entries).map .map

def toItems (depth : Nat) : List Node → Except Error (List Value)
  | [] => .ok []
  | n :: ns => do
    let v ← n.toValue depth
    return v :: (← toItems depth ns)

/-- Adds the entries to members that are already there; of several with one key the last stays. -/
def toMembers (depth : Nat) (members : Members) : List (Node × Node) → Except Error Members
  | [] => .ok members
  | (k, n) :: entries => do
    let v ← n.toValue depth
    toMembers depth (Entries.insert (← k.toKey) v members) entries

end

end Node

end RecordStore.Selector
