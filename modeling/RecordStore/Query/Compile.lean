import RecordStore.Error
import RecordStore.Path
import RecordStore.Query.Condition

/-!
# Filters

A filter maps dotted keys to targets. A key is a path and perhaps an operator; the segment `ANYINDEX` inside a path
stands for one element of an array, and all keys that share the path before it speak of the same element. So a key is
placed in the condition group of each of its prefixes (`Condition.place`), and one group serves every key that needs
it.
-/

namespace RecordStore.Query

/-- Dotted keys with their targets, in key order. -/
abbrev Filter := List (String × Value)

/-- Why a filter, or the name of an operator, is not understood. -/
inductive Error where
  | unknownOperator (name : String)
  | emptyKey
  | emptySegment (key : String)
  | missingPath (key : String)
deriving DecidableEq, Repr

def Error.message : Error → String
  | unknownOperator name => "Invalid query string filter operator '" ++ name ++ "'"
  | emptyKey => "Invalid query string filter: empty key"
  | emptySegment key => "Invalid query string filter: empty segment in '" ++ key ++ "'"
  | missingPath key => "Invalid query string filter: missing path before operator in '" ++ key ++ "'"

def Error.kind (_ : Error) : ErrorKind := .badRequest

/-- The operator of a name. -/
def Operator.parse (name : String) : Except Error Operator :=
  match Operator.ofName? name with
  | some op => .ok op
  | none => .error (.unknownOperator name)

/-- What one entry of a filter asks for: the content at a path compared with a target. -/
structure Criterion where
  path : List String
  op : Operator
  target : Value
deriving Repr

/-- Reads a key: its last segment is the operator if it names one and a path is left before it. -/
def Criterion.ofEntry (key : String) (target : Value) : Except Error Criterion :=
  if key = "" then .error .emptyKey
  else
    match Path.segments? key with
    | none => .error (.emptySegment key)
    | some segments =>
      match segments.getLast?.bind Operator.ofName? with
      | none => .ok ⟨segments, .eq, target⟩
      | some op => if segments.dropLast = [] then .error (.missingPath key) else .ok ⟨segments.dropLast, op, target⟩

/-- The segment that stands for one element of an array. -/
def anyIndex : String := "ANYINDEX"

/-- Cuts a path at every `ANYINDEX` that has a segment before it, since the last cut, and one after it: the paths of
the groups, outermost first, and the path inside the innermost one. The segments since the last cut are `before`. -/
def groupsFrom (before : List String) : List String → List (List String) × List String
  | [] => ([], before)
  | s :: rest =>
    if s = anyIndex ∧ before ≠ [] ∧ rest ≠ [] then
      let (groups, path) := groupsFrom [] rest
      (before :: groups, path)
    else groupsFrom (before ++ [s]) rest

def groups (path : List String) : List (List String) × List String := groupsFrom [] path

/-- Changes the conditions of the first group at a path, or adds a group at the end. -/
def Condition.modifyGroup (path : List String) (f : List Condition → List Condition) :
    List Condition → List Condition
  | [] => [each path (f [])]
  | each path' conditions :: rest =>
    if path' = path then each path' (f conditions) :: rest
    else each path' conditions :: modifyGroup path f rest
  | c :: rest => c :: modifyGroup path f rest

/-- Adds a condition inside the nested groups of the given paths. -/
def Condition.place (c : Condition) : (groups : List (List String)) → List Condition → List Condition
  | [], conditions => conditions ++ [c]
  | path :: groups, conditions => modifyGroup path (c.place groups) conditions

/-- Adds what a criterion asks for. -/
def Criterion.addTo (conditions : List Condition) (c : Criterion) : List Condition :=
  let (outer, path) := groups c.path
  (Condition.compare path c.op c.target).place outer conditions

/-- The predicate of a filter; the first key that is not understood is reported. -/
def compile (filter : Filter) : Except Error (List Condition) := do
  let criteria ← filter.mapM fun (key, target) => Criterion.ofEntry key target
  return criteria.foldl Criterion.addTo []

end RecordStore.Query
