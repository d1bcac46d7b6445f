import RecordStore.Error

/-!
# Patch errors

A patch that cannot be applied names the place: the keys from its root down, an index where it has got as far as the
element of an array. A fault has no place.
-/

namespace RecordStore.Patch

/-- Why a patch, or one directive of it, cannot be applied. -/
inductive Cause where
  | mixedKeys
  | notAnArray
  | nullInsertion
  | badIndex
  | badSelector (reason : String)
  | emptyDirective
  | severalInsertions (index : Nat)
  | severalEditions (index : Nat)
  | outOfRange
  | fault (f : Fault)
deriving DecidableEq, Repr

/-- The fault that a patch ran into, if it was one. -/
def Cause.fault? : Cause → Option Fault
  | fault f => some f
  | _ => none

/-- A cause and the place where it arose, outermost key first. -/
structure Error where
  place : List String
  cause : Cause
deriving DecidableEq, Repr

namespace Error

/-- The same error seen from one level further out. -/
def under (segment : String) (e : Error) : Error := { e with place := segment :: e.place }

def message (e : Error) : String :=
  let place := String.intercalate ":" e.place
  match e.cause with
  | .mixedKeys =>
    "Found array edition (keys starting with '$') and pure dictionary edition in the same dict at '" ++ place ++ "'"
  | .notAnArray =>
    "Array edition (keys starting with '$') over a value that is not an array at '" ++ place ++ "'"
  | .nullInsertion => "A null value makes no sense for insertions at '" ++ place ++ "'"
  | .badIndex => "Wrong format at '" ++ place ++ "'. Expecting integer index inside brackets"
  | .badSelector reason => "Wrong format at '" ++ place ++ "'. Expecting '$<yaml-format>': " ++ reason
  | .emptyDirective => "Wrong format at '" ++ place ++ "'. Expecting '$+', '$[<index>]' or '$<filter>'"
  | .severalInsertions index =>
    "Conflict at '" ++ place ++ "'. Several insertions on array index " ++ toString index
  | .severalEditions index =>
    "Conflict at '" ++ place ++ "'. Several editions on array index " ++ toString index
  | .outOfRange => "Array edition index out of range at '" ++ place ++ "'"
  | .fault f => f.message

def fault? (e : Error) : Option Fault := e.cause.fault?

def kind (e : Error) : ErrorKind :=
  match e.fault? with
  | some _ => .internal
  | none => .badRequest

end Error

end RecordStore.Patch
