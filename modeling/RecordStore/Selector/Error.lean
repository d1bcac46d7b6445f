import RecordStore.Error

/-!
# Selector errors
-/

namespace RecordStore.Selector

/-- Why a selector text has no value. -/
inductive Error where
  | malformed (text : String)
  | severalDocuments (text : String)
  | tooDeep
  | collectionKey
  | integerOutOfRange (text : String)
  | unreadableReal (digits : String)
deriving DecidableEq, Repr

/-- The deepest nesting of a selector; the outermost node has depth 0. -/
def maxDepth : Nat := 64

def Error.message : Error → String
  | malformed text => "yaml syntax error of '" ++ text ++ "'"
  | severalDocuments text => "expected a single document in '" ++ text ++ "'"
  | tooDeep => "nesting deeper than " ++ toString maxDepth
  | collectionKey => "collection keys are not supported"
  | integerOutOfRange text => "integer '" ++ text ++ "' is out of range"
  | unreadableReal digits => "invalid float '" ++ digits ++ "'"

def Error.kind (_ : Error) : ErrorKind := .badRequest

end RecordStore.Selector
