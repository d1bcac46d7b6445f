import RecordStore.Error
import RecordStore.Json.Reader

/-!
# Documents from JSON text
-/

namespace RecordStore

/-- A text that is no JSON. -/
structure Json.Invalid where
  text : String
deriving DecidableEq, Repr

def Json.Invalid.kind (_ : Json.Invalid) : ErrorKind := .badRequest

def Json.Invalid.message (e : Json.Invalid) : String := "invalid JSON text: '" ++ e.text ++ "'"

/-- The document that a JSON text spells. -/
def Value.parse (text : String) : Except Json.Invalid Value :=
  match Json.parse? text with
  | some j => .ok j.toValue
  | none => .error ⟨text⟩

end RecordStore
