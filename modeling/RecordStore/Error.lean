/-!
# Failures

Every failure has a kind, for which there is a status code, and a message. A fault is what goes wrong inside an
operation without being its answer: whoever runs the operation reports it as an internal failure.
-/

namespace RecordStore

/-- What kind of failure a request met. -/
inductive ErrorKind where
  | notFound
  | conflict
  | badRequest
  | internal
deriving DecidableEq, Repr

namespace ErrorKind

def name : ErrorKind → String
  | notFound => "not_found"
  | conflict => "conflict"
  | badRequest => "bad_request"
  | internal => "internal"

def ofName? : String → Option ErrorKind
  | "not_found" => some notFound
  | "conflict" => some conflict
  | "bad_request" => some badRequest
  | "internal" => some internal
  | _ => none

/-- The status code of a kind. -/
def httpStatus : ErrorKind → Nat
  | notFound => 404
  | conflict => 409
  | badRequest => 400
  | internal => 500

@[simp] theorem ofName?_name (k : ErrorKind) : ofName? k.name = some k := by
  cases k <;> rfl

end ErrorKind

/-- A failure as it is reported. -/
structure Failure where
  kind : ErrorKind
  message : String
deriving DecidableEq, Repr

/-- The one-line report of a failure: the mark of this store and the message, which a NUL character ends. -/
def Failure.what (f : Failure) : String :=
  "database exception " ++ String.ofList (f.message.toList.takeWhile (· ≠ '\x00'))

/-- What goes wrong inside an operation: content of one kind asked of a value of another, a position past the end of a
text, or a text that the writer of JSON refuses, with its reason. -/
inductive Fault where
  | badAccess
  | badPosition
  | unwritable (reason : String)
deriving DecidableEq, Repr

def Fault.message : Fault → String
  | badAccess => "bad variant access"
  | badPosition => "position out of range"
  | unwritable reason => reason

end RecordStore
