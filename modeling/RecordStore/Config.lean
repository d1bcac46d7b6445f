import RecordStore.Error
import RecordStore.Json.Printer
import RecordStore.Json.Reader
import RecordStore.LogLevel

/-!
# Configurations

The settings of a store, read from a JSON object and written back. A field that is missing or null keeps its default;
what equals the default is not written, except the name of the logger. The master key is read from `commonkey`, or else
from `masterpassword`, and written as `commonkey`.
-/

namespace RecordStore

/-- The settings of a store. -/
structure Config where
  name : String := ""
  loggerName : String := "db"
  loglevel : Option LevelName := none
  masterKey : Option String := none
  uri : String := ""
  host : String := ""
  port : UInt16 := 0
  user : String := ""
  password : String := ""
deriving DecidableEq, Repr

namespace Config

/-- Why a configuration is not accepted. -/
inductive Error where
  | invalidText (text : String)
  | notAnObject
  | wrongType (field expected found : String)
  | badLogLevel (text : String)
deriving DecidableEq, Repr

def Error.message : Error → String
  | invalidText text => "invalid config text: '" ++ text ++ "'"
  | notAnObject => "Invalid config: a JSON object is expected"
  | wrongType field expected found =>
    "Invalid config field '" ++ field ++ "': [json.exception.type_error.302] type must be " ++ expected
      ++ ", but is " ++ found
  | badLogLevel text => "Invalid loglevel '" ++ text ++ "'"

def Error.kind (_ : Error) : ErrorKind := .badRequest

/-! ## Reading -/

/-- Reads a field with the reader of its type; a missing or null one has the default. -/
def field {α : Type} (fields : List (String × Json)) (name : String) (default : α) (expected : String)
    (read : Json → Option α) : Except Error α :=
  match Entries.find? name fields with
  | none => .ok default
  | some .null => .ok default
  | some j =>
    match read j with
    | some a => .ok a
    | none => .error (.wrongType name expected j.typeName)

def textField (fields : List (String × Json)) (name default : String) : Except Error String :=
  field fields name default "string" fun
    | .str s => some s
    | _ => none

/-- The integer that a real is cut to: the one toward zero where 32 bits hold it, else the least of those. -/
def truncated (x : Binary64) : Int :=
  let n := x.truncate
  if -2147483648 ≤ n ∧ n ≤ 2147483647 then n else -2147483648

/-- A port from a boolean, an integer or a real, taken modulo `2 ^ 16`. -/
def port? : Json → Option UInt16
  | .bool b => some (if b then 1 else 0)
  | .int n => some (.ofInt n)
  | .real x => some (.ofInt (truncated x))
  | _ => none

/-- The level of a name; the empty name asks for none. -/
def level? (text : String) : Except Error (Option LevelName) :=
  if text = "" then .ok none
  else
    match LevelName.ofText? text with
    | some n => .ok (some n)
    | none => .error (.badLogLevel text)

/-- The first key that is not empty. -/
def firstKey (commonkey masterpassword : String) : Option String :=
  if commonkey ≠ "" then some commonkey
  else if masterpassword ≠ "" then some masterpassword
  else none

/-- Reads a configuration; the first bad field is reported. -/
def ofJson : Json → Except Error Config
  | .obj fields => do
    let name ← textField fields "name" ""
    let loggerName ← textField fields "logger_name" "db"
    let uri ← textField fields "uri" ""
    let host ← textField fields "host" ""
    let port ← field fields "port" 0 "number" port?
    let user ← textField fields "user" ""
    let password ← textField fields "password" ""
    let loglevel ← level? (← textField fields "loglevel" "")
    let commonkey ← textField fields "commonkey" ""
    let masterpassword ← textField fields "masterpassword" ""
    return { name, loggerName, loglevel, masterKey := firstKey commonkey masterpassword, uri, host, port, user,
             password }
  | _ => .error .notAnObject

/-- Reads a configuration from JSON text. -/
def load (text : String) : Except Error Config :=
  match Json.parse? text with
  | some j => ofJson j
  | none => .error (.invalidText text)

/-! ## Writing -/

/-- A field that is written unless it is empty. -/
def writtenText (name text : String) : List (String × Json) := if text = "" then [] else [(name, .str text)]

/-- The configuration as JSON, in key order. -/
def toJson (c : Config) : Json :=
  .obj (
    (c.masterKey.toList.map fun key => ("commonkey", .str key))
    ++ writtenText "host" c.host
    ++ [("logger_name", .str c.loggerName)]
    ++ (c.loglevel.toList.map fun n => ("loglevel", .str n.text))
    ++ writtenText "name" c.name
    ++ writtenText "password" c.password
    ++ (if c.port = 0 then [] else [("port", .int c.port.toNat)])
    ++ writtenText "uri" c.uri
    ++ writtenText "user" c.user)

end Config

end RecordStore
