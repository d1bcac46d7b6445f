/-!
# Log levels

A configuration names the level below which nothing is logged; several names may mean one level.
-/

namespace RecordStore

inductive LogLevel where
  | trace
  | debug
  | info
  | warn
  | err
  | critical
deriving DecidableEq, Repr

def LogLevel.name : LogLevel → String
  | trace => "trace"
  | debug => "debug"
  | info => "info"
  | warn => "warn"
  | err => "err"
  | critical => "critical"

/-- The names of levels in a configuration. -/
inductive LevelName where
  | debug
  | info
  | warning
  | warn
  | error
  | critical
  | fatal
  | notset
deriving DecidableEq, Repr

namespace LevelName

def text : LevelName → String
  | debug => "DEBUG"
  | info => "INFO"
  | warning => "WARNING"
  | warn => "WARN"
  | error => "ERROR"
  | critical => "CRITICAL"
  | fatal => "FATAL"
  | notset => "NOTSET"

def ofText? : String → Option LevelName
  | "DEBUG" => some debug
  | "INFO" => some info
  | "WARNING" => some warning
  | "WARN" => some warn
  | "ERROR" => some error
  | "CRITICAL" => some critical
  | "FATAL" => some fatal
  | "NOTSET" => some notset
  | _ => none

def level : LevelName → LogLevel
  | debug => .debug
  | info => .info
  | warning | warn => .warn
  | error => .err
  | critical | fatal => .critical
  | notset => .trace

@[simp] theorem ofText?_text (n : LevelName) : ofText? n.text = some n := by
  cases n <;> rfl

end LevelName

end RecordStore
