import RecordStore.Config
import RecordStore.Entries

/-!
# Sessions

What a store keeps beside its records: the logger that it writes to, the levels of all loggers, and the master key.
-/

namespace RecordStore

/-- The loggers and the key of a store in use. -/
structure Session where
  loggers : List (String × LogLevel)
  logger : String
  masterKey : Option String
deriving Repr

namespace Session

/-- The loggers with one of the given name; a new one logs from `info` on. -/
def register (name : String) (loggers : List (String × LogLevel)) : List (String × LogLevel) :=
  if Entries.contains name loggers then loggers else Entries.insert name .info loggers

/-- The session of a new store. -/
def start (logger : String) : Session := ⟨register logger [], logger, none⟩

/-- Takes the logger, its level and the key from a configuration; a level that is not set stays. -/
def connect (config : Config) (s : Session) : Session :=
  let loggers := register config.loggerName s.loggers
  { loggers := match config.loglevel with
      | some n => Entries.insert config.loggerName n.level loggers
      | none => loggers
    logger := config.loggerName
    masterKey := config.masterKey }

/-- The level of the logger in use. -/
def level (s : Session) : LogLevel := (Entries.find? s.logger s.loggers).getD .info

end Session

end RecordStore
