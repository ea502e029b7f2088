/-!
# Log records

Operations that report progress return their records as data, in the order in which they
arise.
-/

namespace Nomenclator

/-- How important a record is. -/
inductive Level where
  | debug
  | info
  | warn
  deriving DecidableEq, Repr

/-- The level's word in a log line. -/
def Level.label : Level → String
  | .debug => "DEBUG"
  | .info => "INFO"
  | .warn => "WARN"

/-- One record of a log. -/
structure LogRecord where
  level : Level
  message : String
  deriving DecidableEq, Repr

/-- A log, oldest record first. -/
abbrev Log := List LogRecord

/-- The record as one line. -/
def LogRecord.line (record : LogRecord) : String := record.level.label ++ " " ++ record.message

end Nomenclator
