/-!
# ProtoSchema.CommandLine.Log

The log: levels, records and their lines. A record is written if its level is not below that of the
log; the level `NOTSET` lets everything through.
-/

namespace ProtoSchema
namespace CommandLine

inductive LogLevel where
  | notset
  | debug
  | info
  | warning
  | error
  | critical
deriving DecidableEq, Repr

namespace LogLevel

def rank : LogLevel → Nat
  | notset => 0
  | debug => 10
  | info => 20
  | warning => 30
  | error => 40
  | critical => 50

def name : LogLevel → String
  | notset => "NOTSET"
  | debug => "DEBUG"
  | info => "INFO"
  | warning => "WARNING"
  | error => "ERROR"
  | critical => "CRITICAL"

/-- The level that a name stands for; two of the levels have a second name. -/
def ofName? (s : String) : Option LogLevel :=
  [("NOTSET", notset), ("DEBUG", debug), ("INFO", info), ("WARNING", warning), ("WARN", warning),
    ("ERROR", error), ("CRITICAL", critical), ("FATAL", critical)].lookup s

end LogLevel

structure LogRecord where
  level : LogLevel
  logger : String
  message : String
deriving DecidableEq, Repr

/-- The line of a record that was made at the given time. -/
def LogRecord.line (time : String) (r : LogRecord) : String :=
  time ++ " " ++ r.level.name ++ " " ++ r.logger ++ ": " ++ r.message ++ "\n"

end CommandLine
end ProtoSchema
