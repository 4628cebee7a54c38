/-!
Entries of the log: who speaks, how severe it is, and the text.
-/
namespace GoodeMap

abbrev Severity := Int

namespace Severity

def debug : Severity := 10
def info : Severity := 20
def warning : Severity := 30
def error : Severity := 40
def critical : Severity := 50

def name (s : Severity) : String :=
  if s = debug then "DEBUG"
  else if s = info then "INFO"
  else if s = warning then "WARNING"
  else if s = error then "ERROR"
  else if s = critical then "CRITICAL"
  else "Level " ++ toString s

end Severity

structure LogEntry where
  logger : String
  severity : Severity
  message : String
deriving Repr, DecidableEq

namespace LogEntry

def mapLogger : String := "geospatial.projections"

def checkLogger : String := "ProjectionConsistencyChecker"

def render (e : LogEntry) : String :=
  e.logger ++ " | " ++ Severity.name e.severity ++ " | " ++ e.message

def layout : String := "%(asctime)s | %(name)s | %(levelname)s | %(message)s"

end LogEntry
end GoodeMap
