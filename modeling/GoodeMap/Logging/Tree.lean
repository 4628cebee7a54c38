import GoodeMap.Logging.Entry

/-!
Loggers under dotted names. A logger that was asked for has one handler and the severity last asked for.
An entry counts when it reaches the nearest severity that is set on its logger or above, and is then
written by every handler from its logger up to the root. Above a logger stand those whose names a dot cuts
off from its own.
-/
namespace GoodeMap

structure Logger where
  severity : Severity
  handlers : Nat
deriving Repr, DecidableEq

structure LogTree where
  loggers : List (String × Logger)
  decisions : List ((String × Severity) × Bool)
deriving Repr, DecidableEq

namespace LogTree

def fresh : LogTree := ⟨[("", ⟨Severity.warning, 0⟩)], []⟩

def rootName : String := "root"

def canonical (name : String) : String := if name = rootName then "" else name

def shownName (name : String) : String := if name = "" then rootName else name

def find (t : LogTree) (name : String) : Logger := (t.loggers.lookup name).getD ⟨0, 0⟩

def logger (t : LogTree) (name : String) : Logger := t.find (canonical name)

def insert (name : String) (l : Logger) : List (String × Logger) → List (String × Logger)
  | [] => [(name, l)]
  | (k, v) :: rest => if k = name then (name, l) :: rest else (k, v) :: insert name l rest

def request (t : LogTree) (name : String) (severity : Severity) : LogTree :=
  ⟨insert (canonical name) ⟨severity, max (t.logger name).handlers 1⟩ t.loggers, []⟩

def touch (t : LogTree) (name : String) : LogTree :=
  { t with loggers := insert name (t.find name) t.loggers }

/-- A stem of a name is known. The root keeps a logger from a newcomer with whose name its own begins, so
such a stem has to be known first. -/
def standsAbove (t : LogTree) (stem name : String) : Bool :=
  let known :=
    if stem.toList.isPrefixOf rootName.toList then t.loggers.takeWhile (·.1 ≠ name) else t.loggers
  known.any (·.1 = stem)

/-- Known names above a name, nearest first, from the reversed part of it that is still to be searched.
The character before a dot that cut off nothing known is passed over, be it a dot. -/
def above (t : LogTree) (name : String) : Bool → List Char → List String
  | _, [] => []
  | passOver, c :: rest =>
    let stem := String.ofList rest.reverse
    if c ≠ '.' ∨ passOver ∨ rest = [] then above t name false rest
    else if t.standsAbove stem name then stem :: above t stem false rest
    else above t name true rest

def lineage (t : LogTree) (name : String) : List String :=
  if name = "" then [""] else name :: t.above name false name.toList.reverse ++ [""]

def effective (t : LogTree) (name : String) : Severity :=
  (((t.lineage name).map fun n => (t.find n).severity).find? (· ≠ 0)).getD 0

/-- Entries of the name and the severity count. A decision stands until a severity is set, even if other
loggers are above by then. -/
def accepts (t : LogTree) (name : String) (severity : Severity) : Bool :=
  (t.decisions.lookup (name, severity)).getD (0 < severity && t.effective name ≤ severity)

def written (t : LogTree) (e : LogEntry) : List LogEntry :=
  (t.lineage e.logger).flatMap fun n =>
    List.replicate (t.find n).handlers { e with logger := shownName e.logger }

def log (t : LogTree) (name : String) (severity : Severity) (message : String) :
    LogTree × List LogEntry :=
  let name := canonical name
  let t := t.touch name
  let accepted := t.accepts name severity
  (⟨t.loggers, ((name, severity), accepted) :: t.decisions⟩,
    if accepted then t.written ⟨name, severity, message⟩ else [])

end LogTree
end GoodeMap
