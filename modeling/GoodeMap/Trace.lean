import GoodeMap.Failure

/-!
Records of the choices made for transformed points, and counts over them.
-/
namespace GoodeMap

structure TraceEvent (α : Type) where
  direction : String
  hemisphere : String
  lobe : Int
  meridian : α
  branch : String
  source : α × α
  result : α × α

structure Recorder (α : Type) where
  events : Array (TraceEvent α)

abbrev Tally := List (String × Nat)

namespace Tally

def add : Tally → String → Tally
  | [], key => [(key, 1)]
  | (k, n) :: rest, key => if k = key then (k, n + 1) :: rest else (k, n) :: add rest key

def ofList (keys : List String) : Tally := keys.foldl add []

end Tally

structure TraceSummary where
  total : Nat
  directions : Tally
  branches : Tally
  lobes : Tally

def TraceEvent.lobeKey {α : Type} (e : TraceEvent α) : String :=
  e.hemisphere ++ ":" ++ toString e.lobe

namespace Recorder
variable {α : Type}

def empty : Recorder α := ⟨#[]⟩

def record (r : Recorder α) (e : TraceEvent α) : Recorder α := ⟨r.events.push e⟩

def last (r : Recorder α) : Except (Failure α) (TraceEvent α) :=
  match r.events.back? with
  | some e => .ok e
  | none => .error .nothingRecorded

def clear (_ : Recorder α) : Recorder α := empty

def summary (r : Recorder α) : TraceSummary where
  total := r.events.size
  directions := Tally.ofList (r.events.toList.map (·.direction))
  branches := Tally.ofList (r.events.toList.map (·.branch))
  lobes := Tally.ofList (r.events.toList.map (·.lobeKey))

end Recorder

abbrev Traced (α : Type) := ExceptT (Failure α) (StateM (Recorder α))

def Traced.record {α : Type} (e : TraceEvent α) : Traced α Unit := modify (·.record e)

end GoodeMap
