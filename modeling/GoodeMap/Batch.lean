import GoodeMap.WorldMap
import GoodeMap.Grid

/-!
Projection of arrays, entry by entry in row-major order. A failing entry ends the run, or, if failures
are tolerated, leaves a blank and is counted.
-/
namespace GoodeMap

inductive ErrorMode where
  | raise
  | blank
deriving Repr, DecidableEq

def ErrorMode.ofDetail {α : Type} : Detail → Except (Failure α) ErrorMode
  | .text "raise" => .ok raise
  | .text "nan" => .ok blank
  | mode => .error (.unknownErrorMode mode)

structure Batch (α : Type) where
  shape : Shape
  points : List (α × α)
  failures : Nat

namespace Batch
variable {m : Type → Type} {α : Type} [Scalar α]

def blankPoint : α × α := (Scalar.undefined, Scalar.undefined)

def attempt [Monad m] [MonadExceptOf (Failure α) m] (project : α → α → m (α × α))
    (mode : ErrorMode) (p : α × α) : m (Option (α × α)) :=
  match mode with
  | .raise => some <$> project p.1 p.2
  | .blank =>
    tryCatch (some <$> project p.1 p.2) fun e =>
      if e.kind.isProjection then pure none else throw e

def project [Monad m] [MonadExceptOf (Failure α) m] (limits : ArrayLimits α) (project : α → α → m (α × α))
    (mode : ErrorMode) (lats lons : Grid α) : m (Batch α) := do
  let (shape, pairs) ← liftExcept (lats.pairs limits lons)
  let results ← pairs.mapM (attempt project mode)
  return { shape
           points := results.map (·.getD blankPoint)
           failures := results.countP (·.isNone) }

def notices (b : Batch α) (title : String) : List LogEntry :=
  if b.failures = 0 then []
  else [⟨LogEntry.mapLogger, Severity.warning,
    title ++ ": " ++ toString b.failures ++ " of " ++ toString b.points.length
      ++ " points could not be projected"⟩]

end Batch
end GoodeMap
