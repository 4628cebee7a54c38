import GoodeMap.WorldMap
import GoodeMap.Grid
import GoodeMap.Wording

/-!
Consistency checks of a homolosine over grids of sample points: each gives a finding. Run together, the
findings are listed, or the first that does not pass ends the run.
-/
namespace GoodeMap

structure Checker (α : Type) [Scalar α] where
  core : Homolosine α
  parameters : Parameters α
  strict : Bool
  logged : Bool

abbrev Checking (α : Type) := ExceptT (Failure α) (StateM (List (Finding α)))

namespace Checker
variable {α : Type} [Scalar α]
open Scalar

def spaced (first step : α) (count : Nat) : List α :=
  (List.range count).map fun i => first + step * ofNat i

def standardLongitudes : Grid α := Grid.ofList (spaced (-177.5) 5.0 72)

def standardLatitudes : Grid α := Grid.ofList (spaced (-87.5) 5.0 36)

def samples (lons lats : List α) : List (α × α) :=
  lats.flatMap fun lat => lons.map fun lon => (toRadians lon, toRadians lat)

variable (c : Checker α)

def map : WorldMap (Except (Failure α)) α :=
  ⟨.homolosine, c.parameters, Core.homolosine c.core⟩

def largest (xs : List α) : Except (Failure α) α :=
  match peak? xs with
  | some x => .ok x
  | none => .error .emptySample

def roundTripError (p : α × α) : Except (Failure α) α := do
  let (x, y) ← c.core.forward p.1 p.2
  let (lam, phi) ← c.core.inverse x y
  return larger (abs (lam - p.1)) (abs (phi - p.2))

def roundTrip (lons lats : List α) (tolerance : α) : Except (Failure α) (Finding α) := do
  let errors ← (samples lons lats).mapM c.roundTripError
  return .roundTrip (← largest errors) tolerance errors.length

/-- The point that a fraction of an interval ends at. Where a step of the fraction is too short for a double,
the fraction is taken first. -/
def pointBetween (low high : α) (part count : Nat) : α :=
  let width := high - low
  let step := width / ofNat count
  (if Meets step 0.0 then ofNat part / ofNat count * width else ofNat part * step) + low

def coverageSamples (t : LobeTable α) (count : Nat) : List α :=
  t.boundaries.toList ++ (List.finRange t.meridians.size).flatMap fun i =>
    (List.range (count - 1)).map fun k => pointBetween (t.left i) (t.right i) (k + 1) count

def misassigned? (h : Hemisphere) (t : LobeTable α) (lam : α) :
    Except (Failure α) (Option (Misassigned α)) := do
  let lobe ← t.select lam
  let owners := t.owners lam
  return if owners = [lobe.val] then none else some ⟨h, lam, owners, lobe.val⟩

def lobeCoverage (limits : ArrayLimits α) (count : Int) : Except (Failure α) (Finding α) := do
  let count ← limits.pointCount count
  let found ← [Hemisphere.north, Hemisphere.south].mapM fun h =>
    let t := (c.core.sheet h).geographic
    (coverageSamples t count).mapM (misassigned? h t)
  return .lobeCoverage (found.flatten.filterMap id)

def seamJump (epsilon lam sign : α) : Except (Failure α) α := do
  let seam := c.core.seam.latitude
  let (_, inside) ← c.core.forward lam (sign * (seam - epsilon))
  let (_, outside) ← c.core.forward lam (sign * (seam + epsilon))
  return abs (outside - inside)

def seamContinuity (lons : Grid α) (epsilon tolerance : α) : Except (Failure α) (Finding α) := do
  let jumps ← (← lons.numbers).mapM fun lon => do
    let lam := toRadians lon
    return [← c.seamJump epsilon lam 1.0, ← c.seamJump epsilon lam (-1.0)]
  return .seamContinuity (← largest jumps.flatten) epsilon tolerance

def hemisphereSymmetry : Finding α :=
  .hemisphereSymmetry (c.core.seam.verticalOffset .north) (c.core.seam.verticalOffset .south)

def misclassified (p : α × α) : Except (Failure α) Bool := do
  let (_, y) ← c.core.forward p.1 p.2
  return c.core.branchOfLatitude p.2 ≠ c.core.branchOfRow y

def regionClassification (lons lats : List α) : Except (Failure α) (Finding α) := do
  let marks ← (samples lons lats).mapM c.misclassified
  return .regionClassification (marks.countP id) marks.length

def equalArea (lons lats : List α) (tolerance : α) : Except (Failure α) (Finding α) := do
  let scales ← (samples lons lats).mapM fun p =>
    (·.areaScale) <$> c.map.distortion p.2 p.1 Distortion.standardStep
  return .equalArea (← largest (scales.map fun s => abs (s - 1.0))) tolerance

def roundTripTolerance : α := 1e-9
def seamEpsilon : α := 1e-9
def seamTolerance : α := 1e-7
def areaTolerance : α := 1e-4
def samplesPerLobe : Int := 50

def all (limits : ArrayLimits α) (lons lats : Grid α) : List (Except (Failure α) (Finding α)) :=
  [c.roundTrip lons.entries lats.entries roundTripTolerance,
   c.lobeCoverage limits samplesPerLobe,
   c.seamContinuity lons seamEpsilon seamTolerance,
   .ok c.hemisphereSymmetry,
   c.regionClassification lons.entries lats.entries,
   do c.equalArea (Grid.everyThird (← lons.rows)).flatten (Grid.everyThird (← lats.rows)).flatten
        areaTolerance]

def give (f : Finding α) : Checking α (Finding α) := do
  if f.Passes then return f
  if c.logged then modify (· ++ [f])
  if c.strict then throw (.violated f)
  return f

def run (check : Except (Failure α) (Finding α)) : Checking α (Finding α) := do
  c.give (← liftExcept check)

def runAll (limits : ArrayLimits α) (lons lats : Grid α) : Checking α (List (Finding α)) :=
  (c.all limits lons lats).mapM c.run

end Checker

def Finding.notice (f : Finding Float) : LogEntry :=
  ⟨LogEntry.checkLogger, Severity.warning, "CHECK FAILED | " ++ f.test ++ " | " ++ f.message⟩

structure CheckSummary where
  total : Nat
  passed : Nat
  failed : List String
  allPassed : Bool
deriving Repr, DecidableEq

def CheckSummary.ofResults (results : List (String × Bool)) : CheckSummary :=
  let failed := (results.filter fun r => !r.2).map (·.1)
  { total := results.length
    passed := results.length - failed.length
    failed
    allPassed := failed.isEmpty }

end GoodeMap
