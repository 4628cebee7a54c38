import GoodeMap.Failure

/-!
Local distortion of a map by central differences: the scales along the graticule and the axes of the
ellipse that a small circle becomes.
-/
namespace GoodeMap

structure Indicatrix (α : Type) where
  semiMajor : α
  semiMinor : α
  meridianScale : α
  parallelScale : α
  areaScale : α
  angularDistortion : α

namespace Indicatrix
variable {α : Type} [Scalar α]
open Scalar

def tolerance : α := 1e-6

def IsConformal (t : Indicatrix α) : Prop := abs (t.semiMajor - t.semiMinor) < tolerance

def IsEqualArea (t : Indicatrix α) : Prop := abs (t.areaScale - 1.0) < tolerance

instance (t : Indicatrix α) : Decidable t.IsConformal := inferInstanceAs (Decidable (_ < _))
instance (t : Indicatrix α) : Decidable t.IsEqualArea := inferInstanceAs (Decidable (_ < _))

def ofScales (h k area : α) : Indicatrix α :=
  let sum := sqrt (h * h + k * k + 2.0 * area)
  let difference := sqrt (larger (h * h + k * k - 2.0 * area) 0.0)
  { semiMajor := (sum + difference) / 2.0
    semiMinor := (sum - difference) / 2.0
    meridianScale := h
    parallelScale := k
    areaScale := area
    angularDistortion := 2.0 * asin (difference / sum) }

end Indicatrix

namespace Distortion
variable {α : Type} [Scalar α]
open Scalar

def square (x : α) : Except (Failure α) α :=
  if isFinite x = true ∧ isFinite (x * x) = false then .error .squareOverflow else .ok (x * x)

def ofPartials (radius cosLat : α) (east north : α × α) : Except (Failure α) (Indicatrix α) := do
  let h := sqrt ((← square north.1) + (← square north.2)) / radius
  let k := sqrt ((← square east.1) + (← square east.2)) / (radius * cosLat)
  let area := abs (north.1 * east.2 - north.2 * east.1) / ((← square radius) * cosLat)
  return Indicatrix.ofScales h k area

def slope (ahead behind : α × α) (span : α) : α × α :=
  ((ahead.1 - behind.1) / span, (ahead.2 - behind.2) / span)

def standardStep : α := 1e-6

def indicatrix {m : Type → Type} [Monad m] [MonadExceptOf (Failure α) m]
    (project : α → α → m (α × α)) (radius lat lon delta : α) : m (Indicatrix α) := do
  let e ← project lat (lon + delta)
  let w ← project lat (lon - delta)
  let span := 2.0 * delta
  if Meets span 0.0 then throw Failure.zeroDivision
  let n ← project (lat + delta) lon
  let s ← project (lat - delta) lon
  liftExcept (ofPartials radius (cos lat) (slope e w span) (slope n s span))

end Distortion
end GoodeMap
