import GoodeMap.Failure
import GoodeMap.Constants

/-!
The Mollweide projection of the unit sphere onto an ellipse. The auxiliary angle `θ` of a latitude `φ`
solves `2θ + sin 2θ = π sin φ`; how it is found is part of the projection's value, Newton's method with a
budget being one way. The inverse is in closed form and does not use it.
-/
namespace GoodeMap

structure Mollweide (α : Type) where
  auxiliaryAngle : α → Except (Failure α) α

namespace Mollweide
variable {α : Type} [Scalar α]
open Scalar

/-- Limits of the iteration. Near a pole the step stays above its tolerance and the residual ends it. -/
structure Budget (α : Type) where
  iterations : Int
  stepTolerance : α
  residualTolerance : α

def Budget.standard : Budget α :=
  ⟨Constants.iterationBudget, Constants.stepTolerance, Constants.residualTolerance⟩

def residual (target t : α) : α := t + sin t - target

def step (target t : α) : α := residual target t / (1.0 + cos t)

def next (target t : α) : α := lesser (t - step target t) pi

def settle (b : Budget α) (target : α) : Nat → α → Except α α
  | 0, t => .error t
  | n + 1, t =>
    if abs (residual target t) ≤ b.residualTolerance then .ok t
    else if abs (step target t) < b.stepTolerance then .ok (next target t)
    else settle b target n (next target t)

def newtonAngle (b : Budget α) (phi : α) : Except (Failure α) α :=
  if Within (-halfPi) halfPi phi then
    if Meets (abs phi) halfPi then .ok (copySign halfPi phi)
    else
      match settle b (pi * sin (abs phi)) b.iterations.toNat (abs phi) with
      | .ok t => .ok (copySign (t / 2.0) phi)
      | .error t => .error (.unsettled b.iterations phi (t / 2.0))
  else .error (.latitudeOf "Mollweide" phi)

def newton (b : Budget α) : Mollweide α := ⟨newtonAngle b⟩

def xFactor : α := 2.0 * sqrtTwo / pi

def yFactor : α := sqrtTwo

def forward (m : Mollweide α) (lam phi : α) : Except (Failure α) (α × α) :=
  match m.auxiliaryAngle phi with
  | .ok theta => .ok (xFactor * lam * cos theta, yFactor * sin theta)
  | .error e => .error e

def ratioSlack : α := 1e-12

def poleCosine : α := 1e-15

def latitude (theta : α) : α :=
  asin (clip (-1.0) 1.0 ((2.0 * theta + sin (2.0 * theta)) / pi))

def AtPole (theta : α) : Prop := abs (cos theta) < poleCosine

instance (theta : α) : Decidable (AtPole theta) := inferInstanceAs (Decidable (_ < _))

def longitude (x theta : α) : α := if AtPole theta then 0.0 else x / (xFactor * cos theta)

def angleOfRow? (y : α) : Option α :=
  let ratio := y / yFactor
  if 1.0 < abs ratio then
    if 1.0 < abs ratio - ratioSlack then none else some (asin (copySign 1.0 ratio))
  else some (asin ratio)

def inverse (x y : α) : Except (Failure α) (α × α) :=
  match angleOfRow? y with
  | some theta => .ok (longitude x theta, latitude theta)
  | none => .error (.beyondEllipse x y)

def xScale (y : α) : α :=
  let ratio := lesser (abs y / yFactor) 1.0
  xFactor * sqrt (1.0 - ratio * ratio)

end Mollweide
end GoodeMap
