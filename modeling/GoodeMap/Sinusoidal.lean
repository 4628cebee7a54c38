import GoodeMap.Failure
import GoodeMap.Constants

/-!
The sinusoidal projection of the unit sphere: every parallel is a straight line of true length.
-/
namespace GoodeMap.Sinusoidal
variable {α : Type} [Scalar α]
open Scalar

def forward (lam phi : α) : Except (Failure α) (α × α) :=
  if Within (-halfPi) halfPi phi then .ok (lam * cos phi, phi)
  else .error (.latitudeOf "Sinusoidal" phi)

def poleSlack : α := 1e-10

def inverse (x y : α) : Except (Failure α) (α × α) :=
  if abs y < halfPi then .ok (x / cos y, y)
  else if abs y - poleSlack < halfPi then .ok (0.0, copySign halfPi y)
  else .error (.beyondPole x y)

def xScale (y : α) : α := cos (lesser (abs y) halfPi)

end GoodeMap.Sinusoidal
