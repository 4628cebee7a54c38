import GoodeMap.Failure
import GoodeMap.Constants

/-!
Ellipsoids by semi-major axis and flattening. The map is drawn on a sphere whose radius is the semi-major
axis.
-/
namespace GoodeMap

structure Ellipsoid (α : Type) where
  semiMajor : α
  flattening : α
  name : String

namespace Ellipsoid
variable {α : Type} [Scalar α]
open Scalar

def semiMinor (e : Ellipsoid α) : α := e.semiMajor * (1.0 - e.flattening)

def IsSphere (e : Ellipsoid α) : Prop := Meets e.flattening 0.0

instance (e : Ellipsoid α) : Decidable e.IsSphere :=
  inferInstanceAs (Decidable (Meets e.flattening 0.0))

def sphereRadius (e : Ellipsoid α) : α := e.semiMajor

def ofAxes (semiMajor semiMinor : α) (name : String) : Except (Failure α) (Ellipsoid α) :=
  if Meets semiMajor 0.0 then .error .zeroDivision
  else .ok ⟨semiMajor, (semiMajor - semiMinor) / semiMajor, name⟩

def customName : String := "custom"

def wgs84 : Ellipsoid α :=
  ⟨Constants.earthSemiMajor.value, Constants.earthFlattening.value, "WGS84"⟩

def unitSphere : Ellipsoid α := ⟨1.0, 0.0, "unit sphere"⟩

end Ellipsoid
end GoodeMap
