import GoodeMap.Failure

/-!
Points of the globe, checked against its range.
-/
namespace GoodeMap

/-- Longitude and latitude in radians. -/
structure GeographicPoint (α : Type) [Scalar α] where
  longitude : α
  latitude : α
  latitude_within : Scalar.Within (-Scalar.halfPi) Scalar.halfPi latitude
  longitude_within : Scalar.Within (-Scalar.pi) Scalar.pi longitude

namespace GeographicPoint
variable {α : Type} [Scalar α]
open Scalar

def of (longitude latitude : α) : Except (Failure α) (GeographicPoint α) :=
  if hlat : Within (-halfPi) halfPi latitude then
    if hlon : Within (-pi) pi longitude then .ok ⟨longitude, latitude, hlat, hlon⟩
    else .error (.longitudeRange longitude)
  else .error (.latitudeRange latitude)

def ofDegrees (longitude latitude : α) : Except (Failure α) (GeographicPoint α) :=
  of (toRadians longitude) (toRadians latitude)

def degrees (p : GeographicPoint α) : α × α := (toDegrees p.longitude, toDegrees p.latitude)

end GeographicPoint
end GoodeMap
