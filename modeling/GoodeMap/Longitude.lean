import GoodeMap.Scalar

/-!
Longitudes wrapped to the range closed at both ends, which leaves each end on its own side.
-/
namespace GoodeMap.Longitude
variable {α : Type} [Scalar α]
open Scalar

def wrap (lon : α) : α := floorMod (lon + pi) twoPi - pi

def normalize (lon : α) : α := if Within (-pi) pi lon then lon else wrap lon

def normalizeEntry (lon : α) : α := if pi < abs lon then wrap lon else lon

end GoodeMap.Longitude
