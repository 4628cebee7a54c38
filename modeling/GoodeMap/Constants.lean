import GoodeMap.Scalar

/-!
The fixed numbers of the map: the ellipsoid, the latitude of the seam, the cuts and central meridians of
both hemispheres, and the tolerances.
-/
namespace GoodeMap

structure Constant (α : Type) where
  value : α
  uncertainty : α
  unit : String
  source : String
  description : String

namespace Constants
variable {α : Type} [Scalar α]
open Scalar

def sexagesimal (degrees minutes seconds : α) : α :=
  degrees + minutes / 60.0 + seconds / 3600.0

/-- Degrees of a table as radians; its outer ends come out as exactly a half turn. -/
def tableRadians (degrees : α) : α :=
  if Meets degrees (-180.0) then -pi
  else if Meets degrees 180.0 then pi
  else toRadians degrees

def earthSemiMajor : Constant α where
  value := 6378137.0
  uncertainty := 0.0
  unit := "m"
  source := "WGS84, NIMA TR8350.2"
  description := "Semi-major axis (equatorial radius) of WGS84 ellipsoid"

def earthFlattening : Constant α where
  value := 1.0 / 298.257223563
  uncertainty := 0.0
  unit := "dimensionless"
  source := "WGS84, NIMA TR8350.2"
  description := "Flattening of WGS84 ellipsoid: f = (a - b) / a"

/-- Here both projections have the same scale along the parallel. -/
def seamLatitude : Constant α where
  value := toRadians (sexagesimal 40.0 44.0 11.8)
  uncertainty := 0.0
  unit := "rad"
  source := "Goode (1925); PROJ igh"
  description := "Latitude separating the Sinusoidal band from the Mollweide caps"

def northCuts : Array α := #[-180.0, -40.0, 180.0]
def northMeridians : Array α := #[-100.0, 30.0]
def southCuts : Array α := #[-180.0, -100.0, -20.0, 80.0, 180.0]
def southMeridians : Array α := #[-160.0, -60.0, 20.0, 140.0]

def iterationBudget : Int := 50
def stepTolerance : α := 1e-12
def residualTolerance : α := 1e-15

def edgeTolerance : α := 1e-10

def spanTolerance : α := 1e-12

inductive Entry (α : Type) where
  | constant (c : Constant α)
  | number (x : α)
  | table (xs : Array α)
  | count (n : Int)

def catalogue : List (String × Entry α) :=
  [("PI", .number pi),
   ("HALF_PI", .number halfPi),
   ("TWO_PI", .number twoPi),
   ("SQRT2", .number sqrtTwo),
   ("EARTH_SEMI_MAJOR_AXIS", .constant earthSemiMajor),
   ("EARTH_FLATTENING", .constant earthFlattening),
   ("LAT_THRESH", .constant seamLatitude),
   ("INTERRUPTIONS_NORTH_DEG", .table northCuts),
   ("CENTRAL_MERIDIANS_NORTH_DEG", .table northMeridians),
   ("INTERRUPTIONS_SOUTH_DEG", .table southCuts),
   ("CENTRAL_MERIDIANS_SOUTH_DEG", .table southMeridians),
   ("MOLLWEIDE_MAX_ITERATIONS", .count iterationBudget),
   ("MOLLWEIDE_STEP_TOLERANCE", .number stepTolerance),
   ("MOLLWEIDE_RESIDUAL_TOLERANCE", .number residualTolerance),
   ("LOBE_EDGE_TOLERANCE", .number edgeTolerance),
   ("TABLE_SPAN_TOLERANCE", .number spanTolerance)]

end Constants
end GoodeMap
