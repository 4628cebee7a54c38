import GoodeMap.Ellipsoid
import GoodeMap.Quantity
import GoodeMap.Binary64

/-!
The parameters of a map: its axes, its central meridian and its false origin. A set is accepted when all
its values are finite and the axes are positive and in order.
-/
namespace GoodeMap

/-- Lengths in meters, the central meridian in radians. -/
structure Parameters (α : Type) where
  semiMajor : α
  semiMinor : α
  centralMeridian : α
  falseEasting : α
  falseNorthing : α

namespace Parameters
variable {α : Type} [Scalar α]
open Scalar

def names : List String :=
  ["semi_major", "semi_minor", "central_meridian", "false_easting", "false_northing"]

def standardUnit (name : String) : String := if name = "central_meridian" then "degree" else "meter"

def standardUnits : List (String × String) :=
  ["central_meridian", "semi_major", "semi_minor", "false_easting", "false_northing"].map fun name =>
    (name, standardUnit name)

def values (p : Parameters α) : List α :=
  [p.semiMajor, p.semiMinor, p.centralMeridian, p.falseEasting, p.falseNorthing]

def fields (p : Parameters α) : List (String × α) := names.zip p.values

def set? (p : Parameters α) (name : String) (value : α) : Option (Parameters α) :=
  match name with
  | "semi_major" => some { p with semiMajor := value }
  | "semi_minor" => some { p with semiMinor := value }
  | "central_meridian" => some { p with centralMeridian := value }
  | "false_easting" => some { p with falseEasting := value }
  | "false_northing" => some { p with falseNorthing := value }
  | _ => none

def earth : Parameters α :=
  ⟨Ellipsoid.wgs84.semiMajor, Ellipsoid.wgs84.semiMinor, 0.0, 0.0, 0.0⟩

def sphere (radius : α) : Parameters α := ⟨radius, radius, 0.0, 0.0, 0.0⟩

def check (p : Parameters α) : Except (Failure α) (Parameters α) :=
  if ¬ ∀ v ∈ p.values, isFinite v = true then .error (.parametersNotFinite p.fields)
  else if p.semiMajor ≤ 0.0 ∨ p.semiMinor ≤ 0.0 then
    .error (.axesNotPositive p.semiMajor p.semiMinor)
  else if p.semiMajor < p.semiMinor then .error (.axesReversed p.semiMajor p.semiMinor)
  else .ok p

def assign (p : Parameters α) : List (String × α) → Except (Failure α) (Parameters α)
  | [] => .ok p
  | (name, value) :: rest =>
    match p.set? name value with
    | some q => assign q rest
    | none => .error .unexpectedArgument

def ofFields (given : List (String × α)) : Except (Failure α) (Parameters α) := do
  check (← assign earth given)

def standardRadius : α := 1.0

def sphereOfFields (radius : Option α) (given : List (String × α)) :
    Except (Failure α) (Parameters α) :=
  if given.any fun e => e.1 = "semi_major" ∨ e.1 = "semi_minor" then .error .unexpectedArgument
  else do
    match radius, given.lookup "radius" with
    | some r, _ => check (← assign (sphere r) given)
    | none, some r => check (← assign (sphere r) (given.filter fun e => e.1 ≠ "radius"))
    | none, none => check (← assign (sphere standardRadius) given)

section
variable {U : Type} (registry : UnitRegistry U α)

def convert (name : String) (g : Given U α) : Except (Failure α) α :=
  if name = "central_meridian" then g.toRadians registry (standardUnit name)
  else g.toMeters registry (standardUnit name)

def complete (converted : List (String × α)) : List (String × α) :=
  match converted.lookup "semi_major", converted.lookup "semi_minor" with
  | some a, none => converted ++ [("semi_minor", a)]
  | _, _ => converted

def unknownNames (given : List (String × Given U α)) : List String :=
  ((given.map (·.1)).filter fun name => name ∉ names).mergeSort fun a b => decide (a ≤ b)

def ofMapping (given : List (String × Given U α)) : Except (Failure α) (Parameters α) :=
  match unknownNames given with
  | [] => do
    let converted ← given.mapM fun e => do return (e.1, ← convert registry e.1 e.2)
    ofFields (complete converted)
  | unknown => .error (.unknownParameters unknown names)

end

def ellipsoid (p : Parameters α) : Except (Failure α) (Ellipsoid α) :=
  Ellipsoid.ofAxes p.semiMajor p.semiMinor Ellipsoid.customName

def IsSphere (p : Parameters α) : Prop := Meets ((p.semiMajor - p.semiMinor) / p.semiMajor) 0.0

instance (p : Parameters α) : Decidable p.IsSphere :=
  inferInstanceAs (Decidable (Meets _ _))

def radius (p : Parameters α) : α := p.semiMajor

def definition (p : Parameters Float) : String :=
  "+lon_0=" ++ Decimal.shortest (toDegrees p.centralMeridian)
    ++ " +x_0=" ++ Decimal.shortest p.falseEasting
    ++ " +y_0=" ++ Decimal.shortest p.falseNorthing
    ++ " +R=" ++ Decimal.shortest p.radius ++ " +units=m +no_defs"

end Parameters
end GoodeMap
