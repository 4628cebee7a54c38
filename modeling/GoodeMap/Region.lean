import GoodeMap.Scalar

/-!
The two choices made for every point: its hemisphere and the projection of its latitude band.
-/
namespace GoodeMap

inductive Hemisphere where
  | north
  | south
deriving Repr, DecidableEq

namespace Hemisphere
variable {α : Type} [Scalar α]

def of (value : α) : Hemisphere := if 0.0 ≤ value then north else south

def name : Hemisphere → String
  | north => "NORTH"
  | south => "SOUTH"

def ofName? : String → Option Hemisphere
  | "NORTH" => some north
  | "SOUTH" => some south
  | _ => none

def sign : Hemisphere → α
  | north => 1.0
  | south => -1.0

end Hemisphere

inductive Branch where
  | sinusoidal
  | mollweide
deriving Repr, DecidableEq

def Branch.name : Branch → String
  | sinusoidal => "sinusoidal"
  | mollweide => "mollweide"

end GoodeMap
