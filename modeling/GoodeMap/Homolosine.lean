import GoodeMap.Lobe.Select
import GoodeMap.Point
import GoodeMap.Seam
import GoodeMap.Trace

/-!
The interrupted homolosine of the unit sphere. A point's hemisphere and lobe come from its latitude and
longitude, its projection from the latitude band; back, from the row, the planar tables and the row's
band. The planar tables hold the cuts moved to their places on the equator.
-/
namespace GoodeMap

structure Sheet (α : Type) [Scalar α] where
  geographic : LobeTable α
  planar : LobeTable α
  meridians_eq : planar.meridians = geographic.meridians

namespace Sheet
variable {α : Type} [Scalar α]

def ofTable (t : LobeTable α) : Except (Failure α) (Sheet α) :=
  match h : t.mapped Seam.horizontalShift (t.name ++ " (planar)") with
  | .ok u => .ok ⟨t, u, LobeTable.meridians_mapped h⟩
  | .error e => .error e

def ofPlanar (s : Sheet α) (i : s.planar.Lobe) : s.geographic.Lobe :=
  i.cast (congrArg Array.size s.meridians_eq)

end Sheet

structure Homolosine (α : Type) [Scalar α] where
  mollweide : Mollweide α
  seam : Seam α
  north : Sheet α
  south : Sheet α

namespace Homolosine
variable {α : Type} [Scalar α]
open Scalar

def build (north south : LobeTable α) (seamLatitude : α) (mollweide : Mollweide α) :
    Except (Failure α) (Homolosine α) := do
  north.checkGeographic Constants.spanTolerance
  south.checkGeographic Constants.spanTolerance
  let seam ← Seam.calibrate mollweide seamLatitude
  let northSheet ← Sheet.ofTable north
  let southSheet ← Sheet.ofTable south
  return ⟨mollweide, seam, northSheet, southSheet⟩

def usual (mollweide : Mollweide α) : Except (Failure α) (Homolosine α) := do
  build (← LobeTable.north) (← LobeTable.south) Constants.seamLatitude.value mollweide

def standard : Except (Failure α) (Homolosine α) :=
  usual (Mollweide.newton Mollweide.Budget.standard)

variable (g : Homolosine α)

def sheet : Hemisphere → Sheet α
  | .north => g.north
  | .south => g.south

def poleRow : α := sqrtTwo - g.seam.offset

def branchOfLatitude (phi : α) : Branch :=
  if g.seam.latitude < abs phi then .mollweide else .sinusoidal

def branchOfRow (y : α) : Branch :=
  if g.seam.row < abs y then .mollweide else .sinusoidal

def forwardLocal (hemisphere : Hemisphere) (branch : Branch) (lam phi : α) :
    Except (Failure α) (α × α) :=
  match branch with
  | .sinusoidal => Sinusoidal.forward lam phi
  | .mollweide =>
    match g.mollweide.forward lam phi with
    | .ok (x, y) => .ok (x, y - g.seam.verticalOffset hemisphere)
    | .error e => .error e

def snapToEdge (hemisphere : Hemisphere) (x : α) : α :=
  let planar := (g.sheet hemisphere).planar
  if planar.west - Constants.edgeTolerance ≤ x ∧ x < planar.west then planar.west
  else if planar.east < x ∧ x ≤ planar.east + Constants.edgeTolerance then planar.east
  else x

def edgeSlack (xScale : α) : α :=
  Constants.edgeTolerance / larger xScale Constants.edgeTolerance

def localRow (hemisphere : Hemisphere) (branch : Branch) (y : α) : α :=
  match branch with
  | .sinusoidal => y
  | .mollweide => y + g.seam.verticalOffset hemisphere

def inverseLocal (branch : Branch) (x y : α) : Except (Failure α) (α × α) :=
  match branch with
  | .sinusoidal => Sinusoidal.inverse x y
  | .mollweide => Mollweide.inverse x y

def xScaleOf (branch : Branch) (y : α) : α :=
  match branch with
  | .sinusoidal => Sinusoidal.xScale y
  | .mollweide => Mollweide.xScale y

def poleRowSlack : α := 1e-12

/-- A piece of the map: what one of the two projections draws of a lobe. -/
structure Piece where
  hemisphere : Hemisphere
  lobe : (g.sheet hemisphere).geographic.Lobe
  branch : Branch

def pieceOfPoint (lam phi : α) : Except (Failure α) g.Piece :=
  if Within (-halfPi) halfPi phi then
    match (g.sheet (Hemisphere.of phi)).geographic.select lam with
    | .ok lobe => .ok ⟨Hemisphere.of phi, lobe, g.branchOfLatitude phi⟩
    | .error e => .error e
  else .error (.offGlobe lam phi)

/-- The piece that a planar place is looked up in. It may lie in an interruption beside the piece. -/
def pieceOfPlace (x y : α) : Except (Failure α) g.Piece :=
  if abs y ≤ g.poleRow + poleRowSlack then
    match (g.sheet (Hemisphere.of y)).planar.select (g.snapToEdge (Hemisphere.of y) x) with
    | .ok lobe => .ok ⟨Hemisphere.of y, (g.sheet (Hemisphere.of y)).ofPlanar lobe, g.branchOfRow y⟩
    | .error e => .error e
  else .error (.offMap x y)

namespace Piece
variable {g} (p : g.Piece)

def meridian : α := (g.sheet p.hemisphere).geographic.meridian p.lobe

def left : α := (g.sheet p.hemisphere).geographic.left p.lobe

def right : α := (g.sheet p.hemisphere).geographic.right p.lobe

def row (y : α) : α := g.localRow p.hemisphere p.branch y

def forward (lam phi : α) : Except (Failure α) (α × α) :=
  match g.forwardLocal p.hemisphere p.branch (lam - p.meridian) phi with
  | .ok (x, y) => .ok (x + Seam.horizontalShift p.meridian, y)
  | .error e => .error (.inLobe p.hemisphere p.lobe e)

def recover (x y : α) : Except (Failure α) (α × α) :=
  match inverseLocal p.branch (x - Seam.horizontalShift p.meridian) (p.row y) with
  | .ok (lam, phi) => .ok (lam + p.meridian, phi)
  | .error e => .error (.inLobe p.hemisphere p.lobe e)

def slack (y : α) : α := edgeSlack (xScaleOf p.branch (p.row y))

def clamp (lam : α) : α := lesser (larger lam p.left) p.right

def event (direction : String) (source result : α × α) : TraceEvent α where
  direction
  hemisphere := p.hemisphere.name
  lobe := p.lobe.val
  meridian := p.meridian
  branch := p.branch.name
  source
  result

end Piece

section
variable {m : Type → Type} [Monad m] [MonadExceptOf (Failure α) m] (trace : TraceEvent α → m Unit)

def forwardIn (lam phi : α) : m (α × α) := do
  let p ← liftExcept (g.pieceOfPoint lam phi)
  let place ← liftExcept (p.forward lam phi)
  trace (p.event "forward" (lam, phi) place)
  return place

def inverseIn (x y : α) : m (α × α) := do
  let p ← liftExcept (g.pieceOfPlace x y)
  let (lam, phi) ← liftExcept (p.recover x y)
  if ¬ Within (p.left - p.slack y) (p.right + p.slack y) lam then
    throw (Failure.interruption x y p.hemisphere p.lobe lam)
  trace (p.event "inverse" (x, y) (p.clamp lam, phi))
  return (p.clamp lam, phi)

end

def forward (lam phi : α) : Except (Failure α) (α × α) := g.forwardIn (fun _ => pure ()) lam phi

def inverse (x y : α) : Except (Failure α) (α × α) := g.inverseIn (fun _ => pure ()) x y

def forwardPoint (p : GeographicPoint α) : Except (Failure α) (α × α) :=
  g.forward p.longitude p.latitude

def inversePoint (x y : α) : Except (Failure α) (GeographicPoint α) := do
  let (lam, phi) ← g.inverse x y
  GeographicPoint.of lam phi

end Homolosine
end GoodeMap
