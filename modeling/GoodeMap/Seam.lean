import GoodeMap.Sinusoidal
import GoodeMap.Mollweide
import GoodeMap.Region

/-!
The seam between the sinusoidal band and the Mollweide caps. The offset is measured once on the two
projections, so that both draw the seam latitude in the same row.
-/
namespace GoodeMap

structure Seam (α : Type) where
  latitude : α
  row : α
  /-- Row of the seam in a cap less its row in the band. -/
  offset : α

namespace Seam
variable {α : Type} [Scalar α]

def calibrate (m : Mollweide α) (latitude : α) : Except (Failure α) (Seam α) :=
  match Sinusoidal.forward 0.0 latitude with
  | .error e => .error e
  | .ok (_, bandRow) =>
    match m.forward 0.0 latitude with
    | .error e => .error e
    | .ok (_, capRow) => .ok ⟨latitude, bandRow, capRow - bandRow⟩

def verticalOffset (s : Seam α) (h : Hemisphere) : α := h.sign * s.offset

def horizontalShift (meridian : α) : α := meridian * Scalar.cos 0.0

end Seam
end GoodeMap
