/-!
The arithmetic a map is computed in: four operations, an order, the circular functions and what else
doubles and real numbers share. Guards are written with the carrier's own order, so a value that the
order does not place passes no range test.
-/
namespace GoodeMap

class Scalar (α : Type) extends
    Add α, Sub α, Mul α, Div α, Neg α, LE α, LT α, OfScientific α where
  decidableLE : DecidableLE α
  decidableLT : DecidableLT α
  pi : α
  abs : α → α
  sqrt : α → α
  sin : α → α
  cos : α → α
  asin : α → α
  copySign : α → α → α
  floorMod : α → α → α
  isFinite : α → Bool

attribute [reducible, instance] Scalar.decidableLE Scalar.decidableLT

-- A concrete carrier keeps its own operations where it has them.
attribute [instance (low)] Scalar.toAdd Scalar.toSub Scalar.toMul Scalar.toDiv Scalar.toNeg
  Scalar.toLE Scalar.toLT Scalar.toOfScientific Scalar.decidableLE Scalar.decidableLT

namespace Scalar
variable {α : Type} [Scalar α]

/-- Equal in the order: the two zeros meet, a value the order does not place meets nothing. -/
def Meets (a b : α) : Prop := a ≤ b ∧ b ≤ a

instance (a b : α) : Decidable (Meets a b) := inferInstanceAs (Decidable (a ≤ b ∧ b ≤ a))

def Within (low high x : α) : Prop := low ≤ x ∧ x ≤ high

instance (low high x : α) : Decidable (Within low high x) :=
  inferInstanceAs (Decidable (low ≤ x ∧ x ≤ high))

def lesser (a b : α) : α := if b < a then b else a

def larger (a b : α) : α := if a < b then b else a

def clip (low high x : α) : α := if x < low then low else if high < x then high else x

def join (a b : α) : α :=
  if a ≤ a then (if b ≤ b then larger a b else b) else a

def peak? : List α → Option α
  | [] => none
  | x :: xs => some (xs.foldl join x)

def undefined : α := 0.0 / 0.0

def ofNat (n : Nat) : α := OfScientific.ofScientific n false 0

def halfPi : α := pi / 2.0
def twoPi : α := 2.0 * pi
def sqrtTwo : α := sqrt 2.0

def toRadians (degrees : α) : α := degrees * (pi / 180.0)
def toDegrees (radians : α) : α := radians * (180.0 / pi)

end Scalar
end GoodeMap
