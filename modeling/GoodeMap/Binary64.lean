import GoodeMap.Scalar
import GoodeMap.Decimal.Binary

/-!
Doubles as a carrier. The remainder is taken on the exact values, so it is rounded once at most. The
circular functions come from a library and are a parameter.
-/
namespace GoodeMap.Binary64

def copySign (size sign : Float) : Float :=
  if Reading.negativeBit sign then -size.abs else size.abs

def twoPow (e : Int) : Float :=
  if 0 ≤ e then Nat.repeat (· * 2.0) e.toNat 1.0 else Nat.repeat (· / 2.0) (-e).toNat 1.0

/-- The exact remainder of two sizes. It has no more digits than one of them, so it is a double. -/
def sizeMod (a b : Binary) : Float :=
  let e := min a.exponent b.exponent
  let m := a.significand * Nat.pow 2 (a.exponent - e).toNat
  let n := b.significand * Nat.pow 2 (b.exponent - e).toNat
  (UInt64.ofNat (m % n)).toFloat * twoPow e

/-- Floored remainder: zero takes the divisor's sign, an infinite dividend has no remainder and an
infinite divisor leaves a dividend of its own sign alone. -/
def floorMod (x y : Float) : Float :=
  match Reading.ofFloat x, Reading.ofFloat y with
  | .finite negative a, .finite divisorNegative b =>
    if b.significand = 0 then 0.0 / 0.0
    else
      let r := sizeMod a b
      if r ≤ 0.0 then copySign 0.0 y
      else if negative = divisorNegative then copySign r y
      else copySign r x + y
  | .finite negative a, .infinite divisorNegative =>
    if a.significand = 0 then copySign 0.0 y
    else if negative = divisorNegative then x else y
  | _, _ => 0.0 / 0.0

structure Circular where
  sin : Float → Float
  cos : Float → Float
  asin : Float → Float

namespace Circular

def native : Circular := ⟨Float.sin, Float.cos, Float.asin⟩

@[reducible] def scalar (c : Circular) : Scalar Float where
  decidableLE := inferInstance
  decidableLT := inferInstance
  pi := 3.141592653589793
  abs := Float.abs
  sqrt := Float.sqrt
  sin := c.sin
  cos := c.cos
  asin := c.asin
  copySign := copySign
  floorMod := floorMod
  isFinite := Float.isFinite

end Circular

instance : Scalar Float := Circular.native.scalar

end GoodeMap.Binary64
