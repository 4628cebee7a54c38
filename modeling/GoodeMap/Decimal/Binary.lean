/-!
Doubles read exactly: a finite one is a natural number times a power of two, and its decimal multiples
are quotients of natural numbers.
-/
namespace GoodeMap

structure Binary where
  significand : Nat
  exponent : Int
  narrowBelow : Bool
deriving Repr, DecidableEq

namespace Binary

def ofBits (bits : UInt64) : Binary :=
  let field := ((bits >>> 52) &&& 0x7FF).toNat
  let fraction := (bits &&& 0xFFFFFFFFFFFFF).toNat
  if field = 0 then ⟨fraction, -1074, false⟩
  else ⟨0x10000000000000 + fraction, field - 1075, fraction = 0 && 1 < field⟩

def ratio (b : Binary) (places : Int) : Nat × Nat :=
  (b.significand * Nat.pow 2 b.exponent.toNat * Nat.pow 10 places.toNat,
    Nat.pow 2 (-b.exponent).toNat * Nat.pow 10 (-places).toNat)

end Binary

inductive Reading where
  | undefined
  | infinite (negative : Bool)
  | finite (negative : Bool) (size : Binary)
deriving Repr, DecidableEq

namespace Reading

def negativeBit (x : Float) : Bool := x.toBits >>> 63 == 1

def ofFloat (x : Float) : Reading :=
  if x.isNaN then .undefined
  else if x.isFinite then .finite (negativeBit x) (Binary.ofBits x.toBits)
  else .infinite (negativeBit x)

end Reading
end GoodeMap
