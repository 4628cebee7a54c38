import GoodeMap.Failure
import GoodeMap.UnitRegistry
import GoodeMap.Decimal.Numeral

/-!
Given values and their conversion. A bare value takes the unit that its place has; a quantity brings its
own.
-/
namespace GoodeMap

structure Quantity (U α : Type) where
  magnitude : α
  unit : U

inductive Given (U α : Type) where
  | quantity (q : Quantity U α)
  | number (x : α)
  | whole (n : Int)
  | truth (b : Bool)
  | text (s : String)
  | other

namespace Quantity
variable {U α : Type} (registry : UnitRegistry U α)

def ofUnitName (magnitude : α) (unit : String) : Except (Failure α) (Quantity U α) :=
  match registry.named? unit with
  | some u => .ok ⟨magnitude, u⟩
  | none => .error (.unknownUnit unit)

def convert (target : String) (q : Quantity U α) : Except (Failure α) α :=
  match registry.named? target with
  | none => .error (.unknownUnit target)
  | some u =>
    match registry.convert? q.magnitude q.unit u with
    | some x => .ok x
    | none => .error (.incompatibleUnit target q.magnitude (registry.text q.unit))

end Quantity

namespace Given
variable {U α : Type} [Scalar α] (registry : UnitRegistry U α)
open Scalar

def ofWhole (n : Int) : Except (Failure α) α :=
  let size : α := ofNat n.natAbs
  if isFinite size then .ok (if n < 0 then -size else size) else .error .integerTooLarge

def bare : Given U α → Except (Failure α) α
  | quantity q => .ok q.magnitude
  | number x => .ok x
  | whole n => ofWhole n
  | truth b => .ok (if b then 1.0 else 0.0)
  | text s =>
    match Numeral.read? s with
    | some n => .ok n.value
    | none => .error .notANumber
  | other => .error .notNumeric

def toQuantity (g : Given U α) (defaultUnit : String) : Except (Failure α) (Quantity U α) :=
  match g with
  | quantity q => .ok q
  | g => do Quantity.ofUnitName registry (← g.bare) defaultUnit

def toUnit (g : Given U α) (defaultUnit target : String) : Except (Failure α) α := do
  (← g.toQuantity registry defaultUnit).convert registry target

def toRadians (g : Given U α) (defaultUnit : String) : Except (Failure α) α :=
  g.toUnit registry defaultUnit "radian"

def toMeters (g : Given U α) (defaultUnit : String) : Except (Failure α) α :=
  g.toUnit registry defaultUnit "meter"

end Given
end GoodeMap
