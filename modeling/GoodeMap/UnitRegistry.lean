/-!
Registries of units, and what is relied on of one: between units of one dimension a value converts by one
multiplication, between others it does not convert.
-/
namespace GoodeMap

structure UnitRegistry (U α : Type) where
  named? : String → Option U
  text : U → String
  convert? : α → U → U → Option α

namespace UnitRegistry
variable {U D α : Type}

/-- What is relied on of a registry, for what its units measure and the factors between them. -/
structure Multiplies [Mul α] (r : UnitRegistry U α) (dimension : U → D) (factor : U → U → α) : Prop where
  convert_of_eq {x : α} {u v : U} : dimension u = dimension v → r.convert? x u v = some (x * factor u v)
  convert_of_ne {x : α} {u v : U} : dimension u ≠ dimension v → r.convert? x u v = none
  angles : ∃ u v, r.named? "degree" = some u ∧ r.named? "radian" = some v ∧ dimension u = dimension v
  lengths : ∃ u, r.named? "meter" = some u

end UnitRegistry
end GoodeMap
