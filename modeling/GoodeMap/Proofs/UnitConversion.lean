import GoodeMap.MeasureUnit
import GoodeMap.Parameters
import GoodeMap.Proofs.Calibration

/-! Values and their units. With a registry that converts by one multiplication, a value comes to its number times
one factor if its unit measures what its parameter does, and is refused if not. -/
namespace GoodeMap.Parameters
variable {α U D : Type} [Scalar α] {registry : UnitRegistry U α} {dimension : U → D} {factor : U → U → α}

def ownUnit (name : String) : String := if name = "central_meridian" then "radian" else "meter"

inductive Measures (registry : UnitRegistry U α) (name : String) : Given U α → α → U → Prop where
  | quantity (q : Quantity U α) : Measures registry name (.quantity q) q.magnitude q.unit
  | bare {g : Given U α} {x : α} {u : U} (hg : ∀ q, g ≠ .quantity q) (hx : g.bare = .ok x)
      (hu : registry.named? (standardUnit name) = some u) : Measures registry name g x u

/-- The value is `y` in the parameter's own unit: its number times the factor from a unit of the same dimension. -/
def Amounts (registry : UnitRegistry U α) (dimension : U → D) (factor : U → U → α) (name : String) (g : Given U α)
    (y : α) : Prop :=
  ∃ x u v, Measures registry name g x u ∧ registry.named? (ownUnit name) = some v ∧ dimension u = dimension v ∧
    y = x * factor u v

variable {name : String} {g : Given U α} {q : Quantity U α} {x y : α} {u v : U} {e : Failure α}

theorem convert_eq (name : String) (g : Given U α) :
    convert registry name g = g.toUnit registry (standardUnit name) (ownUnit name) := by
  unfold convert ownUnit
  split_ifs <;> rfl

theorem toQuantity_of_bare (hg : ∀ q, g ≠ .quantity q) (unit : String) :
    g.toQuantity registry unit = g.bare >>= fun x => Quantity.ofUnitName registry x unit := by
  cases g with
  | quantity q => exact absurd rfl (hg q)
  | number | whole | truth | text | other => rfl

theorem measures_iff : Measures registry name g x u ↔ g.toQuantity registry (standardUnit name) = .ok ⟨x, u⟩ := by
  constructor
  · intro h
    cases h with
    | quantity q => rfl
    | bare hg hx hu =>
      rw [toQuantity_of_bare hg, hx]
      change Quantity.ofUnitName registry x _ = _
      rw [Quantity.ofUnitName, hu]
  · intro h
    by_cases hg : ∃ q, g = .quantity q
    · obtain ⟨q, rfl⟩ := hg
      cases h
      exact .quantity _
    · push Not at hg
      rw [toQuantity_of_bare hg] at h
      obtain ⟨x', hx, h⟩ := bind_eq_ok_iff.mp h
      unfold Quantity.ofUnitName at h
      split at h
      · next u' hu =>
        cases h
        exact .bare hg hx hu
      · cases h

section
variable (hunits : registry.Multiplies dimension factor)
include hunits

theorem convert_eq_ok_iff : convert registry name g = .ok y ↔ Amounts registry dimension factor name g y := by
  rw [convert_eq, Given.toUnit, bind_eq_ok_iff]
  constructor
  · rintro ⟨⟨x, u⟩, hq, h⟩
    unfold Quantity.convert at h
    split at h
    · cases h
    · next v hv =>
      by_cases hdimension : dimension u = dimension v
      · rw [hunits.convert_of_eq hdimension] at h
        cases h
        exact ⟨x, u, v, measures_iff.mpr hq, hv, hdimension, rfl⟩
      · rw [hunits.convert_of_ne hdimension] at h
        cases h
  · rintro ⟨x, u, v, hmeasures, hv, hdimension, rfl⟩
    refine ⟨⟨x, u⟩, measures_iff.mp hmeasures, ?_⟩
    simp only [Quantity.convert, hv, hunits.convert_of_eq hdimension]

/-- What measures something else does not convert. -/
theorem convert_of_ne (hmeasures : Measures registry name g x u) (hv : registry.named? (ownUnit name) = some v)
    (hne : dimension u ≠ dimension v) :
    convert registry name g = .error (.incompatibleUnit (ownUnit name) x (registry.text u)) := by
  rw [convert_eq, Given.toUnit, measures_iff.mp hmeasures]
  change Quantity.convert registry (ownUnit name) ⟨x, u⟩ = _
  simp only [Quantity.convert, hv, hunits.convert_of_ne hne]

theorem Amounts.unique (hx : Amounts registry dimension factor name g x)
    (hy : Amounts registry dimension factor name g y) : x = y :=
  Except.ok.inj (((convert_eq_ok_iff hunits).mpr hx).symm.trans ((convert_eq_ok_iff hunits).mpr hy))

/-- A bare value's unit and the parameter's own measure the same. -/
theorem exists_units (name : String) : ∃ u v, registry.named? (standardUnit name) = some u ∧
    registry.named? (ownUnit name) = some v ∧ dimension u = dimension v := by
  unfold standardUnit ownUnit
  split_ifs
  · exact hunits.angles
  · obtain ⟨u, hu⟩ := hunits.lengths
    exact ⟨u, u, hu, hu, rfl⟩

end

/-- A quantity amounts to something if it measures what the parameter does. -/
theorem amounts_quantity_iff (hv : registry.named? (ownUnit name) = some v) :
    Amounts registry dimension factor name (.quantity q) y ↔
      dimension q.unit = dimension v ∧ y = q.magnitude * factor q.unit v := by
  constructor
  · rintro ⟨x, u, v', hmeasures, hv', h⟩
    cases hv'.symm.trans hv
    cases hmeasures with
    | quantity => exact h
    | bare hg _ _ => exact absurd rfl (hg q)
  · exact fun h => ⟨_, _, v, .quantity q, hv, h⟩

section
variable (hu : registry.named? (standardUnit name) = some u) (hv : registry.named? (ownUnit name) = some v)
  (hdimension : dimension u = dimension v)
include hu hv hdimension

/-- A bare value amounts to something if a number can be read from it. -/
theorem amounts_bare_iff (hg : ∀ q, g ≠ .quantity q) :
    Amounts registry dimension factor name g y ↔ ∃ x, g.bare = .ok x ∧ y = x * factor u v := by
  constructor
  · rintro ⟨x, u', v', hmeasures, hv', -, h⟩
    cases hv'.symm.trans hv
    cases hmeasures with
    | quantity q => exact absurd rfl (hg q)
    | bare _ hx hu' =>
      cases hu'.symm.trans hu
      exact ⟨x, hx, h⟩
  · rintro ⟨x, hx, h⟩
    exact ⟨x, u, v, .bare hg hx hu, hv, hdimension, h⟩

theorem amounts_number_iff : Amounts registry dimension factor name (.number x) y ↔ y = x * factor u v := by
  rw [amounts_bare_iff (g := .number x) hu hv hdimension nofun]
  simp only [Given.bare, Except.ok.injEq, exists_eq_left']

end

end GoodeMap.Parameters
