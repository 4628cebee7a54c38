import GoodeMap.Region

/-!
What a consistency check found, and when a finding passes. An unplaced measurement never passes.
-/
namespace GoodeMap

structure Misassigned (α : Type) where
  hemisphere : Hemisphere
  longitude : α
  owners : List Nat
  selected : Nat

inductive Finding (α : Type) where
  | roundTrip (error tolerance : α) (points : Nat)
  | lobeCoverage (problems : List (Misassigned α))
  | seamContinuity (jump epsilon tolerance : α)
  | hemisphereSymmetry (north south : α)
  | regionClassification (mismatches points : Nat)
  | equalArea (deviation tolerance : α)

namespace Finding
variable {α : Type}

def test : Finding α → String
  | roundTrip .. => "round_trip"
  | lobeCoverage .. => "lobe_coverage"
  | seamContinuity .. => "seam_continuity"
  | hemisphereSymmetry .. => "hemisphere_symmetry"
  | regionClassification .. => "region_classification"
  | equalArea .. => "equal_area"

def Passes [Scalar α] : Finding α → Prop
  | roundTrip error tolerance _ => error ≤ tolerance
  | lobeCoverage problems => problems.isEmpty = true
  | seamContinuity jump _ tolerance => jump ≤ tolerance
  | hemisphereSymmetry north south => Scalar.Meets north (-south) ∧ ¬ Scalar.Meets north 0.0
  | regionClassification mismatches _ => mismatches = 0
  | equalArea deviation tolerance => deviation ≤ tolerance

instance [Scalar α] (f : Finding α) : Decidable f.Passes := by
  cases f <;> unfold Passes <;> infer_instance

end Finding
end GoodeMap
