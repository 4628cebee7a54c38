import GoodeMap.Proofs.DoubleLongitude

/-! What doubles rely on in the circular functions of a library. -/
namespace GoodeMap
open Scalar

/-- The values are in range, and an angle that is not finite has no sine. -/
structure Binary64.Circular.Lawful (c : Binary64.Circular) : Prop where
  sin_within {x : Double c} : isFinite x = true → Within (-1.0) 1.0 (Scalar.sin x)
  cos_within {x : Double c} : isFinite x = true → Within (-1.0) 1.0 (Scalar.cos x)
  asin_within {x : Double c} : Within (-1.0) 1.0 x → Within (-halfPi) halfPi (Scalar.asin x)
  isFinite_of_sin {x : Double c} : Scalar.sin x ≤ Scalar.sin x → isFinite x = true

/-- Circular functions that are right for angles so small that none of their digits shows a curvature, and lawful
for all others. -/
def Binary64.Circular.level : Binary64.Circular where
  sin x := if x.isFinite then if x.abs ≤ 1e-8 then x else 0.0 else 0.0 / 0.0
  cos x := if x.isFinite then 1.0 else 0.0 / 0.0
  asin x := if x.abs ≤ 1e-8 then x else 0.0

/-- Circular functions that are right for such angles only. -/
def Binary64.Circular.slight : Binary64.Circular where
  sin x := x
  cos _ := 1.0
  asin x := x

namespace Double
open Binary64
variable {c : Circular}

theorem within_of_level {x bound : Double c} (hbound : (1e-8 : Double c) ≤ bound)
    (hzero : abs (0.0 : Double c) ≤ bound) : Within (-bound) bound (if abs x ≤ 1e-8 then x else 0.0) := by
  refine abs_le_iff.mp ?_
  split_ifs with hx
  · exact LawfulOrder.le_trans hx hbound
  · exact hzero

theorem level_lawful : Circular.level.Lawful where
  sin_within {x} h := by
    have hlevel : sin x = if abs x ≤ 1e-8 then x else (0.0 : Double .level) := if_pos h
    rw [hlevel]
    exact within_of_level (by decide +kernel) (by decide +kernel)
  cos_within {x} h := by
    have hone : cos x = (1.0 : Double .level) := if_pos h
    rw [hone]
    decide +kernel
  asin_within {x} _ :=
    (within_of_level (by decide +kernel) (by decide +kernel) : Within (-halfPi) halfPi
      (if abs x ≤ 1e-8 then x else (0.0 : Double .level)))
  isFinite_of_sin {x} h := by
    by_contra hx
    have hundefined : sin x = (0.0 / 0.0 : Double .level) := if_neg hx
    rw [hundefined] at h
    exact not_placed_undefined h

theorem below_one : Below (-52) (view (1.0 : Double c)) := by
  rw [view_one]
  exact ⟨by decide, le_rfl⟩

theorem below_halfPi : Below (-51) (view (halfPi : Double c)) := by
  have hnative : Below (-51) (view (halfPi : Double .native)) := by decide +kernel
  exact hnative

theorem below_of_within_one {x : Double c} (h : Within (-1.0) 1.0 x) : Below (-52) (view x) :=
  below_of_between (below_neg.mpr below_one) below_one h.1 h.2

theorem below_of_within_halfPi {x : Double c} (h : Within (-halfPi) halfPi x) : Below (-51) (view x) :=
  below_of_between (below_neg.mpr below_halfPi) below_halfPi h.1 h.2

theorem isFinite_of_below {x : Double c} {k : Int} (h : Below k (view x)) (hk : k ≤ 971) :
    isFinite x = true := isFinite_iff.mpr (h.mono hk)

theorem placed_of_below {x : Double c} {k : Int} (h : Below k (view x)) (hk : k ≤ 971) : x ≤ x :=
  placed_of_isFinite (isFinite_of_below h hk)

section
variable (hc : c.Lawful) {x : Double c} (hx : isFinite x = true)
include hc hx

theorem below_sin : Below (-52) (view (sin x)) := below_of_within_one (hc.sin_within hx)

theorem below_cos : Below (-52) (view (cos x)) := below_of_within_one (hc.cos_within hx)

end
end Double
end GoodeMap
