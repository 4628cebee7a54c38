import GoodeMap.Proofs.Parallel
import Mathlib

/-! How fast rows follow latitudes. In both plain projections a row's slope is the cosine of the latitude
divided by the scale of the row, so what a parallel loses in length the meridians gain; the slope is
largest on the equator of the Mollweide projection. -/
namespace GoodeMap
open Set

namespace Mollweide

theorem hasDerivAt_stripArea (theta : ℝ) : HasDerivAt stripArea (4 * Real.cos theta ^ 2) theta := by
  have hdouble : HasDerivAt (fun t : ℝ => 2 * t) 2 theta := by
    simpa using (hasDerivAt_id theta).const_mul 2
  refine (hdouble.add hdouble.sin).congr_deriv ?_
  rw [Real.cos_two_mul]
  ring

theorem exactAngle_continuous : Continuous exactAngle :=
  stripIso.symm.continuous.comp (continuous_const.mul Real.continuous_sin)

theorem cos_exactAngle_pos {phi : ℝ} (h : |phi| < Real.pi / 2) : 0 < Real.cos (exactAngle phi) := by
  have hpi := Real.pi_pos
  obtain ⟨hsouth, hnorth⟩ := abs_lt.mp h
  have hphi : phi ∈ Icc (-(Real.pi / 2)) (Real.pi / 2) := ⟨hsouth.le, hnorth.le⟩
  have hlow := exactAngle_strictMonoOn ⟨le_rfl, by linarith⟩ hphi hsouth
  have hhigh := exactAngle_strictMonoOn hphi ⟨by linarith, le_rfl⟩ hnorth
  rw [exactAngle_neg, exactAngle_halfPi] at hlow
  rw [exactAngle_halfPi] at hhigh
  exact Real.cos_pos_of_mem_Ioo ⟨hlow, hhigh⟩

theorem hasDerivAt_exactAngle {phi : ℝ} (h : |phi| < Real.pi / 2) :
    HasDerivAt exactAngle (Real.pi * Real.cos phi / (4 * Real.cos (exactAngle phi) ^ 2)) phi := by
  have hslope : 4 * Real.cos (exactAngle phi) ^ 2 ≠ 0 := by
    have hcos := cos_exactAngle_pos h
    positivity
  have hinverse : HasDerivAt stripIso.symm (4 * Real.cos (exactAngle phi) ^ 2)⁻¹
      (Real.pi * Real.sin phi) :=
    HasDerivAt.of_local_left_inverse stripIso.symm.continuous.continuousAt
      (hasDerivAt_stripArea (exactAngle phi)) hslope
      (Filter.Eventually.of_forall stripIso.apply_symm_apply)
  have htarget : HasDerivAt (fun t => Real.pi * Real.sin t) (Real.pi * Real.cos phi) phi :=
    (Real.hasDerivAt_sin phi).const_mul Real.pi
  refine (hinverse.comp phi htarget).congr_deriv ?_
  rw [div_eq_inv_mul]

/-- A strip of the disc as high as a zone of the sphere is at least as large: the difference grows from
nothing at the equator up to the latitude with cosine `π / 4` and falls back to nothing at the pole. -/
theorem pi_mul_sin_le_stripArea {phi : ℝ} (h0 : 0 ≤ phi) (h1 : phi ≤ Real.pi / 2) :
    Real.pi * Real.sin phi ≤ stripArea phi := by
  have hpi := Real.pi_pos
  set excess : ℝ → ℝ := fun t => stripArea t - Real.pi * Real.sin t with hexcess
  set crest := Real.arccos (Real.pi / 4) with hcrest
  have hderiv (t : ℝ) : HasDerivAt excess (Real.cos t * (4 * Real.cos t - Real.pi)) t := by
    refine ((hasDerivAt_stripArea t).sub ((Real.hasDerivAt_sin t).const_mul Real.pi)).congr_deriv ?_
    ring
  have hcontinuous : Continuous excess := by
    exact continuous_iff_continuousAt.mpr fun t => (hderiv t).continuousAt
  have hcos : Real.cos crest = Real.pi / 4 :=
    Real.cos_arccos (by linarith) (by linarith [Real.pi_le_four])
  have hcrest0 : 0 ≤ crest := Real.arccos_nonneg _
  have hcrest1 : crest ≤ Real.pi / 2 := Real.arccos_le_pi_div_two.mpr (by positivity)
  suffices hnonneg : 0 ≤ excess phi from sub_nonneg.mp hnonneg
  cases le_total phi crest with
  | inl hbelow =>
    have hmono : MonotoneOn excess (Icc 0 crest) := by
      refine monotoneOn_of_deriv_nonneg (convex_Icc 0 crest) hcontinuous.continuousOn
        (fun t _ => (hderiv t).differentiableAt.differentiableWithinAt) fun t ht => ?_
      rw [interior_Icc] at ht
      have hlarge := Real.cos_le_cos_of_nonneg_of_le_pi ht.1.le (by linarith) ht.2.le
      rw [(hderiv t).deriv]
      exact mul_nonneg (by linarith) (by linarith)
    have hequator : excess 0 = 0 := by simp [hexcess]
    exact hequator.symm.trans_le (hmono ⟨le_rfl, hcrest0⟩ ⟨h0, hbelow⟩ h0)
  | inr habove =>
    have hanti : AntitoneOn excess (Icc crest (Real.pi / 2)) := by
      refine antitoneOn_of_deriv_nonpos (convex_Icc crest _) hcontinuous.continuousOn
        (fun t _ => (hderiv t).differentiableAt.differentiableWithinAt) fun t ht => ?_
      rw [interior_Icc] at ht
      have hsmall := Real.cos_le_cos_of_nonneg_of_le_pi hcrest0 (by linarith [ht.2]) ht.1.le
      have hcos0 := Real.cos_nonneg_of_mem_Icc (x := t) ⟨by linarith [ht.1], ht.2.le⟩
      rw [(hderiv t).deriv]
      exact mul_nonpos_of_nonneg_of_nonpos hcos0 (by linarith)
    have hpole : excess (Real.pi / 2) = 0 := by simp [hexcess]
    exact hpole.symm.trans_le (hanti ⟨habove, h1⟩ ⟨hcrest1, le_rfl⟩ h1)

/-- The auxiliary angle is nearer to the equator than its latitude. -/
theorem abs_exactAngle_le {phi : ℝ} (h : |phi| ≤ Real.pi / 2) : |exactAngle phi| ≤ |phi| := by
  have hnorth {t : ℝ} (h0 : 0 ≤ t) (h1 : t ≤ Real.pi / 2) : exactAngle t ≤ t := by
    rw [← stripArea_strictMono.le_iff_le, stripArea_exactAngle]
    exact pi_mul_sin_le_stripArea h0 h1
  have hsize : exactAngle |phi| = |exactAngle phi| := by
    cases le_total 0 phi with
    | inl h0 => rw [abs_of_nonneg h0, abs_of_nonneg (exactAngle_nonneg h0 ((le_abs_self phi).trans h))]
    | inr h0 =>
      have hangle := exactAngle_nonneg (neg_nonneg.mpr h0) ((neg_le_abs phi).trans h)
      rw [exactAngle_neg] at hangle
      rw [abs_of_nonpos h0, abs_of_nonpos (neg_nonneg.mp hangle), exactAngle_neg]
  rw [← hsize]
  exact hnorth (abs_nonneg phi) h

theorem cos_le_cos_exactAngle {phi : ℝ} (h : |phi| ≤ Real.pi / 2) :
    Real.cos phi ≤ Real.cos (exactAngle phi) := by
  rw [← Real.cos_abs phi, ← Real.cos_abs (exactAngle phi)]
  exact Real.cos_le_cos_of_nonneg_of_le_pi (abs_nonneg _) (by linarith [Real.pi_pos])
    (abs_exactAngle_le h)

end Mollweide

namespace Branch
variable {b : Branch} {phi : ℝ}

theorem rowOf_continuous (b : Branch) : Continuous b.rowOf := by
  cases b with
  | sinusoidal => exact continuous_id
  | mollweide =>
    exact continuous_const.mul (Real.continuous_sin.comp Mollweide.exactAngle_continuous)

theorem scaleOf_pos_of_lt (b : Branch) (h : |phi| < Real.pi / 2) : 0 < b.scaleOf phi := by
  cases b with
  | sinusoidal => exact Real.cos_pos_of_mem_Ioo (abs_lt.mp h)
  | mollweide => exact mul_pos Mollweide.xFactor_pos (Mollweide.cos_exactAngle_pos h)

/-- Rows lie the denser the longer they are drawn, which is what keeps areas. -/
theorem hasDerivAt_rowOf (b : Branch) (h : |phi| < Real.pi / 2) :
    HasDerivAt b.rowOf (Real.cos phi / b.scaleOf phi) phi := by
  cases b with
  | sinusoidal =>
    exact (hasDerivAt_id phi).congr_deriv (div_self (scaleOf_pos_of_lt sinusoidal h).ne').symm
  | mollweide =>
    have hcos := Mollweide.cos_exactAngle_pos h
    have hpi := Real.pi_pos
    refine ((Mollweide.hasDerivAt_exactAngle h).sin.const_mul √2).congr_deriv ?_
    have hroot : √2 * √2 = 2 := Real.mul_self_sqrt two_pos.le
    rw [scaleOf, Mollweide.xFactor_real]
    field_simp
    linear_combination 2 * Real.cos phi * hroot

noncomputable def steepest : ℝ := √2 * Real.pi / 4

theorem steepest_mul_xFactor : steepest * Mollweide.xFactor = 1 := by
  have hroot : √2 * √2 = 2 := Real.mul_self_sqrt two_pos.le
  have hpi := Real.pi_pos
  rw [steepest, Mollweide.xFactor_real]
  field_simp
  linear_combination 2 * hroot

theorem slope_le_steepest (b : Branch) (h : |phi| < Real.pi / 2) :
    Real.cos phi / b.scaleOf phi ≤ steepest := by
  have hsteep : 0 ≤ steepest := by
    unfold steepest
    positivity
  rw [div_le_iff₀ (scaleOf_pos_of_lt b h)]
  cases b with
  | sinusoidal =>
    have hone : 1 ≤ steepest := by
      rw [← steepest_mul_xFactor]
      exact mul_le_of_le_one_right hsteep Mollweide.xFactor_le_one
    exact le_mul_of_one_le_left (Real.cos_nonneg_of_mem_Icc (abs_le.mp h.le)) hone
  | mollweide =>
    rw [scaleOf, ← mul_assoc, steepest_mul_xFactor, one_mul]
    exact Mollweide.cos_le_cos_exactAngle h.le

/-- Rows follow latitudes no faster than the steepest of them. -/
theorem steepest_mul_sub_rowOf_monotoneOn (b : Branch) :
    MonotoneOn (fun t => steepest * t - b.rowOf t) (Icc (-(Real.pi / 2)) (Real.pi / 2)) := by
  intro u hu v hv huv
  have hslope := (convex_Icc (-(Real.pi / 2)) (Real.pi / 2)).image_sub_le_mul_sub_of_deriv_le
    (f := b.rowOf) (C := steepest) (rowOf_continuous b).continuousOn
    (fun t ht => by
      rw [interior_Icc] at ht
      exact (hasDerivAt_rowOf b (abs_lt.mpr ht)).differentiableAt.differentiableWithinAt)
    (fun t ht => by
      rw [interior_Icc] at ht
      rw [(hasDerivAt_rowOf b (abs_lt.mpr ht)).deriv]
      exact slope_le_steepest b (abs_lt.mpr ht))
    u hu v hv huv
  simp only
  linarith

end Branch
end GoodeMap
