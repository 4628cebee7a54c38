import GoodeMap.Mollweide
import GoodeMap.Proofs.Reals
import Mathlib.Order.Hom.Set
import Mathlib.Topology.Order.IntermediateValue

/-! The exact auxiliary angle. The disc's area between two opposite rows grows strictly with their
angle and takes every value once, so each latitude has exactly one root and the root keeps the order of
latitudes. -/
namespace GoodeMap.Mollweide
open Scalar Set

noncomputable def stripArea (theta : ℝ) : ℝ := 2 * theta + Real.sin (2 * theta)

theorem stripArea_strictMono : StrictMono stripArea := by
  intro a b hab
  have hsum : Real.sin (2 * a) - Real.sin (2 * b) = 2 * Real.sin (a - b) * Real.cos (a + b) := by
    rw [Real.sin_sub_sin]
    ring_nf
  have hsin : |Real.sin (a - b)| < b - a := by
    rw [← abs_neg, ← Real.sin_neg, neg_sub]
    exact (Real.abs_sin_lt_abs (sub_pos.mpr hab).ne').trans_eq (abs_of_pos (sub_pos.mpr hab))
  have hprod : 2 * Real.sin (a - b) * Real.cos (a + b) ≤ 2 * |Real.sin (a - b)| := by
    have h := mul_le_mul_of_nonneg_left (Real.abs_cos_le_one (a + b)) (abs_nonneg (Real.sin (a - b)))
    rw [← abs_mul, mul_one] at h
    linarith [le_abs_self (Real.sin (a - b) * Real.cos (a + b))]
  unfold stripArea
  linarith

theorem stripArea_continuous : Continuous stripArea := by
  unfold stripArea
  fun_prop

theorem stripArea_surjective : Function.Surjective stripArea := by
  intro area
  have hlow : stripArea ((area - 1) / 2) ≤ area := by
    unfold stripArea
    linarith [Real.sin_le_one (2 * ((area - 1) / 2))]
  have hhigh : area ≤ stripArea ((area + 1) / 2) := by
    unfold stripArea
    linarith [Real.neg_one_le_sin (2 * ((area + 1) / 2))]
  exact mem_range_of_exists_le_of_exists_ge stripArea_continuous ⟨_, hlow⟩ ⟨_, hhigh⟩

theorem stripArea_neg (theta : ℝ) : stripArea (-theta) = -stripArea theta := by
  unfold stripArea
  rw [mul_neg, Real.sin_neg]
  ring

@[simp] theorem stripArea_zero : stripArea 0 = 0 := by
  simp [stripArea]

@[simp] theorem stripArea_halfPi : stripArea (Real.pi / 2) = Real.pi := by
  unfold stripArea
  rw [mul_div_cancel₀ Real.pi two_ne_zero, Real.sin_pi, add_zero]

noncomputable def stripIso : ℝ ≃o ℝ :=
  stripArea_strictMono.orderIsoOfSurjective stripArea stripArea_surjective

/-- The root `θ` of `2θ + sin 2θ = π sin φ`. -/
noncomputable def exactAngle (phi : ℝ) : ℝ := stripIso.symm (Real.pi * Real.sin phi)

theorem stripArea_exactAngle (phi : ℝ) : stripArea (exactAngle phi) = Real.pi * Real.sin phi :=
  stripIso.apply_symm_apply _

theorem exactAngle_eq_iff {phi theta : ℝ} :
    exactAngle phi = theta ↔ stripArea theta = Real.pi * Real.sin phi := by
  rw [← stripArea_exactAngle phi]
  exact (stripArea_strictMono.injective.eq_iff.trans eq_comm).symm

@[simp] theorem exactAngle_zero : exactAngle 0 = 0 := by
  rw [exactAngle_eq_iff, stripArea_zero, Real.sin_zero, mul_zero]

@[simp] theorem exactAngle_halfPi : exactAngle (Real.pi / 2) = Real.pi / 2 := by
  rw [exactAngle_eq_iff, stripArea_halfPi, Real.sin_pi_div_two, mul_one]

theorem exactAngle_neg (phi : ℝ) : exactAngle (-phi) = -exactAngle phi := by
  rw [exactAngle_eq_iff, stripArea_neg, stripArea_exactAngle, Real.sin_neg, mul_neg]

theorem exactAngle_lt_iff {a b : ℝ} : exactAngle a < exactAngle b ↔ Real.sin a < Real.sin b := by
  rw [← stripArea_strictMono.lt_iff_lt, stripArea_exactAngle, stripArea_exactAngle]
  exact mul_lt_mul_iff_right₀ Real.pi_pos

theorem exactAngle_le_iff {a b : ℝ} : exactAngle a ≤ exactAngle b ↔ Real.sin a ≤ Real.sin b := by
  rw [← not_lt, ← not_lt, exactAngle_lt_iff]

theorem exactAngle_nonneg {phi : ℝ} (h0 : 0 ≤ phi) (h1 : phi ≤ Real.pi / 2) : 0 ≤ exactAngle phi := by
  rw [← exactAngle_zero, exactAngle_le_iff, Real.sin_zero]
  exact Real.sin_nonneg_of_nonneg_of_le_pi h0 (h1.trans (half_le_self Real.pi_pos.le))

theorem exactAngle_strictMonoOn : StrictMonoOn exactAngle (Icc (-(Real.pi / 2)) (Real.pi / 2)) :=
  fun _ ha _ hb hab => exactAngle_lt_iff.mpr (Real.strictMonoOn_sin ha hb hab)

theorem exactAngle_mem (phi : ℝ) : exactAngle phi ∈ Icc (-(Real.pi / 2)) (Real.pi / 2) := by
  have hsouth : exactAngle (-(Real.pi / 2)) = -(Real.pi / 2) := by
    rw [exactAngle_neg, exactAngle_halfPi]
  constructor
  · rw [← hsouth, exactAngle_le_iff, Real.sin_neg, Real.sin_pi_div_two]
    exact Real.neg_one_le_sin phi
  · rw [← exactAngle_halfPi, exactAngle_le_iff, Real.sin_pi_div_two]
    exact Real.sin_le_one phi

theorem cos_exactAngle_nonneg (phi : ℝ) : 0 ≤ Real.cos (exactAngle phi) :=
  Real.cos_nonneg_of_mem_Icc (exactAngle_mem phi)

noncomputable def exact : Mollweide ℝ where
  auxiliaryAngle phi :=
    if Within (-halfPi) halfPi phi then .ok (exactAngle phi) else .error (.latitudeOf "Mollweide" phi)

theorem auxiliaryAngle_exact {phi : ℝ} (h : |phi| ≤ Real.pi / 2) :
    exact.auxiliaryAngle phi = .ok (exactAngle phi) :=
  if_pos (within_neg_iff.mpr (h.trans_eq halfPi_real.symm))

theorem latitude_real (theta : ℝ) : latitude theta = Real.arcsin (stripArea theta / Real.pi) := by
  have harea : (2.0 : ℝ) * theta + Real.sin (2.0 * theta) = stripArea theta := by
    norm_num [stripArea]
  exact (arcsin_clip _).trans (congrArg (fun area => Real.arcsin (area / Real.pi)) harea)

theorem abs_latitude_le (theta : ℝ) : |latitude theta| ≤ Real.pi / 2 := by
  rw [latitude_real]
  exact abs_le.mpr (Real.arcsin_mem_Icc _)

theorem latitude_exactAngle {phi : ℝ} (h : |phi| ≤ Real.pi / 2) : latitude (exactAngle phi) = phi := by
  rw [latitude_real, stripArea_exactAngle, mul_div_cancel_left₀ _ Real.pi_ne_zero]
  exact Real.arcsin_sin (abs_le.mp h).1 (abs_le.mp h).2

theorem exactAngle_latitude {theta : ℝ} (h : |theta| ≤ Real.pi / 2) :
    exactAngle (latitude theta) = theta := by
  have hmono := stripArea_strictMono.monotone
  have hhigh : stripArea theta / Real.pi ≤ 1 := by
    rw [div_le_one Real.pi_pos, ← stripArea_halfPi]
    exact hmono (abs_le.mp h).2
  have hlow : -1 ≤ stripArea theta / Real.pi := by
    rw [le_div_iff₀ Real.pi_pos, neg_one_mul, ← stripArea_halfPi, ← stripArea_neg]
    exact hmono (abs_le.mp h).1
  rw [exactAngle_eq_iff, latitude_real, Real.sin_arcsin hlow hhigh, mul_div_cancel₀ _ Real.pi_ne_zero]

end GoodeMap.Mollweide
