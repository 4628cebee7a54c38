import GoodeMap.Homolosine
import GoodeMap.Proofs.AuxiliaryAngle
import Mathlib.Analysis.Real.Pi.Bounds

/-! Parallels in the two plain projections. Both draw a parallel as a straight row at one scale, so a
projection is known by the row and the scale of each latitude; its inverse reads the latitude off the row
and divides by the scale, unless the row counts as the pole. -/
namespace GoodeMap
open Mollweide (exactAngle stripArea xFactor)

namespace Mollweide

theorem xFactor_real : (xFactor : ℝ) = 2 * √2 / Real.pi := by
  have h : (2.0 : ℝ) * √2 / Real.pi = 2 * √2 / Real.pi := by norm_num
  rw [← h, ← Scalar.sqrtTwo_real]
  rfl

theorem xFactor_pos : 0 < (xFactor : ℝ) := by
  rw [xFactor_real]
  exact div_pos (mul_pos two_pos (Real.sqrt_pos.mpr two_pos)) Real.pi_pos

theorem xFactor_le_one : (xFactor : ℝ) ≤ 1 := by
  have hsqrt : √2 ≤ 1.5 := (Real.sqrt_le_left (by norm_num)).mpr (by norm_num)
  rw [xFactor_real, div_le_one Real.pi_pos]
  linarith [Real.pi_gt_three]

theorem poleCosine_pos : 0 < (poleCosine : ℝ) := by
  change (0 : ℝ) < 1e-15
  norm_num

theorem angleOfRow?_real (y : ℝ) : angleOfRow? y =
    if 1 < |y / √2| - ratioSlack then none else some (Real.arcsin (y / √2)) := by
  have hratio : y / (yFactor : ℝ) = y / √2 := congrArg (y / ·) Scalar.sqrtTwo_real
  have hone : (1.0 : ℝ) = 1 := by norm_num
  have hslack : (0 : ℝ) < ratioSlack := by
    change (0 : ℝ) < 1e-12
    norm_num
  simp only [angleOfRow?, hratio, hone, Scalar.abs_real, Scalar.asin_real]
  split_ifs with hout hfar hfar
  · rfl
  · congr 1
    cases lt_abs.mp hout with
    | inl h =>
      rw [Scalar.copySign_of_nonneg 1 (by linarith), abs_one, Real.arcsin_one,
        Real.arcsin_of_one_le h.le]
    | inr h =>
      rw [Scalar.copySign_of_neg 1 (by linarith), abs_one, Real.arcsin_neg_one,
        Real.arcsin_of_le_neg_one (by linarith)]
  · linarith
  · rfl

end Mollweide

namespace Branch

noncomputable def rowOf : Branch → ℝ → ℝ
  | sinusoidal, phi => phi
  | mollweide, phi => √2 * Real.sin (exactAngle phi)

noncomputable def scaleOf : Branch → ℝ → ℝ
  | sinusoidal, phi => Real.cos phi
  | mollweide, phi => xFactor * Real.cos (exactAngle phi)

noncomputable def reach : Branch → ℝ
  | sinusoidal => Real.pi / 2
  | mollweide => √2

noncomputable def latitudeOf : Branch → ℝ → ℝ
  | sinusoidal, y => max (-(Real.pi / 2)) (min y (Real.pi / 2))
  | mollweide, y => Mollweide.latitude (Real.arcsin (y / √2))

def Pinched : Branch → ℝ → Prop
  | sinusoidal, phi => ¬ |phi| < Real.pi / 2
  | mollweide, phi => Mollweide.AtPole (exactAngle phi)

noncomputable def longitudeOf (b : Branch) (x phi : ℝ) : ℝ :=
  open Classical in if b.Pinched phi then 0 else x / b.scaleOf phi

theorem reach_pos (b : Branch) : 0 < b.reach := by
  cases b with
  | sinusoidal => exact half_pos Real.pi_pos
  | mollweide => exact Real.sqrt_pos.mpr two_pos

theorem scaleOf_nonneg (b : Branch) {phi : ℝ} (h : |phi| ≤ Real.pi / 2) : 0 ≤ b.scaleOf phi := by
  cases b with
  | sinusoidal => exact Real.cos_nonneg_of_mem_Icc (abs_le.mp h)
  | mollweide => exact mul_nonneg Mollweide.xFactor_pos.le (Mollweide.cos_exactAngle_nonneg phi)

theorem scaleOf_le_one (b : Branch) (phi : ℝ) : b.scaleOf phi ≤ 1 := by
  cases b with
  | sinusoidal => exact Real.cos_le_one phi
  | mollweide =>
    have hcos := Mollweide.cos_exactAngle_nonneg phi
    exact mul_le_one₀ Mollweide.xFactor_le_one hcos (Real.cos_le_one _)

@[simp] theorem scaleOf_halfPi (b : Branch) : b.scaleOf (Real.pi / 2) = 0 := by
  cases b with
  | sinusoidal => exact Real.cos_pi_div_two
  | mollweide => simp [scaleOf]

theorem scaleOf_pos {b : Branch} {phi : ℝ} (h : ¬ b.Pinched phi) : 0 < b.scaleOf phi := by
  cases b with
  | sinusoidal => exact Real.cos_pos_of_mem_Ioo (abs_lt.mp (not_not.mp h))
  | mollweide =>
    have hcos : (Mollweide.poleCosine : ℝ) ≤ |Real.cos (exactAngle phi)| := not_lt.mp h
    rw [abs_of_nonneg (Mollweide.cos_exactAngle_nonneg phi)] at hcos
    exact mul_pos Mollweide.xFactor_pos (Mollweide.poleCosine_pos.trans_le hcos)

theorem longitudeOf_of_pinched {b : Branch} {phi : ℝ} (h : b.Pinched phi) (x : ℝ) :
    b.longitudeOf x phi = 0 :=
  if_pos h

theorem longitudeOf_of_not_pinched {b : Branch} {phi : ℝ} (h : ¬ b.Pinched phi) (x : ℝ) :
    b.longitudeOf x phi = x / b.scaleOf phi :=
  if_neg h

theorem longitudeOf_mul_scaleOf {b : Branch} {phi : ℝ} (h : ¬ b.Pinched phi) (lam : ℝ) :
    b.longitudeOf (lam * b.scaleOf phi) phi = lam := by
  rw [longitudeOf_of_not_pinched h]
  exact mul_div_cancel_right₀ lam (scaleOf_pos h).ne'

theorem scaleOf_mul_longitudeOf {b : Branch} {phi : ℝ} (h : ¬ b.Pinched phi) (x : ℝ) :
    b.longitudeOf x phi * b.scaleOf phi = x := by
  rw [longitudeOf_of_not_pinched h]
  exact div_mul_cancel₀ x (scaleOf_pos h).ne'

theorem rowOf_neg (b : Branch) (phi : ℝ) : b.rowOf (-phi) = -b.rowOf phi := by
  cases b with
  | sinusoidal => rfl
  | mollweide => simp only [rowOf, Mollweide.exactAngle_neg, Real.sin_neg, mul_neg]

@[simp] theorem rowOf_zero (b : Branch) : b.rowOf 0 = 0 := by
  cases b with
  | sinusoidal => rfl
  | mollweide => simp [rowOf]

@[simp] theorem rowOf_halfPi (b : Branch) : b.rowOf (Real.pi / 2) = b.reach := by
  cases b with
  | sinusoidal => rfl
  | mollweide => simp [rowOf, reach]

theorem rowOf_strictMonoOn (b : Branch) :
    StrictMonoOn b.rowOf (Set.Icc (-(Real.pi / 2)) (Real.pi / 2)) := by
  cases b with
  | sinusoidal => exact strictMonoOn_id
  | mollweide =>
    intro u hu v hv huv
    have hangle := Mollweide.exactAngle_strictMonoOn hu hv huv
    have hsin := Real.strictMonoOn_sin (Mollweide.exactAngle_mem u) (Mollweide.exactAngle_mem v) hangle
    exact mul_lt_mul_of_pos_left hsin (Real.sqrt_pos.mpr two_pos)

/-- A row within reach is the row of its latitude, one past a pole the pole's. -/
theorem rowOf_latitudeOf (b : Branch) (y : ℝ) :
    b.rowOf (b.latitudeOf y) = max (-b.reach) (min y b.reach) := by
  cases b with
  | sinusoidal => rfl
  | mollweide =>
    have hroot : 0 < √2 := Real.sqrt_pos.mpr two_pos
    have hangle : exactAngle (Mollweide.latitude (Real.arcsin (y / √2))) = Real.arcsin (y / √2) :=
      Mollweide.exactAngle_latitude (abs_le.mpr (Real.arcsin_mem_Icc _))
    simp only [rowOf, latitudeOf, reach, hangle]
    cases le_total y (-√2) with
    | inl hlow =>
      rw [Real.arcsin_of_le_neg_one ((div_le_iff₀ hroot).mpr (by linarith)), Real.sin_neg,
        Real.sin_pi_div_two, min_eq_left (by linarith), max_eq_left hlow]
      ring
    | inr hlow =>
      cases le_total y √2 with
      | inl hhigh =>
        rw [Real.sin_arcsin ((le_div_iff₀ hroot).mpr (by linarith))
          ((div_le_one hroot).mpr hhigh), min_eq_left hhigh, max_eq_right hlow,
          mul_div_cancel₀ y hroot.ne']
      | inr hhigh =>
        rw [Real.arcsin_of_one_le ((one_le_div hroot).mpr hhigh), Real.sin_pi_div_two,
          min_eq_right hhigh, max_eq_right (by linarith), mul_one]

theorem abs_latitudeOf_le (b : Branch) (y : ℝ) : |b.latitudeOf y| ≤ Real.pi / 2 := by
  cases b with
  | sinusoidal =>
    have hpi := Real.pi_pos
    exact abs_le.mpr ⟨le_max_left _ _, max_le (by linarith) (min_le_right _ _)⟩
  | mollweide => exact Mollweide.abs_latitude_le _

theorem rowOf_latitudeOf_of_le (b : Branch) {y : ℝ} (h : |y| ≤ b.reach) :
    b.rowOf (b.latitudeOf y) = y := by
  rw [rowOf_latitudeOf, min_eq_left (abs_le.mp h).2, max_eq_right (abs_le.mp h).1]

theorem abs_rowOf_le (b : Branch) {phi : ℝ} (h : |phi| ≤ Real.pi / 2) : |b.rowOf phi| ≤ b.reach := by
  have hpi := Real.pi_pos
  have hmono := (rowOf_strictMonoOn b).monotoneOn
  have hphi := abs_le.mp h
  have hnorth : Real.pi / 2 ∈ Set.Icc (-(Real.pi / 2)) (Real.pi / 2) := ⟨by linarith, le_rfl⟩
  have hsouth : -(Real.pi / 2) ∈ Set.Icc (-(Real.pi / 2)) (Real.pi / 2) := ⟨le_rfl, by linarith⟩
  rw [abs_le, ← rowOf_halfPi, ← rowOf_neg]
  exact ⟨hmono hsouth hphi hphi.1, hmono hphi hnorth hphi.2⟩

theorem latitudeOf_rowOf (b : Branch) {phi : ℝ} (h : |phi| ≤ Real.pi / 2) :
    b.latitudeOf (b.rowOf phi) = phi := by
  have hrow := rowOf_latitudeOf_of_le b (abs_rowOf_le b h)
  exact (rowOf_strictMonoOn b).injOn (abs_le.mp (abs_latitudeOf_le b _)) (abs_le.mp h) hrow

theorem latitudeOf_of_lt {y : ℝ} (h : |y| < Real.pi / 2) : sinusoidal.latitudeOf y = y :=
  rowOf_latitudeOf_of_le sinusoidal h.le

/-- Past a pole the sinusoidal latitude is the size of the pole's with the row's sign. -/
theorem latitudeOf_of_not_lt {y : ℝ} (h : ¬ |y| < Real.pi / 2) :
    sinusoidal.latitudeOf y = Scalar.copySign (Real.pi / 2) y := by
  have hpi := Real.pi_pos
  cases le_abs.mp (not_lt.mp h) with
  | inl hnorth =>
    rw [Scalar.copySign_of_nonneg _ (by linarith), abs_of_pos (by linarith)]
    simp only [latitudeOf, min_eq_right hnorth]
    exact max_eq_right (by linarith)
  | inr hsouth =>
    rw [Scalar.copySign_of_neg _ (by linarith), abs_of_pos (by linarith)]
    simp only [latitudeOf]
    exact max_eq_left ((min_le_left _ _).trans (by linarith))

end Branch

theorem Sinusoidal.forward_real (lam : ℝ) {phi : ℝ} (h : |phi| ≤ Real.pi / 2) :
    Sinusoidal.forward lam phi =
      .ok (lam * Branch.sinusoidal.scaleOf phi, Branch.sinusoidal.rowOf phi) :=
  if_pos (Scalar.within_neg_iff.mpr (h.trans_eq Scalar.halfPi_real.symm))

theorem Mollweide.forward_exact (lam : ℝ) {phi : ℝ} (h : |phi| ≤ Real.pi / 2) :
    Mollweide.exact.forward lam phi =
      .ok (lam * Branch.mollweide.scaleOf phi, Branch.mollweide.rowOf phi) := by
  have hx : xFactor * lam * Real.cos (exactAngle phi) = lam * Branch.mollweide.scaleOf phi := by
    rw [Branch.scaleOf, mul_comm xFactor lam, mul_assoc]
  have hy : (Mollweide.yFactor : ℝ) * Real.sin (exactAngle phi) = Branch.mollweide.rowOf phi :=
    congrArg (· * Real.sin (exactAngle phi)) Scalar.sqrtTwo_real
  rw [Mollweide.forward, Mollweide.auxiliaryAngle_exact h, ← hx, ← hy]
  rfl

theorem Sinusoidal.inverse_real (x : ℝ) {y : ℝ} (hy : |y| - Sinusoidal.poleSlack < Real.pi / 2) :
    Sinusoidal.inverse x y = .ok (Branch.sinusoidal.longitudeOf x (Branch.sinusoidal.latitudeOf y),
      Branch.sinusoidal.latitudeOf y) := by
  have hzero : (0.0 : ℝ) = 0 := by norm_num
  simp only [Sinusoidal.inverse, Scalar.abs_real, Scalar.halfPi_real, hzero]
  by_cases h : |y| < Real.pi / 2
  · have hfree : ¬ Branch.sinusoidal.Pinched y := not_not.mpr h
    rw [if_pos h, Branch.latitudeOf_of_lt h, Branch.longitudeOf_of_not_pinched hfree]
    rfl
  · have hpole : Branch.sinusoidal.Pinched (Branch.sinusoidal.latitudeOf y) := by
      rw [Branch.latitudeOf_of_not_lt h, Branch.Pinched, Scalar.abs_copySign,
        Scalar.abs_pi_div_two]
      exact lt_irrefl _
    rw [if_neg h, if_pos hy, Branch.longitudeOf_of_pinched hpole, Branch.latitudeOf_of_not_lt h]

theorem Mollweide.exactAngle_latitudeOf (y : ℝ) :
    exactAngle (Branch.mollweide.latitudeOf y) = Real.arcsin (y / √2) :=
  Mollweide.exactAngle_latitude (abs_le.mpr (Real.arcsin_mem_Icc _))

theorem Mollweide.angleOfRow?_of_le {y : ℝ} (hy : |y| ≤ √2 + Mollweide.ratioSlack) :
    Mollweide.angleOfRow? y = some (exactAngle (Branch.mollweide.latitudeOf y)) := by
  have hslack : (Mollweide.ratioSlack : ℝ) = 1e-12 := rfl
  have hroot : 1 ≤ √2 := Real.one_le_sqrt.mpr one_le_two
  have hpos : 0 < √2 := one_pos.trans_le hroot
  have hratio : ¬ 1 < |y / √2| - Mollweide.ratioSlack := by
    rw [hslack] at hy ⊢
    rw [not_lt, tsub_le_iff_right, abs_div, abs_of_pos hpos, div_le_iff₀ hpos]
    linarith
  rw [Mollweide.angleOfRow?_real, if_neg hratio, Mollweide.exactAngle_latitudeOf]

theorem Mollweide.longitude_exactAngle (x phi : ℝ) :
    Mollweide.longitude x (exactAngle phi) = Branch.mollweide.longitudeOf x phi := by
  by_cases h : Mollweide.AtPole (exactAngle phi)
  · have hzero : (0.0 : ℝ) = 0 := by norm_num
    rw [Mollweide.longitude, if_pos h, hzero]
    exact (Branch.longitudeOf_of_pinched (b := .mollweide) h x).symm
  · rw [Mollweide.longitude, if_neg h]
    exact (Branch.longitudeOf_of_not_pinched (b := .mollweide) h x).symm

theorem Mollweide.inverse_real (x : ℝ) {y : ℝ} (hy : |y| ≤ √2 + Mollweide.ratioSlack) :
    Mollweide.inverse x y = .ok (Branch.mollweide.longitudeOf x (Branch.mollweide.latitudeOf y),
      Branch.mollweide.latitudeOf y) := by
  have hback := Mollweide.latitude_exactAngle (Branch.abs_latitudeOf_le .mollweide y)
  rw [Mollweide.inverse, Mollweide.angleOfRow?_of_le hy]
  simp only [hback, Mollweide.longitude_exactAngle]

theorem Sinusoidal.xScale_real (y : ℝ) :
    Sinusoidal.xScale y = Branch.sinusoidal.scaleOf (Branch.sinusoidal.latitudeOf y) := by
  have hclamp : min |y| (Real.pi / 2) = |Branch.sinusoidal.latitudeOf y| := by
    by_cases h : |y| < Real.pi / 2
    · rw [Branch.latitudeOf_of_lt h, min_eq_left h.le]
    · rw [Branch.latitudeOf_of_not_lt h, min_eq_right (not_lt.mp h), Scalar.abs_copySign,
        Scalar.abs_pi_div_two]
  simp only [Sinusoidal.xScale, Branch.scaleOf, Scalar.lesser_real, Scalar.abs_real,
    Scalar.halfPi_real, Scalar.cos_real, hclamp, Real.cos_abs]

theorem Mollweide.xScale_real (y : ℝ) :
    Mollweide.xScale y = Branch.mollweide.scaleOf (Branch.mollweide.latitudeOf y) := by
  have hone : (1.0 : ℝ) = 1 := by norm_num
  have hratio : |y| / (Mollweide.yFactor : ℝ) = |y / √2| := by
    rw [abs_div, abs_of_pos (Real.sqrt_pos.mpr two_pos)]
    exact congrArg (|y| / ·) Scalar.sqrtTwo_real
  simp only [Mollweide.xScale, Branch.scaleOf, Mollweide.exactAngle_latitudeOf, Real.cos_arcsin,
    Scalar.lesser_real, Scalar.abs_real, Scalar.sqrt_real, hratio, hone]
  cases le_total |y / √2| 1 with
  | inl h => rw [min_eq_left h, ← sq_abs (y / √2), sq]
  | inr h =>
    have hpast : 1 - (y / √2) ^ 2 ≤ 0 := by nlinarith [sq_abs (y / √2)]
    have hpole : (1 : ℝ) - 1 * 1 = 0 := by norm_num
    rw [min_eq_right h, Real.sqrt_eq_zero_of_nonpos hpast, ← Real.sqrt_zero, ← hpole]

namespace Homolosine

theorem poleRowSlack_nonneg : (0 : ℝ) ≤ poleRowSlack := by
  change (0 : ℝ) ≤ 1e-12
  norm_num

theorem inverseLocal_real (b : Branch) (x : ℝ) {y : ℝ} (hy : |y| ≤ b.reach + poleRowSlack) :
    inverseLocal b x y = .ok (b.longitudeOf x (b.latitudeOf y), b.latitudeOf y) := by
  cases b with
  | sinusoidal =>
    have hslack : (poleRowSlack : ℝ) = 1e-12 := rfl
    have hpole : (Sinusoidal.poleSlack : ℝ) = 1e-10 := rfl
    simp only [Branch.reach, hslack] at hy
    refine Sinusoidal.inverse_real x ?_
    rw [hpole]
    linarith
  | mollweide => exact Mollweide.inverse_real x hy

theorem xScaleOf_real (b : Branch) (y : ℝ) : xScaleOf b y = b.scaleOf (b.latitudeOf y) := by
  cases b with
  | sinusoidal => exact Sinusoidal.xScale_real y
  | mollweide => exact Mollweide.xScale_real y

end Homolosine
end GoodeMap
