import GoodeMap.Scalar
import Mathlib.Analysis.SpecialFunctions.Trigonometric.Inverse
import Mathlib.Analysis.SpecialFunctions.Trigonometric.Bounds

/-! Real numbers as a carrier. Every member is finite and meets itself; the functions are the exact
ones. The lemmas read the carrier's words in the usual ones. -/
namespace GoodeMap

noncomputable instance : Scalar ℝ where
  decidableLE := inferInstance
  decidableLT := inferInstance
  pi := Real.pi
  abs := fun x => |x|
  sqrt := Real.sqrt
  sin := Real.sin
  cos := Real.cos
  asin := Real.arcsin
  copySign := fun size sign => if sign < 0 then -|size| else |size|
  floorMod := fun a b => a - b * ⌊a / b⌋
  isFinite := fun _ => true

-- With a constant for its instance the numeral reads the same in every definition.
instance two_atLeastTwo : Nat.AtLeastTwo 2 := ⟨le_rfl⟩

namespace Scalar

@[simp] theorem pi_real : (pi : ℝ) = Real.pi := rfl
@[simp] theorem abs_real (x : ℝ) : abs x = |x| := rfl
@[simp] theorem sqrt_real (x : ℝ) : sqrt x = √x := rfl
@[simp] theorem sin_real (x : ℝ) : sin x = Real.sin x := rfl
@[simp] theorem cos_real (x : ℝ) : cos x = Real.cos x := rfl
@[simp] theorem asin_real (x : ℝ) : asin x = Real.arcsin x := rfl

theorem abs_pi_div_two : |Real.pi / 2| = Real.pi / 2 := abs_of_pos (half_pos Real.pi_pos)

theorem abs_zero_lt_halfPi : |(0 : ℝ)| < Real.pi / 2 := abs_zero.trans_lt (half_pos Real.pi_pos)

theorem floorMod_real (a b : ℝ) : floorMod a b = a - b * ⌊a / b⌋ := rfl

@[simp] theorem halfPi_real : (halfPi : ℝ) = Real.pi / 2 := by
  change Real.pi / 2.0 = Real.pi / 2
  norm_num

@[simp] theorem twoPi_real : (twoPi : ℝ) = 2 * Real.pi := by
  change 2.0 * Real.pi = 2 * Real.pi
  norm_num

@[simp] theorem sqrtTwo_real : (sqrtTwo : ℝ) = √2 := by
  change √2.0 = √2
  norm_num

theorem copySign_of_nonneg (size : ℝ) {sign : ℝ} (h : 0 ≤ sign) : copySign size sign = |size| :=
  if_neg (not_lt.mpr h)

theorem copySign_of_neg (size : ℝ) {sign : ℝ} (h : sign < 0) : copySign size sign = -|size| :=
  if_pos h

@[simp] theorem abs_copySign (size sign : ℝ) : |copySign size sign| = |size| := by
  cases lt_or_ge sign 0 with
  | inl h => rw [copySign_of_neg size h, abs_neg, abs_abs]
  | inr h => rw [copySign_of_nonneg size h, abs_abs]

@[simp] theorem meets_iff {a b : ℝ} : Meets a b ↔ a = b := le_antisymm_iff.symm

theorem within_neg_iff {size x : ℝ} : Within (-size) size x ↔ |x| ≤ size := abs_le.symm

theorem within_halfPi_iff {phi : ℝ} : Within (-halfPi) halfPi phi ↔ |phi| ≤ Real.pi / 2 := by
  rw [within_neg_iff, halfPi_real]

@[simp] theorem lesser_real (a b : ℝ) : lesser a b = min a b := by
  unfold lesser
  split_ifs with h
  · exact (min_eq_right h.le).symm
  · exact (min_eq_left (not_lt.mp h)).symm

@[simp] theorem larger_real (a b : ℝ) : larger a b = max a b := by
  unfold larger
  split_ifs with h
  · exact (max_eq_right h.le).symm
  · exact (max_eq_left (not_lt.mp h)).symm

/-- A cut to an interval does not show behind a function that cuts there itself. -/
theorem arcsin_clip (x : ℝ) : Real.arcsin (clip (-1.0) 1.0 x) = Real.arcsin x := by
  have hlow : (-1.0 : ℝ) = -1 := by norm_num
  have hhigh : (1.0 : ℝ) = 1 := by norm_num
  unfold clip
  split_ifs with h h'
  · rw [Real.arcsin_of_le_neg_one (le_of_lt (h.trans_eq hlow))]
    exact (congrArg Real.arcsin hlow).trans Real.arcsin_neg_one
  · rw [Real.arcsin_of_one_le (le_of_lt (hhigh.symm.trans_lt h'))]
    exact (congrArg Real.arcsin hhigh).trans Real.arcsin_one
  · rfl

/-- Brought back to an interval a value is moved by no more than it was past the ends. -/
theorem abs_clamp_sub_le {low high x slack : ℝ} (hends : low ≤ high) (h0 : 0 ≤ slack)
    (h : Within (low - slack) (high + slack) x) : |max low (min x high) - x| ≤ slack := by
  obtain ⟨hlow, hhigh⟩ := h
  cases le_total x high with
  | inl hx =>
    rw [min_eq_left hx, abs_of_nonneg (sub_nonneg.mpr (le_max_right low x)), sub_le_iff_le_add']
    exact max_le (by linarith) (by linarith)
  | inr hx =>
    rw [min_eq_right hx, max_eq_right hends, abs_of_nonpos (sub_nonpos.mpr hx)]
    linarith

end Scalar
end GoodeMap
