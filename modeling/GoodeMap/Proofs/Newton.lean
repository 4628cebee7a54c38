import GoodeMap.Proofs.RowSlope

/-! Newton's method for the auxiliary angle, in exact arithmetic. The sum `t + sin t` is increasing and
concave up to a half turn, so an estimate short of the root stays short of it; the distance from the half
turn shrinks by no more than half in a step, which keeps the slope from falling too fast. -/
namespace GoodeMap.Mollweide
open Scalar Set

/-- The sine lies below its tangents. -/
theorem sin_le_tangent {a b : ℝ} (ha : a ∈ Icc 0 Real.pi) (hb : b ∈ Icc 0 Real.pi) :
    Real.sin b ≤ Real.sin a + Real.cos a * (b - a) := by
  rcases lt_trichotomy a b with hab | rfl | hab
  · obtain ⟨c, ⟨hac, hcb⟩, hc⟩ := exists_deriv_eq_slope Real.sin hab Real.continuousOn_sin
      Real.differentiable_sin.differentiableOn
    rw [Real.deriv_sin, eq_div_iff (sub_pos.mpr hab).ne'] at hc
    have hcos : Real.cos c ≤ Real.cos a :=
      Real.cos_le_cos_of_nonneg_of_le_pi ha.1 (hcb.le.trans hb.2) hac.le
    have := mul_le_mul_of_nonneg_right hcos (sub_pos.mpr hab).le
    linarith
  · simp
  · obtain ⟨c, ⟨hbc, hca⟩, hc⟩ := exists_deriv_eq_slope Real.sin hab Real.continuousOn_sin
      Real.differentiable_sin.differentiableOn
    rw [Real.deriv_sin, eq_div_iff (sub_pos.mpr hab).ne'] at hc
    have hcos : Real.cos a ≤ Real.cos c :=
      Real.cos_le_cos_of_nonneg_of_le_pi (hb.1.trans hbc.le) ha.2 hca.le
    have := mul_le_mul_of_nonneg_right hcos (sub_pos.mpr hab).le
    linarith

theorem mul_cos_le_sin {a : ℝ} (ha : a ∈ Icc 0 Real.pi) : a * Real.cos a ≤ Real.sin a := by
  have h := sin_le_tangent ha ⟨le_rfl, Real.pi_pos.le⟩
  rw [Real.sin_zero] at h
  linarith

/-- From nothing on the sine falls behind every line. -/
theorem mul_sin_le_mul_sin {a b : ℝ} (h0 : 0 ≤ a) (hab : a ≤ b) (hb : b ≤ Real.pi) :
    a * Real.sin b ≤ b * Real.sin a := by
  have ha : a ∈ Icc 0 Real.pi := ⟨h0, hab.trans hb⟩
  calc a * Real.sin b
      ≤ a * (Real.sin a + Real.cos a * (b - a)) :=
        mul_le_mul_of_nonneg_left (sin_le_tangent ha ⟨h0.trans hab, hb⟩) h0
    _ = a * Real.sin a + a * Real.cos a * (b - a) := by ring
    _ ≤ a * Real.sin a + Real.sin a * (b - a) := by
        gcongr
        exact mul_cos_le_sin ha
    _ = b * Real.sin a := by ring

theorem one_sub_cos_eq (u : ℝ) : 1 - Real.cos u = 2 * Real.sin (u / 2) ^ 2 := by
  have h := Real.cos_two_mul (u / 2)
  rw [mul_div_cancel₀ u two_ne_zero] at h
  rw [h, Real.cos_sq']
  ring

/-- Toward the half turn the slope `1 - cos u` falls no faster than the square of the distance. -/
theorem sq_mul_one_sub_cos_le {u w : ℝ} (h0 : 0 ≤ w) (hw : w ≤ u) (hu : u ≤ Real.pi) :
    w ^ 2 * (1 - Real.cos u) ≤ u ^ 2 * (1 - Real.cos w) := by
  have hsin : w / 2 * Real.sin (u / 2) ≤ u / 2 * Real.sin (w / 2) :=
    mul_sin_le_mul_sin (by linarith) (by linarith) (by linarith)
  have hnonneg : 0 ≤ w / 2 * Real.sin (u / 2) :=
    mul_nonneg (by linarith) (Real.sin_nonneg_of_nonneg_of_le_pi (by linarith) (by linarith))
  have hsq := pow_le_pow_left₀ hnonneg hsin 2
  rw [one_sub_cos_eq, one_sub_cos_eq]
  linarith [hsq]

/-- A step takes at most half of the distance from the half turn. -/
theorem two_mul_sub_sin_le {u : ℝ} (h0 : 0 ≤ u) (hu : u ≤ Real.pi) :
    2 * (u - Real.sin u) ≤ u * (1 - Real.cos u) := by
  have hhalf : u / 2 ∈ Icc 0 Real.pi := ⟨by linarith, by linarith⟩
  have hcos : 0 ≤ Real.cos (u / 2) := Real.cos_nonneg_of_mem_Icc ⟨by linarith, by linarith⟩
  have h := mul_le_mul_of_nonneg_right (mul_cos_le_sin hhalf) hcos
  have hsin := Real.sin_two_mul (u / 2)
  have hdouble := Real.cos_two_mul (u / 2)
  rw [mul_div_cancel₀ u two_ne_zero] at hsin hdouble
  rw [hsin, hdouble]
  linarith

/-- What is lost on the way from `u` to `v` is at least what a cubic with the same slope at `u` loses. -/
theorem cubic_le_sub_sin {u v : ℝ} (h0 : 0 ≤ v) (hv : v ≤ u) (hu : u ≤ Real.pi) :
    (1 - Real.cos u) * (u ^ 3 - v ^ 3) ≤ 3 * u ^ 2 * ((u - Real.sin u) - (v - Real.sin v)) := by
  set lag : ℝ → ℝ := fun w => 3 * u ^ 2 * (w - Real.sin w) - (1 - Real.cos u) * w ^ 3 with hlag
  have hderiv (w : ℝ) :
      HasDerivAt lag (3 * u ^ 2 * (1 - Real.cos w) - (1 - Real.cos u) * (3 * w ^ 2)) w := by
    refine ((((hasDerivAt_id w).sub (Real.hasDerivAt_sin w)).const_mul _).sub
      ((hasDerivAt_pow 3 w).const_mul _)).congr_deriv ?_
    norm_num
  have hmono : MonotoneOn lag (Icc 0 u) := by
    refine monotoneOn_of_deriv_nonneg (convex_Icc 0 u)
      (fun w _ => (hderiv w).continuousAt.continuousWithinAt)
      (fun w _ => (hderiv w).differentiableAt.differentiableWithinAt) fun w hw => ?_
    rw [interior_Icc] at hw
    rw [(hderiv w).deriv]
    linarith [sq_mul_one_sub_cos_le hw.1.le hw.2.le hu]
  have h := hmono ⟨h0, hv⟩ ⟨h0.trans hv, le_rfl⟩ hv
  simp only [hlag] at h
  linarith

section
variable {target t : ℝ}

theorem residual_real (target t : ℝ) : residual target t = t + Real.sin t - target := rfl

theorem step_real (target t : ℝ) : step target t = residual target t / (1 + Real.cos t) := by
  have hone : (1.0 : ℝ) = 1 := by norm_num
  change residual target t / (1.0 + Real.cos t) = _
  rw [hone]

theorem next_real (target t : ℝ) : next target t = min (t - step target t) Real.pi :=
  lesser_real _ _

structure Behind (target t : ℝ) : Prop where
  nonneg : 0 ≤ t
  lt_pi : t < Real.pi
  residual_nonpos : residual target t ≤ 0

namespace Behind
variable (h : Behind target t)
include h

theorem slope_pos : 0 < 1 + Real.cos t := by
  have hcos := Real.cos_lt_cos_of_nonneg_of_le_pi h.nonneg le_rfl h.lt_pi
  rw [Real.cos_pi] at hcos
  linarith

theorem slope_mul_step : (1 + Real.cos t) * step target t = residual target t := by
  rw [step_real, mul_div_cancel₀ _ h.slope_pos.ne']

theorem step_nonpos : step target t ≤ 0 := by
  rw [step_real]
  exact div_nonpos_of_nonpos_of_nonneg h.residual_nonpos h.slope_pos.le

/-- The residual is no larger than twice the step. -/
theorem two_mul_step_le : 2 * step target t ≤ residual target t := by
  rw [← h.slope_mul_step]
  exact mul_le_mul_of_nonpos_right (by linarith [Real.cos_le_one t]) h.step_nonpos

variable (htarget : target ≤ Real.pi)
include htarget

theorem neg_step_le : -step target t ≤ (Real.pi - t) / 2 := by
  have hhalf := two_mul_sub_sin_le (sub_nonneg.mpr h.lt_pi.le) (sub_le_self _ h.nonneg)
  have hslope := h.slope_mul_step
  rw [residual_real] at hslope
  rw [Real.sin_pi_sub, Real.cos_pi_sub] at hhalf
  refine le_of_mul_le_mul_left ?_ h.slope_pos
  linarith

/-- The cap at the half turn is never reached. -/
theorem next_eq : next target t = t - step target t := by
  rw [next_real]
  exact min_eq_left (by linarith [h.neg_step_le htarget, h.lt_pi])

theorem le_next : t ≤ next target t := by
  rw [h.next_eq htarget]
  linarith [h.step_nonpos]

theorem next_lt_pi : next target t < Real.pi := by
  rw [h.next_eq htarget]
  linarith [h.neg_step_le htarget, h.lt_pi]

theorem residual_next_nonpos : residual target (next target t) ≤ 0 := by
  have htangent := sin_le_tangent (a := t) (b := next target t) ⟨h.nonneg, h.lt_pi.le⟩
    ⟨h.nonneg.trans (h.le_next htarget), (h.next_lt_pi htarget).le⟩
  have hslope := h.slope_mul_step
  rw [residual_real] at hslope ⊢
  rw [h.next_eq htarget] at htangent ⊢
  linarith

theorem next : Behind target (next target t) where
  nonneg := h.nonneg.trans (h.le_next htarget)
  lt_pi := h.next_lt_pi htarget
  residual_nonpos := h.residual_next_nonpos htarget

/-- A step leaves less than half of the residual: in the distance `u` from the half turn the slope falls as
`u²` at most, so with a step of `s ≤ u / 2` the part `1 - s / u + (s / u)² / 3` of the residual is made up. -/
theorem le_residual_next : 5 / 12 * residual target t ≤ residual target (Mollweide.next target t) := by
  obtain ⟨s, hs⟩ : ∃ s, -step target t = s := ⟨_, rfl⟩
  obtain ⟨u, hu⟩ : ∃ u, Real.pi - t = u := ⟨_, rfl⟩
  have hstep : s ≤ u / 2 := by
    rw [← hs, ← hu]
    exact h.neg_step_le htarget
  have hs0 : 0 ≤ s := by linarith [h.step_nonpos]
  have hu0 : 0 < u := by linarith [h.lt_pi]
  have ht : t = Real.pi - u := by linarith
  have hslope := h.slope_mul_step
  have hpos := h.slope_pos
  rw [← neg_eq_iff_eq_neg.mpr hs.symm, residual_real, ht, Real.sin_pi_sub, Real.cos_pi_sub] at hslope
  rw [ht, Real.cos_pi_sub] at hpos
  have hnext : Mollweide.next target t = Real.pi - (u - s) := by
    rw [h.next_eq htarget]
    linarith
  -- The cubic's share of the residual, less the seven twelfths of it that are asked for.
  have hrest : 0 ≤ (1 - Real.cos u) * s * ((u / 2 - s) * (5 / 2 * u - s)) :=
    mul_nonneg (mul_nonneg (by linarith) hs0) (mul_nonneg (by linarith) (by linarith))
  have hcubic := cubic_le_sub_sin (u := u) (v := u - s) (by linarith) (by linarith) (by linarith [h.nonneg])
  have hmade : 7 / 12 * ((1 - Real.cos u) * s) ≤ (u - Real.sin u) - (u - s - Real.sin (u - s)) := by
    refine le_of_mul_le_mul_left (a := 3 * u ^ 2) ?_ (by positivity)
    linarith
  rw [hnext, residual_real, residual_real, Real.sin_pi_sub, ht, Real.sin_pi_sub]
  linarith

end Behind
end

section
variable {b : Budget ℝ} {target t r : ℝ}

/-- What every iteration keeps, at the estimate that settles: whichever test ends the iteration, the residual
is within the residual's tolerance or within twice the step's. -/
theorem behind_of_settle (htarget : target ≤ Real.pi) {n : Nat} (ht : Behind target t)
    (h : settle b target n t = .ok r) :
    Behind target r ∧ t ≤ r ∧ -residual target r ≤ max b.residualTolerance (2 * b.stepTolerance) := by
  induction n generalizing t with
  | zero => cases h
  | succ n ih =>
    unfold settle at h
    split_ifs at h with hresidual hstep
    · cases h
      exact ⟨ht, le_rfl, (neg_le_abs _).trans (hresidual.trans (le_max_left _ _))⟩
    · -- The residual before the step was no larger than two steps, and a step makes it smaller.
      cases h
      have hbefore := ht.two_mul_step_le
      have hafter := ht.le_residual_next htarget
      have hlast : -step target t < b.stepTolerance := (neg_le_abs _).trans_lt hstep
      refine ⟨ht.next htarget, ht.le_next htarget, le_max_of_le_right ?_⟩
      linarith [ht.residual_nonpos]
    · obtain ⟨hr, hle, hbound⟩ := ih (ht.next htarget) h
      exact ⟨hr, (ht.le_next htarget).trans hle, hbound⟩

end

/-- An iteration settles as soon as it may halve the residual often enough. -/
theorem exists_settle {b : Budget ℝ} {target t : ℝ} (htarget : target ≤ Real.pi) {n : Nat} (ht : Behind target t)
    (hn : (5 / 12) ^ n * -residual target t ≤ b.residualTolerance) :
    ∃ r, settle b target (n + 1) t = .ok r := by
  induction n generalizing t with
  | zero =>
    have hresidual : Scalar.abs (residual target t) ≤ b.residualTolerance := by
      rw [abs_real, abs_of_nonpos ht.residual_nonpos]
      linarith
    exact ⟨t, if_pos hresidual⟩
  | succ n ih =>
    have hsmaller : (5 / 12) ^ n * -residual target (next target t) ≤ b.residualTolerance := by
      refine le_trans ?_ hn
      rw [pow_succ, mul_assoc]
      gcongr
      linarith [ht.le_residual_next htarget]
    rw [settle]
    split_ifs
    · exact ⟨_, rfl⟩
    · exact ⟨_, rfl⟩
    · exact ih (ht.next htarget) hsmaller

theorem pi_mul_sin_abs_le (phi : ℝ) : Real.pi * Real.sin |phi| ≤ Real.pi :=
  mul_le_of_le_one_right Real.pi_pos.le (Real.sin_le_one _)

/-- A latitude's own size is short of twice its auxiliary angle. -/
theorem behind_abs {phi : ℝ} (hphi : |phi| ≤ Real.pi / 2) : Behind (Real.pi * Real.sin |phi|) |phi| where
  nonneg := abs_nonneg phi
  lt_pi := by linarith [Real.pi_pos]
  residual_nonpos := by
    have hsin := Real.mul_le_sin (abs_nonneg phi) hphi
    have hslope : 1 ≤ (Real.pi - 1) * (2 / Real.pi) := by
      rw [mul_div_assoc', one_le_div Real.pi_pos]
      linarith [Real.two_le_pi]
    have hchord := mul_le_mul_of_nonneg_right hslope (abs_nonneg phi)
    have hpi := mul_le_mul_of_nonneg_left hsin (show 0 ≤ Real.pi - 1 by linarith [Real.two_le_pi])
    rw [residual_real]
    linarith

/-- The usual budget of fifty iterations is enough at every latitude, the poles included. -/
theorem exists_settle_standard {phi : ℝ} (hphi : |phi| ≤ Real.pi / 2) :
    ∃ t, settle Budget.standard (Real.pi * Real.sin |phi|) 50 |phi| = .ok t := by
  refine exists_settle (pi_mul_sin_abs_le phi) (n := 49) (behind_abs hphi) ?_
  have hresidual : -residual (Real.pi * Real.sin |phi|) |phi| ≤ 3 := by
    have hsin := mul_le_mul_of_nonneg_left (Real.sin_le_one |phi|)
      (show 0 ≤ Real.pi - 1 by linarith [Real.two_le_pi])
    rw [residual_real]
    linarith [abs_nonneg phi, Real.pi_le_four]
  have htolerance : (5 / 12) ^ 49 * 3 ≤ (Budget.standard.residualTolerance : ℝ) := by
    change (5 / 12) ^ 49 * 3 ≤ (1e-15 : ℝ)
    norm_num
  exact (mul_le_mul_of_nonneg_left hresidual (by positivity)).trans htolerance

theorem residualTolerance_nonneg : (0 : ℝ) ≤ Budget.standard.residualTolerance := by
  change (0 : ℝ) ≤ 1e-15
  norm_num

theorem exists_newtonAngle_standard {phi : ℝ} (hphi : |phi| ≤ Real.pi / 2) :
    ∃ theta, newtonAngle Budget.standard phi = .ok theta := by
  obtain ⟨t, ht⟩ := exists_settle_standard hphi
  have hband : Within (-halfPi) halfPi phi := within_neg_iff.mpr (hphi.trans_eq halfPi_real.symm)
  have hsettle : settle Budget.standard (Scalar.pi * sin (Scalar.abs phi))
      (Budget.standard : Budget ℝ).iterations.toNat (Scalar.abs phi) = .ok t := ht
  rw [newtonAngle, if_pos hband, hsettle]
  split_ifs
  · exact ⟨_, rfl⟩
  · exact ⟨_, rfl⟩

section
variable {b : Budget ℝ} {phi theta : ℝ}

/-- The pole's closed form and the iteration answer alike: half of an estimate between the latitude's size
and the half turn, with the sign of the latitude. -/
theorem exists_of_newtonAngle (hr : 0 ≤ b.residualTolerance) (h : newtonAngle b phi = .ok theta) :
    ∃ t, theta = copySign (t / 2) phi ∧ |phi| ≤ t ∧ t ≤ Real.pi ∧ residual (Real.pi * Real.sin |phi|) t ≤ 0 ∧
      -residual (Real.pi * Real.sin |phi|) t ≤ max b.residualTolerance (2 * b.stepTolerance) := by
  have htwo : (2.0 : ℝ) = 2 := by norm_num
  unfold newtonAngle at h
  split_ifs at h with hband hpole
  · cases h
    rw [meets_iff, abs_real, halfPi_real] at hpole
    have hzero : residual (Real.pi * Real.sin |phi|) Real.pi = 0 := by
      rw [residual_real, hpole, Real.sin_pi_div_two, Real.sin_pi]
      ring
    refine ⟨Real.pi, by rw [halfPi_real], hpole.trans_le (by linarith [Real.pi_pos]), le_rfl, hzero.le, ?_⟩
    rw [hzero, neg_zero]
    exact le_max_of_le_left hr
  · rw [within_halfPi_iff] at hband
    split at h
    · next t ht =>
      cases h
      obtain ⟨hbehind, hle, hbound⟩ := behind_of_settle (pi_mul_sin_abs_le phi) (behind_abs hband) ht
      exact ⟨t, by rw [htwo], hle, hbehind.lt_pi.le, hbehind.residual_nonpos, hbound⟩
    · cases h

/-- The auxiliary angle that comes out lies on its latitude's side of the equator, between half of the latitude
and the pole, and solves the equation up to the tolerances, never past the root. -/
theorem newtonAngle_accurate (hr : 0 ≤ b.residualTolerance) (h : newtonAngle b phi = .ok theta) :
    SignType.sign theta = SignType.sign phi ∧ |phi| / 2 ≤ |theta| ∧ |theta| ≤ Real.pi / 2 ∧
      0 ≤ Real.pi * Real.sin |phi| - (2 * |theta| + Real.sin (2 * |theta|)) ∧
      Real.pi * Real.sin |phi| - (2 * |theta| + Real.sin (2 * |theta|)) ≤
        max b.residualTolerance (2 * b.stepTolerance) := by
  obtain ⟨t, rfl, hle, hpi, hbehind, hbound⟩ := exists_of_newtonAngle hr h
  have ht : 0 ≤ t := (abs_nonneg phi).trans hle
  have hsize : |copySign (t / 2) phi| = t / 2 := by rw [abs_copySign, abs_of_nonneg (by linarith)]
  have hdouble : 2 * (t / 2) = t := mul_div_cancel₀ t two_ne_zero
  rw [residual_real] at hbehind hbound
  rw [hsize, hdouble]
  refine ⟨?_, by linarith, by linarith, by linarith, by linarith⟩
  rcases lt_trichotomy phi 0 with hneg | rfl | hpos
  · rw [copySign_of_neg _ hneg, sign_neg hneg, sign_eq_neg_one_iff, neg_lt_zero, abs_pos]
    linarith [abs_pos_of_neg hneg]
  · -- On the equator nothing but nothing is short of the root.
    rw [abs_zero, Real.sin_zero, mul_zero, sub_zero] at hbehind
    have hzero : t = 0 := le_antisymm (by linarith [Real.sin_nonneg_of_nonneg_of_le_pi ht hpi]) ht
    rw [hzero, copySign_of_nonneg _ le_rfl, zero_div, abs_zero]
  · rw [copySign_of_nonneg _ hpos.le, sign_pos hpos, sign_eq_one_iff, abs_pos]
    linarith [abs_pos_of_pos hpos]

/-- Near the pole, with the usual tolerances. -/
theorem newtonAngle_accurate_polar : (0 : ℝ) ≤ Budget.standard.residualTolerance ∧
    ∃ theta, newtonAngle Budget.standard (3 / 2 : ℝ) = .ok theta ∧
      SignType.sign theta = SignType.sign (3 / 2 : ℝ) ∧ |(3 / 2 : ℝ)| / 2 ≤ |theta| ∧ |theta| ≤ Real.pi / 2 ∧
      0 ≤ Real.pi * Real.sin |3 / 2| - (2 * |theta| + Real.sin (2 * |theta|)) ∧
      Real.pi * Real.sin |3 / 2| - (2 * |theta| + Real.sin (2 * |theta|)) ≤
        max (Budget.standard.residualTolerance : ℝ) (2 * Budget.standard.stepTolerance) := by
  have hphi : |(3 / 2 : ℝ)| ≤ Real.pi / 2 := by
    rw [abs_of_pos (by norm_num)]
    linarith [Real.pi_gt_three]
  obtain ⟨theta, htheta⟩ := exists_newtonAngle_standard hphi
  exact ⟨residualTolerance_nonneg, theta, htheta, newtonAngle_accurate residualTolerance_nonneg htheta⟩

end

end GoodeMap.Mollweide
