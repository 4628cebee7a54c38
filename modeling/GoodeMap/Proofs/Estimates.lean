import GoodeMap.Proofs.Newton

/-! The estimates that Newton's method comes to on its way, in exact arithmetic. From the latitude's own size
they climb towards the one root and never pass it; so none of them reaches the half turn, where the slope would
be zero, and the cap there has nothing to do. -/
namespace GoodeMap.Mollweide
open Scalar

section
variable {α : Type} [Scalar α] (b : Budget α) (target : α)

def estimates : Nat → α → List α
  | 0, t => [t]
  | n + 1, t =>
    if abs (residual target t) ≤ b.residualTolerance then [t]
    else if abs (step target t) < b.stepTolerance then [t, next target t]
    else t :: estimates n (next target t)

def latitudeEstimates (phi : α) : List α :=
  estimates b (pi * sin (abs phi)) b.iterations.toNat (abs phi)

theorem head?_estimates (n : Nat) (t : α) : (estimates b target n t).head? = some t := by
  cases n with
  | zero => rfl
  | succ n =>
    unfold estimates
    split_ifs <;> rfl

theorem isChain_estimates (n : Nat) (t : α) :
    (estimates b target n t).IsChain fun t u => u = next target t := by
  induction n generalizing t with
  | zero => exact List.isChain_singleton t
  | succ n ih =>
    unfold estimates
    split_ifs
    · exact List.isChain_singleton t
    · exact List.isChain_pair.mpr rfl
    · refine (ih (next target t)).cons fun u hu => ?_
      rw [head?_estimates] at hu
      exact (Option.some.inj hu).symm

variable {b target}

/-- An iteration answers with its last estimate, and fails with it too. -/
theorem getLast?_estimates {n : Nat} {t u : α}
    (h : settle b target n t = .ok u ∨ settle b target n t = .error u) :
    (estimates b target n t).getLast? = some u := by
  induction n generalizing t with
  | zero => simpa [settle, estimates] using h
  | succ n ih =>
    simp only [settle] at h
    unfold estimates
    split_ifs at h ⊢ with hresidual hstep
    · simpa using h
    · simpa using h
    · rw [List.getLast?_cons, ih h]
      rfl

/-- The iteration ends at an estimate: with the estimate itself if the residual there is small, and if not with the
next one if the step to it is short. -/
inductive Ends (b : Budget α) (target t : α) : α → Prop where
  | residual (h : abs (residual target t) ≤ b.residualTolerance) : Ends b target t t
  | step (hresidual : ¬ abs (Mollweide.residual target t) ≤ b.residualTolerance)
      (h : abs (step target t) < b.stepTolerance) : Ends b target t (next target t)

/-- An iteration that settles does so within its number of steps, at one of its estimates and at none before. -/
theorem exists_ends_of_settle {n : Nat} {t u : α} (h : settle b target n t = .ok u) :
    ∃ k < n, (estimates b target n t)[k]? = some ((next target)^[k] t) ∧ Ends b target ((next target)^[k] t) u ∧
      ∀ j < k, ∀ v, ¬ Ends b target ((next target)^[j] t) v := by
  induction n generalizing t with
  | zero => cases h
  | succ n ih =>
    have hfirst : (estimates b target (n + 1) t)[0]? = some t := by
      rw [← List.head?_eq_getElem?, head?_estimates]
    rw [settle] at h
    split_ifs at h with hresidual hstep
    · cases h
      exact ⟨0, n.succ_pos, hfirst, .residual hresidual, fun j hj => absurd hj j.not_lt_zero⟩
    · cases h
      exact ⟨0, n.succ_pos, hfirst, .step hresidual hstep, fun j hj => absurd hj j.not_lt_zero⟩
    · obtain ⟨k, hk, hestimate, hends, hbefore⟩ := ih h
      refine ⟨k + 1, Nat.succ_lt_succ hk, ?_, hends, fun j hj v hv => ?_⟩
      · rw [estimates, if_neg hresidual, if_neg hstep, List.getElem?_cons_succ]
        exact hestimate
      · cases j with
        | zero =>
          cases hv with
          | residual h => exact hresidual h
          | step _ h => exact hstep h
        | succ j => exact hbefore j (Nat.lt_of_succ_lt_succ hj) v hv

/-- Off the poles the answer is half of the last estimate, with the sign of the latitude; a failure names it. -/
theorem exists_getLast?_latitudeEstimates {phi : α} (hphi : Within (-halfPi) halfPi phi)
    (hpole : ¬ Meets (abs phi) halfPi) : ∃ last, (latitudeEstimates b phi).getLast? = some last ∧
      (newtonAngle b phi = .ok (copySign (last / 2.0) phi) ∨
        newtonAngle b phi = .error (.unsettled b.iterations phi (last / 2.0))) := by
  rw [newtonAngle, if_pos hphi, if_neg hpole]
  cases h : settle b (pi * sin (abs phi)) b.iterations.toNat (abs phi) with
  | ok last => exact ⟨last, getLast?_estimates (.inl h), .inl rfl⟩
  | error last => exact ⟨last, getLast?_estimates (.inr h), .inr rfl⟩

end

/-- What an iteration keeps: every estimate is short of the root, and none is before the first one. -/
theorem behind_of_mem_estimates {b : Budget ℝ} {target t u : ℝ} (htarget : target ≤ Real.pi) {n : Nat}
    (ht : Behind target t) (hu : u ∈ estimates b target n t) : Behind target u ∧ t ≤ u := by
  induction n generalizing t with
  | zero =>
    cases List.mem_singleton.mp hu
    exact ⟨ht, le_rfl⟩
  | succ n ih =>
    unfold estimates at hu
    split_ifs at hu
    · cases List.mem_singleton.mp hu
      exact ⟨ht, le_rfl⟩
    · cases hu with
      | head => exact ⟨ht, le_rfl⟩
      | tail _ hlast =>
        cases List.mem_singleton.mp hlast
        exact ⟨ht.next htarget, ht.le_next htarget⟩
    · cases hu with
      | head => exact ⟨ht, le_rfl⟩
      | tail _ hrest =>
        obtain ⟨hbehind, hle⟩ := ih (ht.next htarget) hrest
        exact ⟨hbehind, (ht.le_next htarget).trans hle⟩

theorem pairwise_estimates {b : Budget ℝ} {target t : ℝ} (htarget : target ≤ Real.pi) (n : Nat)
    (ht : Behind target t) : (estimates b target n t).Pairwise (· ≤ ·) := by
  have hclimb : (estimates b target n t).IsChain (· ≤ ·) := by
    refine (isChain_estimates b target n t).imp_of_mem_imp fun u v hu _ hv => ?_
    rw [hv]
    exact (behind_of_mem_estimates htarget ht hu).1.le_next htarget
  exact hclimb.pairwise

/-- The residual at an estimate is the area that is missing at half of it. -/
theorem residual_eq_stripArea_sub (target t : ℝ) : residual target t = stripArea (t / 2) - target := by
  rw [residual_real, stripArea, mul_div_cancel₀ t two_ne_zero]

section
variable {phi t : ℝ}

/-- Twice the exact angle is the one root, on the whole line. -/
theorem residual_eq_zero_iff :
    residual (Real.pi * Real.sin phi) t = 0 ↔ t = 2 * exactAngle phi := by
  rw [residual_eq_stripArea_sub, sub_eq_zero, ← exactAngle_eq_iff, eq_div_iff two_ne_zero, mul_comm,
    eq_comm]

theorem residual_nonpos_iff :
    residual (Real.pi * Real.sin phi) t ≤ 0 ↔ t ≤ 2 * exactAngle phi := by
  rw [residual_eq_stripArea_sub, sub_nonpos, ← stripArea_exactAngle, stripArea_strictMono.le_iff_le,
    div_le_iff₀ two_pos, mul_comm]

theorem exactAngle_abs_lt (hphi : |phi| < Real.pi / 2) : exactAngle |phi| < Real.pi / 2 := by
  rw [← exactAngle_halfPi, exactAngle_lt_iff]
  exact Real.sin_lt_sin_of_lt_of_le_pi_div_two (by linarith [abs_nonneg phi, Real.pi_pos]) le_rfl hphi

theorem mem_latitudeEstimates {b : Budget ℝ} (hphi : |phi| ≤ Real.pi / 2) (ht : t ∈ latitudeEstimates b phi) :
    Behind (Real.pi * Real.sin |phi|) t ∧ |phi| ≤ t :=
  behind_of_mem_estimates (pi_mul_sin_abs_le phi) (behind_abs hphi) ht

/-- Whatever the tolerances are, an angle that comes out lies between the poles. -/
theorem abs_newtonAngle_le {b : Budget ℝ} {theta : ℝ} (h : newtonAngle b phi = .ok theta) :
    |theta| ≤ Real.pi / 2 := by
  have htwo : (2.0 : ℝ) = 2 := by norm_num
  by_cases hphi : Within (-halfPi) halfPi phi
  · by_cases hpole : Meets (Scalar.abs phi) halfPi
    · rw [newtonAngle, if_pos hphi, if_pos hpole] at h
      cases h
      rw [abs_copySign, halfPi_real, abs_pi_div_two]
    · obtain ⟨last, hlast, hanswer⟩ := exists_getLast?_latitudeEstimates (b := b) hphi hpole
      have hbehind := (mem_latitudeEstimates (within_halfPi_iff.mp hphi) (List.mem_of_getLast? hlast)).1
      rw [h] at hanswer
      cases hanswer with
      | inl hok =>
        rw [Except.ok.inj hok, abs_copySign, htwo, abs_of_nonneg (div_nonneg hbehind.nonneg two_pos.le)]
        linarith [hbehind.lt_pi]
      | inr herror => cases herror
  · rw [newtonAngle, if_neg hphi] at h
    cases h

theorem not_meets_halfPi (hphi : |phi| < Real.pi / 2) : ¬ Meets (Scalar.abs phi) halfPi := by
  rw [meets_iff, abs_real, halfPi_real]
  exact hphi.ne

/-- Off the poles a settled iteration gives the angle. -/
theorem newtonAngle_of_settle {b : Budget ℝ} {u : ℝ}
    (h : settle b (Real.pi * Real.sin |phi|) b.iterations.toNat |phi| = .ok u) (hphi : |phi| < Real.pi / 2) :
    newtonAngle b phi = .ok (copySign (u / 2) phi) := by
  have htwo : (2.0 : ℝ) = 2 := by norm_num
  have hsettle : settle b (Scalar.pi * sin (Scalar.abs phi)) b.iterations.toNat (Scalar.abs phi) = .ok u := h
  rw [newtonAngle, if_pos (within_halfPi_iff.mpr hphi.le), if_neg (not_meets_halfPi hphi), hsettle]
  exact congrArg (fun d => Except.ok (copySign (u / d) phi)) htwo

/-- Off the poles the estimates begin with the latitude's own size, follow each other by Newton's step and end
with twice the answer's angle. They never decrease, and the one root of the equation up to the half turn, which is
short of the half turn, is not passed: the residuals are never positive, no slope is zero, and no step is cut
at the half turn. -/
theorem latitudeEstimates_climb (b : Budget ℝ) (hphi : |phi| < Real.pi / 2) :
    ((latitudeEstimates b phi).head? = some |phi| ∧
      (latitudeEstimates b phi).IsChain (fun t u => u = next (Real.pi * Real.sin |phi|) t) ∧
      ∃ last, (latitudeEstimates b phi).getLast? = some last ∧
        (newtonAngle b phi = .ok (copySign (last / 2) phi) ∨
          newtonAngle b phi = .error (.unsettled b.iterations phi (last / 2)))) ∧
    (latitudeEstimates b phi).Pairwise (· ≤ ·) ∧
    ∃ root ∈ Set.Ico 0 Real.pi,
      (∀ t ∈ Set.Icc 0 Real.pi, t + Real.sin t = Real.pi * Real.sin |phi| ↔ t = root) ∧
      ∀ t ∈ latitudeEstimates b phi, |phi| ≤ t ∧ t ≤ root ∧ residual (Real.pi * Real.sin |phi|) t ≤ 0 ∧
        0 < 1 + Real.cos t ∧
          next (Real.pi * Real.sin |phi|) t = t - step (Real.pi * Real.sin |phi|) t := by
  have htarget := pi_mul_sin_abs_le phi
  have htwo : (2.0 : ℝ) = 2 := by norm_num
  have hanswer := exists_getLast?_latitudeEstimates (b := b) (within_halfPi_iff.mpr hphi.le) (not_meets_halfPi hphi)
  rw [htwo] at hanswer
  have hroot : 2 * exactAngle |phi| ∈ Set.Ico 0 Real.pi :=
    ⟨by linarith [exactAngle_nonneg (abs_nonneg phi) hphi.le], by linarith [exactAngle_abs_lt hphi]⟩
  refine ⟨⟨head?_estimates _ _ _ _, isChain_estimates _ _ _ _, hanswer⟩,
    pairwise_estimates htarget _ (behind_abs hphi.le), _, hroot, fun t _ => ?_, fun t ht => ?_⟩
  · rw [← sub_eq_zero, ← residual_real, residual_eq_zero_iff]
  · obtain ⟨hbehind, hle⟩ := mem_latitudeEstimates hphi.le ht
    exact ⟨hle, residual_nonpos_iff.mp hbehind.residual_nonpos, hbehind.residual_nonpos, hbehind.slope_pos,
      hbehind.next_eq htarget⟩

/-- Near the south pole, with the usual budget. -/
theorem latitudeEstimates_climb_southern : |(-(3 / 2) : ℝ)| < Real.pi / 2 ∧
    (latitudeEstimates Budget.standard (-(3 / 2) : ℝ)).Pairwise (· ≤ ·) ∧
    ∃ root < Real.pi, ∀ t ∈ latitudeEstimates Budget.standard (-(3 / 2) : ℝ),
      |(-(3 / 2) : ℝ)| ≤ t ∧ t ≤ root ∧ 0 < 1 + Real.cos t := by
  have hphi : |(-(3 / 2) : ℝ)| < Real.pi / 2 := by
    rw [abs_neg, abs_of_pos (by norm_num)]
    linarith [Real.pi_gt_three]
  obtain ⟨-, hclimb, root, hroot, -, hbounds⟩ := latitudeEstimates_climb Budget.standard hphi
  refine ⟨hphi, hclimb, root, hroot.2, fun t ht => ?_⟩
  obtain ⟨hle, hbehind, -, hslope, -⟩ := hbounds t ht
  exact ⟨hle, hbehind, hslope⟩

end
end GoodeMap.Mollweide
