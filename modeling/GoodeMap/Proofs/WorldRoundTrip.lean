import GoodeMap.WorldMap
import GoodeMap.Proofs.RoundTrip
import GoodeMap.Proofs.Turn

/-! Round trips in real-world units. The cores bring every longitude of the principal range back as it
was; the radius and the false origin cancel, and what the two wraps add are whole turns. -/
namespace GoodeMap
open Scalar
open Mollweide (exactAngle)
variable {lam phi lat lon : ℝ}

theorem Parameters.radius_pos {given p : Parameters ℝ} (h : given.check = .ok p) : 0 < p.radius := by
  have hzero : (0.0 : ℝ) = 0 := by norm_num
  unfold check at h
  split_ifs at h with hfinite haxes horder
  cases h
  rw [not_or, hzero] at haxes
  exact not_le.mp haxes.1

/-- A plain projection's own inverse undoes it unless the meridians have come together. -/
theorem Homolosine.inverseLocal_rowOf {b : Branch} (hphi : |phi| ≤ Real.pi / 2)
    (hfree : ¬ b.Pinched phi) :
    inverseLocal b (lam * b.scaleOf phi) (b.rowOf phi) = .ok (lam, phi) := by
  have hreach : |b.rowOf phi| ≤ b.reach + poleRowSlack := by
    exact (Branch.abs_rowOf_le b hphi).trans (le_add_of_nonneg_right poleRowSlack_nonneg)
  rw [inverseLocal_real b _ hreach, Branch.latitudeOf_rowOf b hphi,
    Branch.longitudeOf_mul_scaleOf hfree]

namespace Core

/-- Every family of our own has a core that brings back the longitudes of the principal range. -/
theorem exists_round_trip (reference : Core (Except (Failure ℝ)) ℝ) {f : Family} (hf : f ≠ .reference) :
    ∃ c : Core (Except (Failure ℝ)) ℝ, ofFamilyWith Mollweide.exact reference f = .ok c ∧
      ∀ lam phi, Within (-pi) pi lam → |phi| < Real.pi / 2 →
        (f ≠ .sinusoidal → ¬ Mollweide.AtPole (exactAngle phi)) →
          ∃ x y, c.forward lam phi = .ok (x, y) ∧ c.inverse x y = .ok (lam, phi) := by
  cases f with
  | sinusoidal =>
    refine ⟨sinusoidal, rfl, fun lam phi hlam hphi _ => ⟨_, _, Sinusoidal.forward_real lam hphi.le, ?_⟩⟩
    exact Homolosine.inverseLocal_rowOf (b := .sinusoidal) hphi.le (not_not.mpr hphi)
  | mollweide =>
    refine ⟨mollweide Mollweide.exact, rfl, fun lam phi hlam hphi hpole =>
      ⟨_, _, Mollweide.forward_exact lam hphi.le, ?_⟩⟩
    exact Homolosine.inverseLocal_rowOf (b := .mollweide) hphi.le (hpole (by decide))
  | homolosine =>
    obtain ⟨g, hg⟩ := Homolosine.exists_usual
    refine ⟨homolosine g, ?_, fun lam phi hlam hphi hpole => ?_⟩
    · rw [ofFamilyWith, hg]
      rfl
    · exact Homolosine.exists_round_trip (Homolosine.calibrated_of_usual hg) hphi.le
        (Homolosine.within_of_usual hg _ hlam)
        (Homolosine.not_pinched hphi fun _ => hpole (by decide))
  | reference => exact absurd rfl hf

end Core

namespace WorldMap
variable {w : WorldMap (Except (Failure ℝ)) ℝ} {x y : ℝ}

theorem project_of_forward {α : Type} [Scalar α] {w : WorldMap (Except (Failure α)) α} {lat lon x y : α}
    (h : w.core.forward (Longitude.normalize (lon - w.parameters.centralMeridian)) lat = .ok (x, y)) :
    w.project lat lon = .ok (w.radius * x + w.parameters.falseEasting,
      w.radius * y + w.parameters.falseNorthing) := by
  rw [project, h]
  rfl

/-- The radius and the false origin cancel. -/
theorem unproject_of_inverse (hf : w.family ≠ .reference) (hradius : w.radius ≠ 0)
    (h : w.core.inverse x y = .ok (lam, phi)) :
    w.unproject (w.radius * x + w.parameters.falseEasting) (w.radius * y + w.parameters.falseNorthing) =
      .ok (phi, Longitude.normalize (lam + w.parameters.centralMeridian)) := by
  have hlocate : w.locate (w.radius * x + w.parameters.falseEasting)
      (w.radius * y + w.parameters.falseNorthing) =
        .ok (phi, Longitude.normalize (lam + w.parameters.centralMeridian)) := by
    rw [locate, add_sub_cancel_right, add_sub_cancel_right, mul_div_cancel_left₀ x hradius,
      mul_div_cancel_left₀ y hradius, h]
    rfl
  unfold unproject
  split
  · contradiction
  · exact hlocate

/-- Back from map coordinates the latitude is as it was and the longitude is the same up to whole turns,
whatever the accepted parameters. -/
theorem unproject_project (reference : Core (Except (Failure ℝ)) ℝ) {f : Family} (hf : f ≠ .reference)
    {given p : Parameters ℝ} (hp : given.check = .ok p) (hlat : |lat| < Real.pi / 2)
    (hpole : f ≠ .sinusoidal → ¬ Mollweide.AtPole (exactAngle lat)) (lon : ℝ) :
    ∃ c, Core.ofFamilyWith Mollweide.exact reference f = .ok c ∧ ∃ x y lon',
      (WorldMap.mk f p c).project lat lon = .ok (x, y) ∧
        (WorldMap.mk f p c).unproject x y = .ok (lat, lon') ∧ Within (-pi) pi lon' ∧
          (∃ k : ℤ, lon' = lon + 2 * Real.pi * k) ∧ (|lon| < Real.pi → lon' = lon) := by
  obtain ⟨c, hc, hcore⟩ := Core.exists_round_trip reference hf
  obtain ⟨x, y, hforward, hinverse⟩ :=
    hcore _ lat (Longitude.within_normalize (lon - p.centralMeridian)) hlat hpole
  have hradius := (Parameters.radius_pos hp).ne'
  have hin := Longitude.congruent_normalize (lon - p.centralMeridian)
  have hout := Longitude.congruent_normalize
    (Longitude.normalize (lon - p.centralMeridian) + p.centralMeridian)
  have hturn : Longitude.Congruent (Longitude.normalize
      (Longitude.normalize (lon - p.centralMeridian) + p.centralMeridian)) lon := by
    have hsum := hin.add_right p.centralMeridian
    rw [sub_add_cancel] at hsum
    exact hout.trans hsum
  have hrange := Longitude.within_normalize
    (Longitude.normalize (lon - p.centralMeridian) + p.centralMeridian)
  exact ⟨c, hc, _, _, _, project_of_forward hforward, unproject_of_inverse hf hradius hinverse, hrange,
    hturn, hturn.eq_of_abs_lt hrange⟩

/-- A central meridian past the half turn does not matter. -/
theorem unproject_project_far_meridian :
    ∃ c, Core.ofFamilyWith Mollweide.exact Core.sinusoidal .homolosine = .ok c ∧ ∃ x y,
      (WorldMap.mk .homolosine ⟨2, 2, 4, 1, 1⟩ c).project 0 1 = .ok (x, y) ∧
        (WorldMap.mk .homolosine ⟨2, 2, 4, 1, 1⟩ c).unproject x y = .ok (0, 1) := by
  have hcheck : (⟨2, 2, 4, 1, 1⟩ : Parameters ℝ).check = .ok ⟨2, 2, 4, 1, 1⟩ := by
    have hzero : (0.0 : ℝ) = 0 := by norm_num
    simp [Parameters.check, hzero]
  have hpole : ¬ Mollweide.AtPole (exactAngle 0) := by
    rw [Mollweide.exactAngle_zero]
    change ¬ |Real.cos 0| < 1e-15
    norm_num
  obtain ⟨c, hc, x, y, lon', hproject, hunproject, -, -, hsame⟩ := unproject_project
    Core.sinusoidal (f := .homolosine) (by decide) hcheck abs_zero_lt_halfPi (fun _ => hpole) 1
  have hlon : |(1 : ℝ)| < Real.pi := by
    rw [abs_one]
    linarith [Real.pi_gt_three]
  exact ⟨c, hc, x, y, hproject, hsame hlon ▸ hunproject⟩

end WorldMap
end GoodeMap
