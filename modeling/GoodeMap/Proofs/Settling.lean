import GoodeMap.Proofs.Choice
import GoodeMap.Proofs.Coverage
import GoodeMap.Proofs.Estimates
import GoodeMap.Proofs.UsualMap

/-! The usual budget is never used up: Newton's method settles at every latitude, so a map that finds its
auxiliary angles by it refuses points for being off the globe and for nothing else. -/
namespace GoodeMap
open Scalar

section
variable {α : Type} [Scalar α] {lam phi : α} {e : Failure α}

def Mollweide.Total (m : Mollweide α) : Prop :=
  ∀ phi, Within (-halfPi) halfPi phi → ∃ theta, m.auxiliaryAngle phi = .ok theta

theorem Mollweide.Total.exists_forward {m : Mollweide α} (hm : m.Total) (hphi : Within (-halfPi) halfPi phi)
    (lam : α) : ∃ place, m.forward lam phi = .ok place := by
  obtain ⟨theta, htheta⟩ := hm phi hphi
  simp only [Mollweide.forward, htheta]
  exact ⟨_, rfl⟩

theorem Sinusoidal.exists_forward (hphi : Within (-halfPi) halfPi phi) (lam : α) :
    ∃ place, forward lam phi = .ok place := ⟨_, if_pos hphi⟩

namespace Homolosine
variable {g : Homolosine α}

/-- Where every latitude has its auxiliary angle, only a point without a piece is refused. -/
theorem kind_of_forward (hg : g.mollweide.Total) (h : g.forward lam phi = .error e) : e.kind = .domain := by
  rcases forward_eq_error_cases.mp h with ⟨-, rfl⟩ | ⟨hphi, hselect | ⟨_, cause, -, -, hcause, -⟩⟩
  · rfl
  · exact LobeTable.kind_of_select _ hselect
  · obtain ⟨theta, htheta⟩ := hg phi hphi
    rw [hcause] at htheta
    cases htheta

end Homolosine
end

theorem Mollweide.newton_total : (newton Budget.standard : Mollweide ℝ).Total := by
  intro phi hphi
  rw [within_halfPi_iff] at hphi
  exact exists_newtonAngle_standard hphi

theorem Seam.exists_calibrate {α : Type} [Scalar α] {m : Mollweide α} (hm : m.Total) {latitude : α}
    (h : Within (-halfPi) halfPi latitude) : ∃ s, calibrate m latitude = .ok s := by
  obtain ⟨_, hband⟩ := Sinusoidal.exists_forward h 0.0
  obtain ⟨_, hcap⟩ := hm.exists_forward h 0.0
  simp only [calibrate, hband, hcap]
  exact ⟨_, rfl⟩

namespace Homolosine

/-- The usual cuts and the usual seam make a map with every total projection. -/
theorem exists_usual_of_total {m : Mollweide ℝ} (hm : m.Total) : ∃ g, usual m = .ok g := by
  obtain ⟨north, hn⟩ := LobeTable.exists_ofDegrees "north" LobeTable.north_spanning
  obtain ⟨south, hs⟩ := LobeTable.exists_ofDegrees "south" LobeTable.south_spanning
  have hseam : Within (-halfPi) halfPi (Constants.seamLatitude.value : ℝ) := by
    rw [within_halfPi_iff, abs_of_nonneg Constants.seamLatitude_nonneg]
    exact Constants.seamLatitude_lt.le
  obtain ⟨seam, hcalibrate⟩ := Seam.exists_calibrate hm hseam
  obtain ⟨_, _, hbuild, -⟩ := build_of_calibrate (LobeTable.check_of_ofDegrees LobeTable.north_spanning hn)
    (LobeTable.check_of_ofDegrees LobeTable.south_spanning hs) hcalibrate
  rw [usual, LobeTable.north, LobeTable.south, hn, hs]
  exact ⟨_, hbuild⟩

open Mollweide (Ends settle next newton latitudeEstimates)

/-- From the size of every latitude, however near the poles, Newton's method comes within fifty iterations to an
estimate at which the residual or the step is within its tolerance, ends at the first such estimate, and so gives
every latitude its angle. A map with this budget, whatever its cuts and its seam, never fails for want of iterations:
what it refuses is off the globe. -/
theorem standard_settles :
    (∀ phi : ℝ, |phi| ≤ Real.pi / 2 →
      (∃ n < 50, ∃ t u, t = (next (Real.pi * Real.sin |phi|))^[n] |phi| ∧
        (latitudeEstimates .standard phi)[n]? = some t ∧
        Ends ⟨50, 1e-12, 1e-15⟩ (Real.pi * Real.sin |phi|) t u ∧
        (∀ m < n, ∀ v, ¬ Ends ⟨50, 1e-12, 1e-15⟩ (Real.pi * Real.sin |phi|)
          ((next (Real.pi * Real.sin |phi|))^[m] |phi|) v) ∧
        settle .standard (Real.pi * Real.sin |phi|) 50 |phi| = .ok u ∧
        (|phi| < Real.pi / 2 → (newton .standard).auxiliaryAngle phi = .ok (copySign (u / 2) phi))) ∧
      ∃ theta, (newton .standard).auxiliaryAngle phi = .ok theta) ∧
    ∀ {north south : LobeTable ℝ} {latitude : ℝ} {g : Homolosine ℝ},
      build north south latitude (newton .standard) = .ok g →
        ∀ {lam phi e}, g.forward lam phi = .error e → e.kind = .domain := by
  refine ⟨fun phi hphi => ⟨?_, Mollweide.exists_newtonAngle_standard hphi⟩, fun hbuild _ _ _ h => ?_⟩
  · obtain ⟨u, hu⟩ := Mollweide.exists_settle_standard hphi
    obtain ⟨n, hn, hestimate, hends, hbefore⟩ := Mollweide.exists_ends_of_settle hu
    exact ⟨n, hn, _, u, rfl, hestimate, hends, hbefore, hu, Mollweide.newtonAngle_of_settle hu⟩
  · exact kind_of_forward (mollweide_of_build hbuild ▸ Mollweide.newton_total) h

/-- A latitude a hair's breadth from the pole, and the map with the usual cuts and seam. -/
theorem standard_settles_usual :
    (|Real.pi / 2 - 1e-30| ≤ Real.pi / 2 ∧
      ∃ n < 50, ∃ t u, (latitudeEstimates .standard (Real.pi / 2 - 1e-30))[n]? = some t ∧
        Ends ⟨50, 1e-12, 1e-15⟩ (Real.pi * Real.sin |Real.pi / 2 - 1e-30|) t u ∧
        (newton .standard).auxiliaryAngle (Real.pi / 2 - 1e-30) = .ok (copySign (u / 2) (Real.pi / 2 - 1e-30))) ∧
    ∃ (north south : LobeTable ℝ) (g : Homolosine ℝ),
      build north south Constants.seamLatitude.value (newton .standard) = .ok g ∧
        ∀ {lam phi e}, g.forward lam phi = .error e → e.kind = .domain := by
  have hsmall : (0 : ℝ) < 1e-30 ∧ (1e-30 : ℝ) ≤ 1 := by norm_num
  have hphi : |Real.pi / 2 - 1e-30| < Real.pi / 2 := by
    rw [abs_of_nonneg (by linarith [Real.two_le_pi])]
    linarith
  obtain ⟨g, hg⟩ := exists_usual_of_total Mollweide.newton_total
  obtain ⟨north, south, -, -, hbuild⟩ := parts_of_usual hg
  obtain ⟨n, hn, t, u, -, hestimate, hends, -, -, hangle⟩ := (standard_settles.1 _ hphi.le).1
  exact ⟨⟨hphi.le, n, hn, t, u, hestimate, hends, hangle hphi⟩, north, south, g, hbuild, standard_settles.2 hbuild⟩

end Homolosine
end GoodeMap
