import GoodeMap.Proofs.Coverage
import GoodeMap.Proofs.UsualMap

/-! What the inverse of a map over the real numbers can be refused for. A seam is measured on the ellipse, whatever
auxiliary angle it was measured with and on whichever side of the equator, so no row up to the pole row is past
the pole of the projection that draws it: the piece's projection always has a point. -/
namespace GoodeMap
open Scalar

theorem Seam.measured_of_calibrate {m : Mollweide ℝ} {latitude : ℝ} {s : Seam ℝ}
    (h : Seam.calibrate m latitude = .ok s) : s.Measured := by
  obtain ⟨hlatitude, theta, -, rfl⟩ := Seam.calibrate_eq_ok h
  rw [within_halfPi_iff] at hlatitude
  refine ⟨hlatitude, rfl, ?_⟩
  simp only [Mollweide.yFactor, sqrtTwo_real, sin_real, add_sub_cancel]
  calc |√2 * Real.sin theta| = √2 * |Real.sin theta| := by rw [abs_mul, abs_of_nonneg (Real.sqrt_nonneg 2)]
    _ ≤ √2 := mul_le_of_le_one_right (Real.sqrt_nonneg 2) (Real.abs_sin_le_one theta)

/-- A seam at the south pole takes no iteration: the angle of a pole is in closed form. -/
theorem Seam.calibrate_southPole (b : Mollweide.Budget ℝ) :
    Seam.calibrate (.newton b) (-(Real.pi / 2)) =
      .ok ⟨-(Real.pi / 2), -(Real.pi / 2), -√2 + Real.pi / 2⟩ := by
  have hband : |-(Real.pi / 2)| ≤ Real.pi / 2 := (abs_neg _).trans_le abs_pi_div_two.le
  have hangle : Mollweide.newtonAngle b (-(Real.pi / 2)) = .ok (-(Real.pi / 2)) := by
    have hwithin : Within (-halfPi) halfPi (-(Real.pi / 2)) := within_halfPi_iff.mpr hband
    have hpole : Meets (Scalar.abs (-(Real.pi / 2))) halfPi := by
      rw [meets_iff, halfPi_real, abs_real, abs_neg, abs_pi_div_two]
    rw [Mollweide.newtonAngle, if_pos hwithin, if_pos hpole, halfPi_real,
      copySign_of_neg _ (neg_lt_zero.mpr (half_pos Real.pi_pos)), abs_pi_div_two]
  rw [Seam.calibrate, Sinusoidal.forward_real _ hband]
  simp only [Mollweide.forward, Mollweide.newton, hangle, Mollweide.yFactor, sqrtTwo_real, sin_real,
    Real.sin_neg, Real.sin_pi_div_two, Branch.rowOf, mul_neg, mul_one, sub_neg_eq_add]

namespace Homolosine
variable {north south : LobeTable ℝ} {latitude : ℝ} {m : Mollweide ℝ} {g : Homolosine ℝ}

theorem measured_of_build (h : build north south latitude m = .ok g) : g.seam.Measured := by
  obtain ⟨_, _, _, hseam, -, -, rfl⟩ := parts_of_build h
  exact Seam.measured_of_calibrate hseam

/-- With a seam that was measured the inverse passes on no failure of a projection. -/
theorem inverse_eq_error_iff_of_measured (hg : g.seam.Measured) {x y : ℝ} {e : Failure ℝ} :
    g.inverse x y = .error e ↔ g.pieceOfPlace x y = .error e ∨
      ∃ p lam phi, g.pieceOfPlace x y = .ok p ∧ p.recover x y = .ok (lam, phi) ∧
        ¬ Within (p.left - p.slack y) (p.right + p.slack y) lam ∧
          e = .interruption x y p.hemisphere p.lobe lam := by
  rw [inverse_eq_error_iff]
  refine or_congr_right ⟨?_, ?_⟩
  · rintro ⟨p, hp, hfailed | ⟨lam, phi, hr, hlam⟩⟩
    · rw [Piece.recover_real hg hp] at hfailed
      cases hfailed
    · exact ⟨p, lam, phi, hp, hr, hlam⟩
  · rintro ⟨p, lam, phi, hp, hr, hlam⟩
    exact ⟨p, hp, .inr ⟨lam, phi, hr, hlam⟩⟩

/-- Once a place has its piece, the piece's projection has a point there. The inverse is therefore refused for a row
past the pole row, for an x outside the planar table or for a longitude in an interruption, and never for a failure
of the projection. -/
theorem inner_inverse_succeeds (h : build north south latitude m = .ok g) (x y : ℝ) :
    (∀ p, g.pieceOfPlace x y = .ok p → ∃ lam phi,
      inverseLocal p.branch (x - Seam.horizontalShift p.meridian) (p.row y) = .ok (lam, phi)) ∧
    (∀ e, g.inverse x y = .error e ↔
      ¬ |y| ≤ g.poleRow + poleRowSlack ∧ e = .offMap x y ∨
      |y| ≤ g.poleRow + poleRowSlack ∧
        (g.sheet (Hemisphere.of y)).planar.select (g.snapToEdge (Hemisphere.of y) x) = .error e ∨
      ∃ p lam phi, g.pieceOfPlace x y = .ok p ∧ p.recover x y = .ok (lam, phi) ∧
        ¬ Within (p.left - p.slack y) (p.right + p.slack y) lam ∧
          e = .interruption x y p.hemisphere p.lobe lam) ∧
    ∀ hemisphere lobe cause, g.inverse x y ≠ .error (.inLobe hemisphere lobe cause) := by
  have hseam := measured_of_build h
  refine ⟨fun p hp => ⟨_, _, Piece.inverseLocal_row hseam hp⟩, fun e => ?_, fun hemisphere lobe cause he => ?_⟩
  · rw [inverse_eq_error_iff_of_measured hseam, pieceOfPlace_eq_error_iff, or_assoc]
    rfl
  · rcases (inverse_eq_error_iff_of_measured hseam).mp he with hp | ⟨p, lam, phi, -, -, -, hcause⟩
    · rcases pieceOfPlace_eq_error_iff.mp hp with ⟨-, hcause⟩ | ⟨-, hselect⟩
      · cases hcause
      · obtain ⟨-, hcause⟩ := (LobeTable.select_eq_error_iff _).mp hselect
        cases hcause
    · cases hcause

/-- The usual cuts with the seam at the south pole and a budget of no iterations: the middle of the map has its
piece, in the caps. -/
theorem inner_inverse_succeeds_seam_at_pole : ∃ (north south : LobeTable ℝ) (g : Homolosine ℝ),
    build north south (-(Real.pi / 2)) (.newton ⟨0, 0, 0⟩) = .ok g ∧
      ∃ p, g.pieceOfPlace 0 0 = .ok p ∧ p.branch = .mollweide ∧ ∃ lam phi,
        inverseLocal p.branch (0 - Seam.horizontalShift p.meridian) (p.row 0) = .ok (lam, phi) := by
  obtain ⟨north, hn⟩ := LobeTable.exists_ofDegrees "north" LobeTable.north_spanning
  obtain ⟨south, hs⟩ := LobeTable.exists_ofDegrees "south" LobeTable.south_spanning
  obtain ⟨northSheet, southSheet, hbuild, ⟨hgeographic, hplanar⟩, -⟩ := build_of_calibrate
    (LobeTable.check_of_ofDegrees LobeTable.north_spanning hn)
    (LobeTable.check_of_ofDegrees LobeTable.south_spanning hs) (Seam.calibrate_southPole ⟨0, 0, 0⟩)
  generalize hg : Homolosine.mk _ _ northSheet southSheet = g at hbuild
  have hrow : |(0 : ℝ)| ≤ g.poleRow + poleRowSlack := by
    have hroot : 1 ≤ √2 := Real.one_le_sqrt.mpr one_le_two
    rw [poleRow, ← hg, sqrtTwo_real, abs_zero]
    linarith [Real.pi_le_four, poleRowSlack_nonneg]
  have hcentre : g.sheet (Hemisphere.of (0 : ℝ)) = northSheet := by
    rw [Hemisphere.of_nonneg le_rfl, ← hg, sheet]
  have hx : Within (g.sheet (Hemisphere.of (0 : ℝ))).planar.west
      (g.sheet (Hemisphere.of (0 : ℝ))).planar.east 0 := by
    rw [hcentre, LobeTable.west_congr hplanar, LobeTable.west_of_ofDegrees LobeTable.north_spanning hn,
      LobeTable.east_congr hplanar (northSheet.meridians_eq.trans (congrArg _ hgeographic)),
      LobeTable.east_of_ofDegrees LobeTable.north_spanning hn]
    exact ⟨neg_nonpos.mpr Real.pi_pos.le, Real.pi_pos.le⟩
  have hcap : g.branchOfRow 0 = .mollweide := by
    rw [branchOfRow_eq_mollweide_iff, abs_zero, ← hg]
    exact neg_lt_zero.mpr (half_pos Real.pi_pos)
  obtain ⟨p, hp, hbranch⟩ := exists_pieceOfPlace_of_planar hrow hx
  exact ⟨north, south, g, hbuild, p, hp, hbranch.trans hcap, (inner_inverse_succeeds hbuild 0 0).1 p hp⟩

end Homolosine
end GoodeMap
