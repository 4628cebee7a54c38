import GoodeMap.Proofs.RowSlope
import GoodeMap.Proofs.RoundTrip

/-! The rows of the assembled map without a step. Band and caps each climb strictly and nowhere faster
than the steepest row of the Mollweide projection; both are kept where two pieces share a latitude, so
they hold from pole to pole. -/
namespace GoodeMap
open Set

def Climbs (row : ℝ → ℝ) (u v : ℝ) : Prop :=
  row u < row v ∧ row v - row u ≤ Branch.steepest * (v - u)

namespace Climbs
variable {row : ℝ → ℝ} {u v w : ℝ}

theorem trans (huv : Climbs row u v) (hvw : Climbs row v w) : Climbs row u w :=
  ⟨huv.1.trans hvw.1, by linarith [huv.2, hvw.2]⟩

/-- Rows of a branch that were all moved alike climb as they did. -/
theorem of_shift {b : Branch} {shift : ℝ} (h : Climbs b.rowOf u v) (hu : row u = b.rowOf u - shift)
    (hv : row v = b.rowOf v - shift) : Climbs row u v := by
  obtain ⟨hlt, hle⟩ := h
  constructor
  · rw [hu, hv]
    exact sub_lt_sub_right hlt shift
  · rw [hu, hv, sub_sub_sub_cancel_right]
    exact hle

/-- What climbs on both sides of a latitude climbs across it. -/
theorem of_parts {a b c : ℝ} (hwest : ∀ u v, a ≤ u → u < v → v ≤ b → Climbs row u v)
    (heast : ∀ u v, b ≤ u → u < v → v ≤ c → Climbs row u v) (hu : a ≤ u) (huv : u < v) (hv : v ≤ c) :
    Climbs row u v := by
  cases le_or_gt v b with
  | inl hvb => exact hwest u v hu huv hvb
  | inr hbv =>
    cases le_or_gt b u with
    | inl hbu => exact heast u v hbu huv hv
    | inr hub => exact (hwest u b hu hub le_rfl).trans (heast b v le_rfl hbv hv)

theorem abs_sub_le (h : u < v → Climbs row u v) (h' : v < u → Climbs row v u) :
    |row v - row u| ≤ Branch.steepest * |v - u| := by
  rcases lt_trichotomy u v with hlt | rfl | hlt
  · obtain ⟨hrow, hle⟩ := h hlt
    rwa [abs_of_pos (sub_pos.mpr hrow), abs_of_pos (sub_pos.mpr hlt)]
  · simp
  · obtain ⟨hrow, hle⟩ := h' hlt
    rwa [abs_of_neg (sub_neg.mpr hrow), abs_of_neg (sub_neg.mpr hlt), neg_sub, neg_sub]

end Climbs

theorem Branch.climbs_rowOf (b : Branch) {u v : ℝ} (hu : -(Real.pi / 2) ≤ u) (huv : u < v)
    (hv : v ≤ Real.pi / 2) : Climbs b.rowOf u v := by
  have hu' : u ∈ Icc (-(Real.pi / 2)) (Real.pi / 2) := ⟨hu, huv.le.trans hv⟩
  have hv' : v ∈ Icc (-(Real.pi / 2)) (Real.pi / 2) := ⟨hu.trans huv.le, hv⟩
  have hsteep := b.steepest_mul_sub_rowOf_monotoneOn hu' hv' huv.le
  simp only at hsteep
  exact ⟨b.rowOf_strictMonoOn hu' hv' huv, by linarith⟩

namespace Homolosine
variable {g : Homolosine ℝ} {phi : ℝ}

theorem mapRow_of_band (h : |phi| ≤ g.seam.latitude) : g.mapRow phi = phi := by
  rw [mapRow, g.branchOfLatitude_eq_sinusoidal_iff.mpr h, rise, mul_zero, sub_zero]
  rfl

/-- The northern cap with the seam: there the offset makes both projections agree. -/
theorem mapRow_of_north (hg : g.Calibrated) (h : g.seam.latitude ≤ phi) :
    g.mapRow phi = Branch.mollweide.rowOf phi - g.seam.offset := by
  have hphi := hg.seam_nonneg.trans h
  cases h.lt_or_eq with
  | inl hcap =>
    rw [mapRow, g.branchOfLatitude_eq_mollweide_iff.mpr (hcap.trans_le (le_abs_self phi)),
      Hemisphere.of_nonneg hphi, Hemisphere.sign_north, one_mul]
    rfl
  | inr hseam =>
    rw [mapRow_of_band ((abs_of_nonneg hphi).trans_le hseam.ge), hg.offset_eq, ← hseam]
    ring

theorem mapRow_of_south (hg : g.Calibrated) (h : phi ≤ -g.seam.latitude) :
    g.mapRow phi = Branch.mollweide.rowOf phi - -g.seam.offset := by
  have hphi : phi ≤ 0 := h.trans (neg_nonpos.mpr hg.seam_nonneg)
  cases h.lt_or_eq with
  | inl hcap =>
    have hneg : phi < 0 := hcap.trans_le (neg_nonpos.mpr hg.seam_nonneg)
    have hsize : g.seam.latitude < |phi| := by
      rw [abs_of_neg hneg]
      exact lt_neg.mpr hcap
    rw [mapRow, g.branchOfLatitude_eq_mollweide_iff.mpr hsize, Hemisphere.of_neg hneg,
      Hemisphere.sign_south, neg_one_mul]
    rfl
  | inr hseam =>
    have hsize : |phi| = g.seam.latitude := by
      rw [abs_of_nonpos hphi, hseam, neg_neg]
    rw [mapRow_of_band hsize.le, hg.offset_eq, hseam, Branch.rowOf_neg]
    ring

/-- Southern cap, band and northern cap meet in the two seams. -/
theorem climbs_mapRow (hg : g.Calibrated) {u v : ℝ} (hu : -(Real.pi / 2) ≤ u) (huv : u < v)
    (hv : v ≤ Real.pi / 2) : Climbs g.mapRow u v := by
  have hlow := neg_le_neg hg.seam_le
  refine Climbs.of_parts (b := -g.seam.latitude) ?_ ?_ hu huv hv
  · intro u v hu huv hv
    have hseam : v ≤ Real.pi / 2 := by linarith [hg.seam_nonneg, Real.pi_pos]
    exact (Branch.climbs_rowOf .mollweide hu huv hseam).of_shift
      (mapRow_of_south hg (huv.le.trans hv)) (mapRow_of_south hg hv)
  · intro u v hu huv hv
    refine Climbs.of_parts (b := g.seam.latitude) ?_ ?_ hu huv hv
    · intro u v hu huv hv
      have hband (t : ℝ) (hut : u ≤ t) (htv : t ≤ v) :
          g.mapRow t = Branch.sinusoidal.rowOf t - 0 := by
        rw [sub_zero]
        exact mapRow_of_band (abs_le.mpr ⟨hu.trans hut, htv.trans hv⟩)
      exact (Branch.climbs_rowOf .sinusoidal (hlow.trans hu) huv (hv.trans hg.seam_le)).of_shift
        (hband u le_rfl huv.le) (hband v huv.le le_rfl)
    · intro u v hu huv hv
      have hseam : -(Real.pi / 2) ≤ u := hlow.trans (by linarith [hg.seam_nonneg])
      exact (Branch.climbs_rowOf .mollweide hseam huv hv).of_shift
        (mapRow_of_north hg hu) (mapRow_of_north hg (hu.trans huv.le))

theorem row_of_forward (hg : g.Calibrated) {lam x y : ℝ} (h : g.forward lam phi = .ok (x, y)) :
    |phi| ≤ Real.pi / 2 ∧ y = g.mapRow phi := by
  obtain ⟨p, hp, hplace⟩ := forward_eq_ok_iff.mp h
  rw [forward_mapRow hg hp, Except.ok.injEq, Prod.mk.injEq] at hplace
  exact ⟨(pieceOfPoint_eq_ok_iff.mp hp).1, hplace.2.symm⟩

/-- One function of the latitude alone gives the row of every point, whatever the accepted tables and the
seam. It climbs strictly from pole to pole, nowhere faster than `√2 π / 4`, ends in the two pole rows, and
a row tells the hemisphere and the branch of its latitude. -/
theorem exists_row {north south : LobeTable ℝ} {latitude : ℝ}
    (hbuild : build north south latitude Mollweide.exact = .ok g) (h0 : 0 ≤ latitude)
    (h1 : latitude ≤ Real.pi / 2) :
    ∃ row : ℝ → ℝ,
      (∀ lam phi, |phi| ≤ Real.pi / 2 →
        Scalar.Within (g.table (Hemisphere.of phi)).west (g.table (Hemisphere.of phi)).east lam →
          ∃ x, g.forward lam phi = .ok (x, row phi)) ∧
      (∀ lam phi x y, g.forward lam phi = .ok (x, y) → |phi| ≤ Real.pi / 2 ∧ y = row phi) ∧
      StrictMonoOn row (Icc (-(Real.pi / 2)) (Real.pi / 2)) ∧
      (∀ u ∈ Icc (-(Real.pi / 2)) (Real.pi / 2), ∀ v ∈ Icc (-(Real.pi / 2)) (Real.pi / 2),
        |row v - row u| ≤ √2 * Real.pi / 4 * |v - u|) ∧
      ∀ phi, |phi| ≤ Real.pi / 2 →
        Scalar.Within (-(√2 - g.seam.offset)) (√2 - g.seam.offset) (row phi) ∧
          Hemisphere.of (row phi) = Hemisphere.of phi ∧
            g.branchOfRow (row phi) = g.branchOfLatitude phi := by
  have hg := calibrated_of_build hbuild h0 h1
  have hpole : g.poleRow = √2 - g.seam.offset := by rw [poleRow, Scalar.sqrtTwo_real]
  refine ⟨g.mapRow, ?_, fun _ _ _ _ h => row_of_forward hg h, ?_, ?_, ?_⟩
  · intro lam phi hphi hlam
    obtain ⟨p, hp⟩ := exists_pieceOfPoint hphi hlam
    exact ⟨_, forward_of_piece hp (forward_mapRow hg hp)⟩
  · intro u hu v hv huv
    exact (climbs_mapRow hg hu.1 huv hv.2).1
  · intro u hu v hv
    exact Climbs.abs_sub_le (fun huv => climbs_mapRow hg hu.1 huv hv.2)
      fun hvu => climbs_mapRow hg hv.1 hvu hu.2
  · intro phi hphi
    refine ⟨?_, of_mapRow hg hphi, branchOfRow_mapRow hg hphi⟩
    rw [Scalar.within_neg_iff, ← hpole, abs_mapRow hg hphi]
    exact height_le hg hphi

/-- Between a latitude of the band and one of the cap. -/
theorem exists_row_across_seam : ∃ g : Homolosine ℝ, usual Mollweide.exact = .ok g ∧
    ∃ x y x' y', g.forward 0 (Real.pi / 6) = .ok (x, y) ∧ g.forward 0 (Real.pi / 3) = .ok (x', y') ∧
      g.branchOfRow y = .sinusoidal ∧ g.branchOfRow y' = .mollweide ∧ y < y' ∧
        |y' - y| ≤ √2 * Real.pi / 4 * |Real.pi / 3 - Real.pi / 6| := by
  obtain ⟨g, hg⟩ := exists_usual
  obtain ⟨north, south, -, -, hbuild⟩ := parts_of_usual hg
  have hpi := Real.pi_pos
  obtain ⟨row, hforward, -, hmono, hsteep, hrow⟩ := exists_row hbuild Constants.seamLatitude_nonneg
    Constants.seamLatitude_lt.le
  have hband : |Real.pi / 6| ≤ g.seam.latitude := by
    rw [abs_of_pos (by linarith), seam_of_usual hg, Constants.seamLatitude_real]
    linarith
  have hcap : g.seam.latitude < |Real.pi / 3| := by
    rw [abs_of_pos (by linarith), seam_of_usual hg, Constants.seamLatitude_real]
    linarith
  have hu : |Real.pi / 6| ≤ Real.pi / 2 := by
    rw [abs_of_pos (by linarith)]
    linarith
  have hv : |Real.pi / 3| ≤ Real.pi / 2 := by
    rw [abs_of_pos (by linarith)]
    linarith
  have hlam : Scalar.Within (-Scalar.pi) Scalar.pi (0 : ℝ) := ⟨neg_nonpos.mpr hpi.le, hpi.le⟩
  obtain ⟨x, hx⟩ := hforward 0 _ hu (within_of_usual hg _ hlam)
  obtain ⟨x', hx'⟩ := hforward 0 _ hv (within_of_usual hg _ hlam)
  refine ⟨g, hg, x, _, x', _, hx, hx', ?_, ?_, hmono (abs_le.mp hu) (abs_le.mp hv) (by linarith),
    hsteep _ (abs_le.mp hu) _ (abs_le.mp hv)⟩
  · rw [(hrow _ hu).2.2]
    exact g.branchOfLatitude_eq_sinusoidal_iff.mpr hband
  · rw [(hrow _ hv).2.2]
    exact g.branchOfLatitude_eq_mollweide_iff.mpr hcap

end Homolosine
end GoodeMap
