import GoodeMap.Proofs.Velocity

/-! Neighbours of a point. Off the cuts, the seams and the antimeridian those on a parallel are drawn in
the point's own piece, and those on a meridian by the point's own projection, lowered as the point is. -/
namespace GoodeMap
open Scalar Topology

namespace Longitude

/-- Away from the ends of the principal range a step shows in the wrapped longitude as it is. -/
theorem normalize_add {lon d : ℝ} (h : |normalize lon + d| < Real.pi) :
    normalize (lon + d) = normalize lon + d :=
  ((congruent_normalize (lon + d)).trans ((congruent_normalize lon).symm.add_right d)).eq_of_abs_lt
    (within_normalize _) h

theorem normalize_sub {lon d : ℝ} (h : |normalize lon - d| < Real.pi) :
    normalize (lon - d) = normalize lon - d := by
  rw [sub_eq_add_neg] at h
  exact normalize_add h

end Longitude

theorem Hemisphere.eventually_of_eq {lat : ℝ} (h : lat ≠ 0) :
    ∀ᶠ phi in 𝓝 lat, Hemisphere.of phi = Hemisphere.of lat := by
  cases h.lt_or_gt with
  | inl hsouth =>
    filter_upwards [eventually_lt_nhds hsouth] with phi hphi
    rw [of_neg hphi, of_neg hsouth]
  | inr hnorth =>
    filter_upwards [eventually_gt_nhds hnorth] with phi hphi
    rw [of_nonneg hphi.le, of_nonneg hnorth.le]

namespace Homolosine

def SameSide (g : Homolosine ℝ) (phi psi : ℝ) : Prop :=
  g.branchOfLatitude psi = g.branchOfLatitude phi ∧
    (g.branchOfLatitude phi = .mollweide → Hemisphere.of psi = Hemisphere.of phi)

structure Undivided (g : Homolosine ℝ) (lam lat delta : ℝ) : Prop where
  lobe : ∃ p, g.pieceOfPoint (lam + delta) lat = .ok p ∧ g.pieceOfPoint (lam - delta) lat = .ok p
  north : g.SameSide lat (lat + delta)
  south : g.SameSide lat (lat - delta)

variable {g : Homolosine ℝ} {lam lat delta : ℝ}

theorem sector_of_sameSide (hg : usual Mollweide.exact = .ok g) (hlam : Within (-pi) pi lam) {phi : ℝ}
    (hphi : |phi| ≤ Real.pi / 2) (h : g.SameSide lat phi) :
    ∃ s : Sector, s.branch = g.branchOfLatitude lat ∧
      s.lowering = (Hemisphere.of lat).sign * g.rise (g.branchOfLatitude lat) ∧
        g.forward lam phi = .ok (s.place lam phi) := by
  obtain ⟨p, hp⟩ := exists_pieceOfPoint hphi (within_of_usual hg _ hlam)
  obtain ⟨-, hhem, hbranch, -⟩ := pieceOfPoint_eq_ok_iff.mp hp
  obtain ⟨hsame, hside⟩ := h
  refine ⟨p.sector, hbranch.trans hsame, ?_, forward_of_pieceOfPoint (calibrated_of_usual hg) hp⟩
  simp only [Piece.sector, hhem, hbranch, hsame]
  cases hb : g.branchOfLatitude lat with
  | sinusoidal => simp only [rise, mul_zero]
  | mollweide => rw [hside hb]

/-- Off the seams the side stays the same for some way. -/
theorem eventually_sameSide (hg : g.Calibrated) (h : |lat| ≠ g.seam.latitude) :
    ∀ᶠ phi in 𝓝 lat, g.SameSide lat phi := by
  have hsize : Filter.Tendsto (fun t : ℝ => |t|) (𝓝 lat) (𝓝 |lat|) := continuous_abs.tendsto lat
  cases h.lt_or_gt with
  | inl hband =>
    have hlat := g.branchOfLatitude_eq_sinusoidal_iff.mpr hband.le
    filter_upwards [hsize.eventually_lt_const hband] with phi hphi
    refine ⟨(g.branchOfLatitude_eq_sinusoidal_iff.mpr (le_of_lt hphi)).trans hlat.symm, fun hb => ?_⟩
    rw [hlat] at hb
    cases hb
  | inr hcap =>
    have hlat := g.branchOfLatitude_eq_mollweide_iff.mpr hcap
    have hne : lat ≠ 0 := abs_pos.mp (hg.seam_nonneg.trans_lt hcap)
    filter_upwards [hsize.eventually_const_lt hcap, Hemisphere.eventually_of_eq hne] with phi hphi hhem
    exact ⟨(g.branchOfLatitude_eq_mollweide_iff.mpr hphi).trans hlat.symm, fun _ => hhem⟩

/-- Off the cuts a lobe holds the longitudes around. -/
theorem eventually_owns {p : g.Piece} (h : p.Owns lam) (hleft : lam ≠ p.left) (hright : lam ≠ p.right) :
    ∀ᶠ c in 𝓝 lam, p.Owns c := by
  obtain ⟨hwest, heast⟩ := Piece.within_of_owns h
  filter_upwards [eventually_gt_nhds (hwest.lt_of_ne hleft.symm),
    eventually_lt_nhds (heast.lt_of_ne hright)] with c hc hc'
  exact Piece.owns_iff.mpr ⟨le_of_lt hc, .inl hc'⟩

/-- Off the cuts the neighbours on a parallel are in one piece. -/
theorem eventually_pieceOfPoint (hg : usual Mollweide.exact = .ok g) (hlat : |lat| < Real.pi / 2)
    (hlam : |lam| < Real.pi) (hcut : ∀ i, lam ≠ (g.table (Hemisphere.of lat)).left i) :
    ∃ p, ∀ᶠ l in 𝓝 lam, g.pieceOfPoint l lat = .ok p := by
  obtain ⟨hwest, heast⟩ := abs_lt.mp hlam
  obtain ⟨p, hp⟩ := exists_pieceOfPoint hlat.le (within_of_usual hg _ ⟨hwest.le, heast.le⟩)
  obtain ⟨hphi, hhem, hbranch, howns⟩ := pieceOfPoint_eq_ok_iff.mp hp
  have hleft : lam ≠ p.left := by
    obtain ⟨h, i, b⟩ := p
    cases hhem
    exact hcut i
  have hright : lam ≠ p.right := by
    rcases (Piece.owns_iff.mp howns).2 with hlt | ⟨hlast, -⟩
    · exact hlt.ne
    · have hend : p.right = Real.pi :=
        (LobeTable.right_eq_east _ hlast).trans (range_of_usual hg p.hemisphere).2
      exact heast.ne.trans_eq hend.symm
  refine ⟨p, (eventually_owns howns hleft hright).mono fun l hl => ?_⟩
  exact pieceOfPoint_eq_ok_iff.mpr ⟨hphi, hhem, hbranch, hl⟩

/-- Off the seams the neighbours on a meridian are in the point's own piece, except that on the equator
those in the south have a piece of their own. -/
theorem exists_continues (hg : usual Mollweide.exact = .ok g) (hlat : |lat| < Real.pi / 2)
    (hlam : Within (-pi) pi lam) (hseam : |lat| ≠ g.seam.latitude) :
    ∃ before after : Sector, before.Continues after lat ∧ before.branch = g.branchOfLatitude lat ∧
      ∀ᶠ phi in 𝓝 lat, g.forward lam phi =
        .ok (if lat ≤ phi then after.place lam phi else before.place lam phi) := by
  have hcal := calibrated_of_usual hg
  obtain ⟨hlow, hhigh⟩ := abs_lt.mp hlat
  obtain ⟨p, hp⟩ := exists_pieceOfPoint hlat.le (within_of_usual hg _ hlam)
  obtain ⟨-, hhem, hbranch, howns⟩ := pieceOfPoint_eq_ok_iff.mp hp
  have hrange : ∀ᶠ phi in 𝓝 lat, |phi| ≤ Real.pi / 2 := by
    filter_upwards [eventually_gt_nhds hlow, eventually_lt_nhds hhigh] with phi h h'
    exact abs_le.mpr ⟨le_of_lt h, le_of_lt h'⟩
  have hown {phi : ℝ} (hphi : |phi| ≤ Real.pi / 2) (hside : Hemisphere.of phi = Hemisphere.of lat)
      (hsame : g.SameSide lat phi) : g.forward lam phi = .ok (p.sector.place lam phi) :=
    forward_of_pieceOfPoint hcal (pieceOfPoint_eq_ok_iff.mpr
      ⟨hphi, hhem.trans hside.symm, hbranch.trans hsame.1.symm, howns⟩)
  by_cases hzero : lat = 0
  · subst hzero
    have hband : g.branchOfLatitude 0 = .sinusoidal := branchOfLatitude_zero hcal
    obtain ⟨j, -, hsouth⟩ := (g.table .south).exists_select (within_of_usual hg _ hlam)
    have hrise : p.sector.lowering = 0 := by
      simp only [Piece.sector, hbranch, hband, rise, mul_zero]
    refine ⟨Piece.sector ⟨.south, j, .sinusoidal⟩, p.sector,
      .inr ⟨rfl, rfl, hbranch.trans hband, (mul_zero _).trans hrise.symm⟩, hband.symm, ?_⟩
    filter_upwards [hrange, eventually_sameSide hcal hseam] with phi hphi hsame
    split_ifs with hside
    · exact hown hphi ((Hemisphere.of_nonneg hside).trans (Hemisphere.of_nonneg le_rfl).symm) hsame
    · exact forward_of_pieceOfPoint hcal (pieceOfPoint_eq_ok_iff.mpr
        ⟨hphi, (Hemisphere.of_neg (not_le.mp hside)).symm, hband.symm.trans hsame.1.symm, hsouth⟩)
  · refine ⟨p.sector, p.sector, .inl rfl, hbranch, ?_⟩
    filter_upwards [hrange, Hemisphere.eventually_of_eq hzero, eventually_sameSide hcal hseam]
      with phi hphi hside hsame
    rw [ite_self]
    exact hown hphi hside hsame

end Homolosine
end GoodeMap
