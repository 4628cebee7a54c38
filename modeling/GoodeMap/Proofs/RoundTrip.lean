import GoodeMap.Proofs.PlainRoundTrip
import GoodeMap.Proofs.RowSlope
import GoodeMap.Proofs.UsualMap

/-! Round trips over the whole map. A piece draws a point between its own edges, so the place is looked up
in the piece that drew it, unless the meridians have come together there; the point that a piece has at a
place is drawn by that piece again. -/
namespace GoodeMap.Homolosine
open Scalar
open Mollweide (exactAngle)
variable {g : Homolosine ℝ} {p : g.Piece} {x y lam phi : ℝ}

namespace Piece

/-- Scaled towards the central meridian a longitude stays between the edges. -/
theorem within_of_scaled (hg : g.Calibrated) (h : Within p.left p.right lam) {scale : ℝ}
    (h0 : 0 ≤ scale) (h1 : scale ≤ 1) :
    Within p.left p.right ((lam - p.meridian) * scale + p.meridian) := by
  obtain ⟨hwest, heast⟩ := p.meridian_within hg
  have hkeep : 0 ≤ 1 - scale := sub_nonneg.mpr h1
  have hmw := mul_nonneg (sub_nonneg.mpr hwest) hkeep
  have hme := mul_nonneg (sub_nonneg.mpr heast) hkeep
  have hlw := mul_nonneg (sub_nonneg.mpr h.1) h0
  have hle := mul_nonneg (sub_nonneg.mpr h.2) h0
  constructor <;> linarith

/-- Short of the eastern edge it stays short of it, unless it is scaled to the meridian itself, which may stand
on a cut. -/
theorem lt_right_of_scaled (hg : g.Calibrated) (h : lam < p.right) {scale : ℝ} (h0 : 0 < scale)
    (h1 : scale ≤ 1) : (lam - p.meridian) * scale + p.meridian < p.right := by
  have hlam := mul_pos (sub_pos.mpr h) h0
  have hmeridian := mul_nonneg (sub_nonneg.mpr (p.meridian_within hg).2) (sub_nonneg.mpr h1)
  linarith

/-- So it stays in the lobe. -/
theorem owns_of_scaled (hg : g.Calibrated) (h : p.Owns lam) {scale : ℝ} (h0 : 0 < scale)
    (h1 : scale ≤ 1) : p.Owns ((lam - p.meridian) * scale + p.meridian) := by
  obtain ⟨hleft, hright⟩ := within_of_scaled hg (within_of_owns h) h0.le h1
  obtain ⟨-, hlt | ⟨hlast, -⟩⟩ := owns_iff.mp h
  · exact owns_iff.mpr ⟨hleft, .inl (lt_right_of_scaled hg hlt h0 h1)⟩
  · exact owns_iff.mpr ⟨hleft, .inr ⟨hlast, hright⟩⟩

end Piece

/-- A place off the poles is looked up in the piece that drew it. -/
theorem pieceOfPlace_of_point (hg : g.Calibrated) (hp : g.pieceOfPoint lam phi = .ok p)
    (hscale : 0 < p.branch.scaleOf phi) :
    g.pieceOfPlace ((lam - p.meridian) * p.branch.scaleOf phi + p.meridian) (g.mapRow phi) = .ok p := by
  obtain ⟨hphi, hhem, hbranch, howns⟩ := pieceOfPoint_eq_ok_iff.mp hp
  have hplace := Piece.owns_of_scaled hg howns hscale (Branch.scaleOf_le_one p.branch phi)
  have hx := LobeTable.within_of_owns _ hplace
  rw [hhem] at hx
  exact (pieceOfPlace_mapRow hg hphi hx).mpr ⟨hhem, hbranch, hplace⟩

/-- Unless the meridians have come together a point is found in the piece that drew it. -/
theorem recover_of_not_pinched (hg : g.Calibrated) (hp : g.pieceOfPoint lam phi = .ok p)
    (hfree : ¬ p.branch.Pinched phi) :
    g.pieceOfPlace ((lam - p.meridian) * p.branch.scaleOf phi + p.meridian) (g.mapRow phi) = .ok p ∧
      p.recover ((lam - p.meridian) * p.branch.scaleOf phi + p.meridian) (g.mapRow phi) =
        .ok (lam, phi) := by
  have hback := pieceOfPlace_of_point hg hp (Branch.scaleOf_pos hfree)
  have hr := recover_mapRow hg (pieceOfPoint_eq_ok_iff.mp hp).1 hback
  rw [add_sub_cancel_right, Branch.longitudeOf_mul_scaleOf hfree, sub_add_cancel] at hr
  exact ⟨hback, hr⟩

theorem exists_pieceOfPoint (hphi : |phi| ≤ Real.pi / 2)
    (hlam : Within (g.table (Hemisphere.of phi)).west (g.table (Hemisphere.of phi)).east lam) :
    ∃ p, g.pieceOfPoint lam phi = .ok p := by
  obtain ⟨i, -, howns⟩ := (g.table (Hemisphere.of phi)).exists_select hlam
  exact ⟨⟨Hemisphere.of phi, i, g.branchOfLatitude phi⟩,
    pieceOfPoint_eq_ok_iff.mpr ⟨hphi, rfl, rfl, howns⟩⟩

theorem exists_pieceOfPlace (hg : g.Calibrated) (hphi : |phi| ≤ Real.pi / 2)
    (hx : Within (g.table (Hemisphere.of phi)).west (g.table (Hemisphere.of phi)).east x) :
    ∃ p, g.pieceOfPlace x (g.mapRow phi) = .ok p ∧ p.branch = g.branchOfLatitude phi := by
  obtain ⟨i, -, howns⟩ := (g.table (Hemisphere.of phi)).exists_select hx
  exact ⟨⟨Hemisphere.of phi, i, g.branchOfLatitude phi⟩,
    (pieceOfPlace_mapRow hg hphi hx).mpr ⟨rfl, rfl, howns⟩, rfl⟩

/-- The place of such a point may be given to the next lobe, since the central meridian may be a cut. -/
theorem exists_inverse_of_pinched (hg : g.Calibrated) (hp : g.pieceOfPoint lam phi = .ok p)
    (hpinched : p.branch.Pinched phi) :
    ∃ lam', g.inverse ((lam - p.meridian) * p.branch.scaleOf phi + p.meridian) (g.mapRow phi) =
      .ok (lam', phi) := by
  obtain ⟨hphi, hhem, hbranch, howns⟩ := pieceOfPoint_eq_ok_iff.mp hp
  obtain ⟨hwest, heast⟩ := Piece.within_of_scaled hg (Piece.within_of_owns howns)
    (Branch.scaleOf_nonneg p.branch hphi) (Branch.scaleOf_le_one p.branch phi)
  have hx : Within (g.table p.hemisphere).west (g.table p.hemisphere).east
      ((lam - p.meridian) * p.branch.scaleOf phi + p.meridian) :=
    ⟨((g.table p.hemisphere).west_le_left p.lobe).trans hwest,
      heast.trans ((g.table p.hemisphere).right_le_east p.lobe)⟩
  rw [hhem] at hx
  obtain ⟨q, hq, hqb⟩ := exists_pieceOfPlace hg hphi hx
  rw [hbranch, ← hqb, ← rowLatitude_mapRow hg hphi] at hpinched
  have hinverse := inverse_of_pinched hg hq hpinched
  rw [rowLatitude_mapRow hg hphi] at hinverse
  exact ⟨q.meridian, hinverse⟩

theorem not_pinched {b : Branch} (hphi : |phi| < Real.pi / 2)
    (hpole : b = .mollweide → ¬ Mollweide.AtPole (exactAngle phi)) : ¬ b.Pinched phi := by
  cases b with
  | sinusoidal => exact not_not.mpr hphi
  | mollweide => exact hpole rfl

theorem exists_round_trip (hg : g.Calibrated) (hphi : |phi| ≤ Real.pi / 2)
    (hlam : Within (g.table (Hemisphere.of phi)).west (g.table (Hemisphere.of phi)).east lam)
    (hfree : ¬ (g.branchOfLatitude phi).Pinched phi) :
    ∃ x y, g.forward lam phi = .ok (x, y) ∧ g.inverse x y = .ok (lam, phi) := by
  obtain ⟨p, hp⟩ := exists_pieceOfPoint hphi hlam
  obtain ⟨-, -, hbranch, howns⟩ := pieceOfPoint_eq_ok_iff.mp hp
  rw [← hbranch] at hfree
  obtain ⟨hback, hr⟩ := recover_of_not_pinched hg hp hfree
  exact ⟨_, _, forward_of_piece hp (forward_mapRow hg hp),
    inverse_of_within hg hback hr (Piece.within_of_owns howns)⟩

/-- The inverse undoes the projection for every pair of accepted tables: the latitude comes back always,
the longitude, from the same piece and without a clamp, wherever the meridians are still apart. -/
theorem inverse_forward {north south : LobeTable ℝ} {latitude : ℝ}
    (hbuild : build north south latitude Mollweide.exact = .ok g) (h0 : 0 ≤ latitude)
    (h1 : latitude ≤ Real.pi / 2) (hphi : |phi| ≤ Real.pi / 2)
    (hlam : Within (g.table (Hemisphere.of phi)).west (g.table (Hemisphere.of phi)).east lam) :
    ∃ p x y, g.pieceOfPoint lam phi = .ok p ∧ g.forward lam phi = .ok (x, y) ∧
      (∃ lam', g.inverse x y = .ok (lam', phi)) ∧
        (|phi| < Real.pi / 2 → (p.branch = .mollweide → ¬ Mollweide.AtPole (exactAngle phi)) →
          g.pieceOfPlace x y = .ok p ∧ p.recover x y = .ok (lam, phi) ∧ Within p.left p.right lam ∧
            g.inverse x y = .ok (lam, phi)) := by
  have hg := calibrated_of_build hbuild h0 h1
  obtain ⟨p, hp⟩ := exists_pieceOfPoint hphi hlam
  have hlobe := Piece.within_of_owns (pieceOfPoint_eq_ok_iff.mp hp).2.2.2
  refine ⟨p, _, _, hp, forward_of_piece hp (forward_mapRow hg hp), ?_, fun hlt hpole => ?_⟩
  · by_cases hpinched : p.branch.Pinched phi
    · exact exists_inverse_of_pinched hg hp hpinched
    · obtain ⟨hback, hr⟩ := recover_of_not_pinched hg hp hpinched
      exact ⟨lam, inverse_of_within hg hback hr hlobe⟩
  · obtain ⟨hback, hr⟩ := recover_of_not_pinched hg hp (not_pinched hlt hpole)
    exact ⟨hback, hr, hlobe, inverse_of_within hg hback hr hlobe⟩

/-- The northern cut on the equator comes back as it is. -/
theorem inverse_forward_cut : ∃ g : Homolosine ℝ, usual Mollweide.exact = .ok g ∧
    ∃ x y, g.forward (Constants.tableRadians (-40)) 0 = .ok (x, y) ∧
      g.inverse x y = .ok (Constants.tableRadians (-40), 0) := by
  obtain ⟨g, hg⟩ := exists_usual
  obtain ⟨north, south, -, -, hbuild⟩ := parts_of_usual hg
  have hpi := Real.pi_pos
  have hcal := calibrated_of_usual hg
  have hlam : Within (g.table (Hemisphere.of (0 : ℝ))).west (g.table (Hemisphere.of (0 : ℝ))).east
      (Constants.tableRadians (-40)) := by
    refine within_of_usual hg _ ?_
    rw [Constants.tableRadians_real, pi_real]
    constructor <;> linarith
  obtain ⟨p, x, y, hp, hforward, -, hback⟩ := inverse_forward hbuild Constants.seamLatitude_nonneg
    Constants.seamLatitude_lt.le abs_zero_lt_halfPi.le hlam
  have hbranch : p.branch = .sinusoidal :=
    (pieceOfPoint_eq_ok_iff.mp hp).2.2.1.trans (branchOfLatitude_zero hcal)
  have hsame := hback abs_zero_lt_halfPi fun hb => by
    rw [hbranch] at hb
    cases hb
  exact ⟨g, hg, x, y, hforward, hsame.2.2.2⟩

/-- Of a place whose point lies in the piece it is looked up in, the projection is the place again, as long
as the x was looked at. -/
theorem forward_inverse {north south : LobeTable ℝ} {latitude : ℝ}
    (hbuild : build north south latitude Mollweide.exact = .ok g) (h0 : 0 ≤ latitude)
    (h1 : latitude ≤ Real.pi / 2) (hp : g.pieceOfPlace x y = .ok p) (hr : p.recover x y = .ok (lam, phi))
    (hlam : p.left ≤ lam ∧ (lam < p.right ∨
      p.lobe.val + 1 = (g.table p.hemisphere).meridians.size ∧ lam ≤ p.right))
    (hphi : |phi| < Real.pi / 2)
    (hpole : p.branch = .mollweide → ∀ theta, Mollweide.angleOfRow? (p.row y) = some theta →
      ¬ Mollweide.AtPole theta) :
    g.inverse x y = .ok (lam, phi) ∧ g.pieceOfPoint lam phi = .ok p ∧
      g.forward lam phi = .ok (x, y) := by
  have hg := calibrated_of_build hbuild h0 h1
  obtain ⟨-, hhem, hbranch, -⟩ := (pieceOfPlace_eq_ok_iff hg).mp hp
  obtain ⟨rfl, rfl⟩ := (Piece.recover_eq_ok_iff hg hp).mp hr
  have hreach : |g.branchRow y| < (g.branchOfRow y).reach := Branch.abs_lt_reach hphi
  have hfree : ¬ p.branch.Pinched (g.rowLatitude y) :=
    not_pinched hphi fun hb => hpole hb _ (Piece.angleOfRow?_row hg hp hb)
  have howns := Piece.owns_iff.mpr hlam
  have hpoint : g.pieceOfPoint (p.branch.longitudeOf (x - p.meridian) (g.rowLatitude y) + p.meridian)
      (g.rowLatitude y) = .ok p := by
    refine pieceOfPoint_eq_ok_iff.mpr ⟨hphi.le, ?_, ?_, howns⟩
    · rw [hhem, of_rowLatitude hg hreach.le]
    · rw [hbranch, branchOfLatitude_rowLatitude hg hreach.le]
  have hforward := forward_of_piece hpoint (forward_mapRow hg hpoint)
  rw [add_sub_cancel_right, Branch.scaleOf_mul_longitudeOf hfree, sub_add_cancel,
    mapRow_rowLatitude hg hreach.le] at hforward
  exact ⟨inverse_of_within hg hp hr (Piece.within_of_owns howns), hpoint, hforward⟩

/-- A place on the northern cap, east of its lobe's central meridian. -/
theorem forward_inverse_cap : ∃ g : Homolosine ℝ, usual Mollweide.exact = .ok g ∧ ∃ p x y,
    g.pieceOfPlace x y = .ok p ∧ p.branch = .mollweide ∧ p.meridian = Real.pi / 6 ∧
      g.inverse x y = .ok (Real.pi / 4, Real.pi / 4) ∧ g.forward (Real.pi / 4) (Real.pi / 4) = .ok (x, y) := by
  obtain ⟨g, hg⟩ := exists_usual
  obtain ⟨north, south, -, -, hbuild⟩ := parts_of_usual hg
  have hpi := Real.pi_pos
  have hcal := calibrated_of_usual hg
  have hnonneg : 0 ≤ Real.pi / 4 := by linarith
  have hphi : |Real.pi / 4| < Real.pi / 2 := by
    rw [abs_of_nonneg hnonneg]
    linarith
  have hcap : g.branchOfLatitude (Real.pi / 4) = .mollweide := by
    rw [branchOfLatitude_eq_mollweide_iff, seam_of_usual hg, Constants.seamLatitude_real, abs_of_nonneg hnonneg]
    linarith
  have hpole : ¬ Mollweide.AtPole (exactAngle (Real.pi / 4)) := Mollweide.not_atPole_of_le
    (poleCosine_le_cos_pi_div_four.trans (Mollweide.cos_le_cos_exactAngle hphi.le))
  obtain ⟨i, howns, hmeridian⟩ := owns_of_usual hg hnonneg (by linarith)
  have hpoint : g.pieceOfPoint (Real.pi / 4) (Real.pi / 4) = .ok ⟨.north, i, .mollweide⟩ :=
    pieceOfPoint_eq_ok_iff.mpr ⟨hphi.le, (Hemisphere.of_nonneg hnonneg).symm, hcap.symm, howns⟩
  obtain ⟨hback, hr⟩ := recover_of_not_pinched hcal hpoint (not_pinched hphi fun _ => hpole)
  obtain ⟨hinverse, -, hforward⟩ := forward_inverse hbuild Constants.seamLatitude_nonneg
    Constants.seamLatitude_lt.le hback hr (Piece.owns_iff.mp howns) hphi fun hb theta htheta => by
      rw [Piece.angleOfRow?_row hcal hback hb, rowLatitude_mapRow hcal hphi.le] at htheta
      cases htheta
      exact hpole
  exact ⟨g, hg, _, _, _, hback, rfl, hmeridian, hinverse, hforward⟩

end GoodeMap.Homolosine
