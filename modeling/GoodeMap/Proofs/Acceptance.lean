import GoodeMap.Proofs.Choice
import GoodeMap.Proofs.UsualMap

/-! What the inverse accepts. A place is answered by a point that is drawn next to it, or refused as off
the map, except in a row where the inverse does not look at x: there every place of the row gets the tip
of the piece. -/
namespace GoodeMap.Homolosine
open Scalar
variable {g : Homolosine ℝ} {p : g.Piece} {x y lam phi : ℝ}

def Piece.Pinched (p : g.Piece) (y : ℝ) : Prop :=
  match p.branch with
  | .sinusoidal => ¬ |p.row y| < Real.pi / 2
  | .mollweide => ∃ theta, Mollweide.angleOfRow? (p.row y) = some theta ∧ Mollweide.AtPole theta

def Piece.Near (p : g.Piece) (lam phi x y : ℝ) : Prop :=
  ∃ x' y', p.forward lam phi = .ok (x', y') ∧ |x' - x| ≤ Constants.edgeTolerance ∧
    |y' - y| ≤ poleRowSlack

def Sound (g : Homolosine ℝ) (x y : ℝ) : Prop :=
  match g.inverse x y with
  | .ok (lam, phi) => ∃ p, g.pieceOfPlace x y = .ok p ∧ p.Near lam phi x y
  | .error e => e.kind = .domain

/-- The place is in a row where x is not looked at, and away from the piece's tip. -/
def BesideTip (g : Homolosine ℝ) (x y : ℝ) : Prop :=
  ∃ p, g.pieceOfPlace x y = .ok p ∧ p.Pinched y ∧ Constants.edgeTolerance < |x - p.meridian|

theorem sound_of_ok (hp : g.pieceOfPlace x y = .ok p) (h : g.inverse x y = .ok (lam, phi)) :
    g.Sound x y ↔ p.Near lam phi x y := by
  simp only [Sound, h, hp, Except.ok.injEq, exists_eq_left']

theorem sound_of_error {e : Failure ℝ} (h : g.inverse x y = .error e) (he : e.kind = .domain) :
    g.Sound x y := by
  simp only [Sound, h, he]

namespace Piece

theorem pinched_iff (hg : g.Calibrated) (hp : g.pieceOfPlace x y = .ok p) :
    p.Pinched y ↔ p.branch.Pinched (g.rowLatitude y) := by
  obtain ⟨-, -, hbranch, -⟩ := (pieceOfPlace_eq_ok_iff hg).mp hp
  unfold Pinched
  cases hb : p.branch with
  | sinusoidal =>
    rw [row_eq hp, rowLatitude, ← hbranch, hb]
    constructor
    · exact mt Branch.abs_lt_reach
    · intro h hlt
      rw [Branch.latitudeOf_of_lt hlt] at h
      exact h hlt
  | mollweide =>
    simp only [angleOfRow?_row hg hp hb, Option.some.injEq, exists_eq_left']
    rfl

/-- The row is missed by no more than it is past the pole row. -/
theorem abs_row_sub_le (hg : g.Calibrated) (hp : g.pieceOfPlace x y = .ok p) :
    |p.branch.rowOf (g.rowLatitude y) - p.hemisphere.sign * g.rise p.branch - y| ≤ poleRowSlack := by
  obtain ⟨hy, hhem, hbranch, -⟩ := (pieceOfPlace_eq_ok_iff hg).mp hp
  have hreach := abs_le.mp (abs_branchRow_le hg.measured poleRowSlack_nonneg hy)
  have hlocal : g.branchRow y = y + p.hemisphere.sign * g.rise p.branch := by
    rw [branchRow, localRow_real, hhem, hbranch]
  rw [sub_sub, add_comm _ y, ← hlocal, hbranch, rowLatitude, Branch.rowOf_latitudeOf]
  refine abs_clamp_sub_le ?_ poleRowSlack_nonneg ⟨?_, hreach.2⟩
  · exact neg_le_self (Branch.reach_pos _).le
  · linarith [hreach.1]

theorem near_iff (hg : g.Calibrated) (hp : g.pieceOfPlace x y = .ok p) (lam : ℝ) :
    p.Near lam (g.rowLatitude y) x y ↔
      |(lam - p.meridian) * p.branch.scaleOf (g.rowLatitude y) + p.meridian - x| ≤
        Constants.edgeTolerance := by
  have hforward := forward_real hg p lam (abs_rowLatitude_le (g := g) y)
  constructor
  · rintro ⟨x', y', h, hx, -⟩
    rw [hforward] at h
    cases h
    exact hx
  · intro hx
    exact ⟨_, _, hforward, hx, abs_row_sub_le hg hp⟩

/-- In a row that x is looked at in, the slack in longitude amounts to the tolerance in x at most. -/
theorem near_clamp (hg : g.Calibrated) (hp : g.pieceOfPlace x y = .ok p)
    (hr : p.recover x y = .ok (lam, phi)) (hfree : ¬ p.branch.Pinched (g.rowLatitude y))
    (hlam : Within (p.left - p.slack y) (p.right + p.slack y) lam) : p.Near (p.clamp lam) phi x y := by
  obtain ⟨hlam', rfl⟩ := (recover_eq_ok_iff hg hp).mp hr
  have hscale := Branch.scaleOf_pos hfree
  have hback : (lam - p.meridian) * p.branch.scaleOf (g.rowLatitude y) = x - p.meridian := by
    rw [← hlam', add_sub_cancel_right, Branch.scaleOf_mul_longitudeOf hfree]
  have hmoved : (p.clamp lam - p.meridian) * p.branch.scaleOf (g.rowLatitude y) + p.meridian - x =
      (p.clamp lam - lam) * p.branch.scaleOf (g.rowLatitude y) := by
    linear_combination hback
  have hclamp : |p.clamp lam - lam| ≤ p.slack y := by
    rw [clamp_real]
    exact abs_clamp_sub_le p.left_le_right (slack_nonneg hg hp) hlam
  rw [near_iff hg hp, hmoved, abs_mul, abs_of_pos hscale]
  calc |p.clamp lam - lam| * p.branch.scaleOf (g.rowLatitude y)
      ≤ p.slack y * p.branch.scaleOf (g.rowLatitude y) := mul_le_mul_of_nonneg_right hclamp hscale.le
    _ ≤ Constants.edgeTolerance := by
        rw [slack_real hg hp]
        exact edgeSlack_mul_le _

end Piece

theorem sound_iff_of_pinched (hg : g.Calibrated) (hp : g.pieceOfPlace x y = .ok p)
    (hpinched : p.branch.Pinched (g.rowLatitude y)) :
    g.Sound x y ↔ |x - p.meridian| ≤ Constants.edgeTolerance := by
  rw [sound_of_ok hp (inverse_of_pinched hg hp hpinched), Piece.near_iff hg hp, sub_self, zero_mul,
    zero_add, abs_sub_comm]

theorem sound_of_not_pinched (hg : g.Calibrated) (hp : g.pieceOfPlace x y = .ok p)
    (hfree : ¬ p.branch.Pinched (g.rowLatitude y)) : g.Sound x y := by
  have hr := Piece.recover_real hg.measured hp
  by_cases hlam : Within (p.left - p.slack y) (p.right + p.slack y)
      (p.branch.longitudeOf (x - p.meridian) (g.rowLatitude y) + p.meridian)
  · rw [sound_of_ok hp (inverse_of_recover hp hr hlam)]
    exact Piece.near_clamp hg hp hr hfree hlam
  · exact sound_of_error (inverse_of_not_within hp hr hlam) rfl

/-- An answer is drawn next to its place, and a refusal is off the map, except beside the tip of a piece in
a row where x is not looked at. -/
theorem sound_iff_not_besideTip {north south : LobeTable ℝ} {latitude : ℝ}
    (hbuild : build north south latitude Mollweide.exact = .ok g) (h0 : 0 ≤ latitude)
    (h1 : latitude ≤ Real.pi / 2) (x y : ℝ) : g.Sound x y ↔ ¬ g.BesideTip x y := by
  have hg := calibrated_of_build hbuild h0 h1
  cases hp : g.pieceOfPlace x y with
  | error e =>
    have hinverse : g.inverse x y = .error e := by simp only [inverse_eq, hp]
    simp [BesideTip, hp, sound_of_error hinverse (kind_of_pieceOfPlace hp)]
  | ok p =>
    have hbeside : g.BesideTip x y ↔ p.Pinched y ∧ Constants.edgeTolerance < |x - p.meridian| := by
      simp only [BesideTip, hp, Except.ok.injEq, exists_eq_left']
    rw [hbeside, Piece.pinched_iff hg hp, not_and, not_lt]
    by_cases hpinched : p.branch.Pinched (g.rowLatitude y)
    · rw [sound_iff_of_pinched hg hp hpinched]
      exact (imp_iff_right hpinched).symm
    · exact iff_of_true (sound_of_not_pinched hg hp hpinched) fun h => absurd h hpinched

theorem sound_middle : ∃ g : Homolosine ℝ, usual Mollweide.exact = .ok g ∧ g.Sound 0 0 := by
  obtain ⟨g, hg⟩ := exists_usual
  obtain ⟨north, south, -, -, hbuild⟩ := parts_of_usual hg
  have hcal := calibrated_of_usual hg
  refine ⟨g, hg, (sound_iff_not_besideTip hbuild Constants.seamLatitude_nonneg
    Constants.seamLatitude_lt.le 0 0).mpr ?_⟩
  rintro ⟨p, hp, hpinched, -⟩
  have hphi := abs_zero_lt_halfPi.le
  obtain ⟨-, -, hbranch, -⟩ := (pieceOfPlace_eq_ok_iff hcal).mp hp
  rw [← mapRow_zero hcal, branchOfRow_mapRow hcal hphi, branchOfLatitude_zero hcal] at hbranch
  rw [Piece.pinched_iff hcal hp, hbranch, ← mapRow_zero hcal, rowLatitude_mapRow hcal hphi] at hpinched
  exact hpinched abs_zero_lt_halfPi

/-- The northern tips of the usual map have an interruption between them, yet its place in the row of the
tips is answered by the eastern one. -/
theorem not_sound_pole_row : ∃ g : Homolosine ℝ, usual Mollweide.exact = .ok g ∧
    g.inverse 0 g.poleRow = .ok (Real.pi / 6, Real.pi / 2) ∧ ¬ g.Sound 0 g.poleRow := by
  obtain ⟨g, hg⟩ := exists_usual
  have hcal := calibrated_of_usual hg
  obtain ⟨i, howns, hmeridian⟩ := owns_of_usual hg le_rfl Real.pi_pos
  have hpi := Real.pi_pos
  have hpole := abs_pi_div_two.le
  have hcap : g.seam.latitude < Real.pi / 2 :=
    (seam_of_usual hg).trans_lt Constants.seamLatitude_lt
  have hnorth : Hemisphere.of (Real.pi / 2) = .north := Hemisphere.of_nonneg (half_pos hpi).le
  have hbranch : g.branchOfLatitude (Real.pi / 2) = .mollweide :=
    g.branchOfLatitude_eq_mollweide_iff.mpr (hcap.trans_le (le_abs_self _))
  have hx : Within (g.table (Hemisphere.of (Real.pi / 2))).west
      (g.table (Hemisphere.of (Real.pi / 2))).east 0 :=
    within_of_usual hg _ ⟨neg_nonpos.mpr hpi.le, hpi.le⟩
  have hp : g.pieceOfPlace 0 (g.mapRow (Real.pi / 2)) = .ok ⟨.north, i, .mollweide⟩ :=
    (pieceOfPlace_mapRow hcal hpole hx).mpr ⟨hnorth.symm, hbranch.symm, howns⟩
  have hpinched : Branch.mollweide.Pinched (g.rowLatitude (g.mapRow (Real.pi / 2))) := by
    rw [rowLatitude_mapRow hcal hpole, Branch.Pinched, Mollweide.exactAngle_halfPi]
    change |Real.cos (Real.pi / 2)| < _
    rw [Real.cos_pi_div_two, abs_zero]
    exact Mollweide.poleCosine_pos
  have hinverse := inverse_of_pinched hcal hp hpinched
  rw [rowLatitude_mapRow hcal hpole] at hinverse
  have hsound := sound_iff_of_pinched hcal hp hpinched
  rw [mapRow_halfPi hcal hcap] at hinverse hsound
  have htip : Piece.meridian ⟨.north, i, .mollweide⟩ = Real.pi / 6 := hmeridian
  have htolerance : (Constants.edgeTolerance : ℝ) = 1e-10 := rfl
  refine ⟨g, hg, htip ▸ hinverse, fun h => ?_⟩
  have hnear := hsound.mp h
  rw [htip, zero_sub, abs_neg, abs_of_pos (by linarith), htolerance] at hnear
  linarith [Real.pi_gt_three]

end GoodeMap.Homolosine
