import GoodeMap.Proofs.Choice
import GoodeMap.Proofs.MapRow

/-! Pieces of the map over the real numbers: which piece a point and a place are given to, where a piece
draws a point and which point it has at a place. -/
namespace GoodeMap
open Scalar

namespace Sheet

theorem owns_ofPlanar {s : Sheet ℝ} (h : s.planar.boundaries = s.geographic.boundaries) {c : ℝ}
    {i : s.planar.Lobe} : s.geographic.Owns c (s.ofPlanar i) ↔ s.planar.Owns c i := by
  have hleft : s.geographic.left (s.ofPlanar i) = s.planar.left i := LobeTable.left_congr h.symm rfl
  have hright : s.geographic.right (s.ofPlanar i) = s.planar.right i :=
    LobeTable.right_congr h.symm rfl
  have heast : s.geographic.east = s.planar.east := LobeTable.east_congr h.symm s.meridians_eq.symm
  have hsize : s.geographic.meridians.size = s.planar.meridians.size :=
    congrArg Array.size s.meridians_eq.symm
  simp only [LobeTable.Owns, hleft, hright, heast, hsize]
  rfl

theorem ofPlanar_surjective (s : Sheet ℝ) : Function.Surjective s.ofPlanar :=
  fun i => ⟨i.cast (congrArg Array.size s.meridians_eq.symm), rfl⟩

end Sheet

namespace Homolosine
variable {g : Homolosine ℝ}

noncomputable def table (g : Homolosine ℝ) (h : Hemisphere) : LobeTable ℝ := (g.sheet h).geographic

def Piece.Owns (p : g.Piece) (c : ℝ) : Prop := (g.table p.hemisphere).Owns c p.lobe

theorem pieceOfPoint_eq_ok_iff {lam phi : ℝ} {p : g.Piece} : g.pieceOfPoint lam phi = .ok p ↔
    |phi| ≤ Real.pi / 2 ∧ p.hemisphere = Hemisphere.of phi ∧ p.branch = g.branchOfLatitude phi ∧
      p.Owns lam := by
  constructor
  · intro hp
    obtain ⟨hphi, lobe, hlobe, rfl⟩ := pieceOfPoint_eq_ok hp
    exact ⟨within_halfPi_iff.mp hphi, rfl, rfl, (LobeTable.select_eq_ok_iff _).mp hlobe⟩
  · obtain ⟨h, i, b⟩ := p
    rintro ⟨hphi, rfl, rfl, howns⟩
    exact pieceOfPoint_of_select (within_halfPi_iff.mpr hphi) ((LobeTable.select_eq_ok_iff _).mpr howns)

theorem pieceOfPlace_eq_ok_iff (hg : g.Calibrated) {x y : ℝ} {p : g.Piece} :
    g.pieceOfPlace x y = .ok p ↔ |y| ≤ g.poleRow + poleRowSlack ∧ p.hemisphere = Hemisphere.of y ∧
      p.branch = g.branchOfRow y ∧ p.Owns (g.snapToEdge (Hemisphere.of y) x) := by
  have hbounds := hg.planar_boundaries (Hemisphere.of y)
  constructor
  · intro hp
    obtain ⟨hy, lobe, hlobe, rfl⟩ := pieceOfPlace_eq_ok hp
    exact ⟨hy, rfl, rfl, (Sheet.owns_ofPlanar hbounds).mpr ((LobeTable.select_eq_ok_iff _).mp hlobe)⟩
  · obtain ⟨h, i, b⟩ := p
    rintro ⟨hy, rfl, rfl, howns⟩
    obtain ⟨lobe, rfl⟩ := (g.sheet (Hemisphere.of y)).ofPlanar_surjective i
    exact pieceOfPlace_of_select hy
      ((LobeTable.select_eq_ok_iff _).mpr ((Sheet.owns_ofPlanar hbounds).mp howns))

theorem snapToEdge_of_within (hg : g.Calibrated) {h : Hemisphere} {x : ℝ}
    (hx : Within (g.table h).west (g.table h).east x) : g.snapToEdge h x = x := by
  have hwest : (g.sheet h).planar.west = (g.table h).west :=
    LobeTable.west_congr (hg.planar_boundaries h)
  have heast : (g.sheet h).planar.east = (g.table h).east :=
    LobeTable.east_congr (hg.planar_boundaries h) (g.sheet h).meridians_eq
  rw [← hwest, ← heast] at hx
  exact snapToEdge_of_planar hx

theorem edgeTolerance_pos : (0 : ℝ) < Constants.edgeTolerance := by
  change (0 : ℝ) < 1e-10
  norm_num

/-- The slack is the tolerance divided by the scale, as long as the scale is not below it. -/
theorem edgeSlack_real (scale : ℝ) :
    edgeSlack scale = Constants.edgeTolerance / max scale Constants.edgeTolerance := by
  rw [edgeSlack, larger_real]

theorem edgeSlack_nonneg (scale : ℝ) : 0 ≤ edgeSlack scale := by
  rw [edgeSlack_real]
  exact div_nonneg edgeTolerance_pos.le (edgeTolerance_pos.le.trans (le_max_right _ _))

/-- In planar x the slack is the tolerance, or less where the scale itself is less. -/
theorem edgeSlack_mul (scale : ℝ) : edgeSlack scale * scale = min scale Constants.edgeTolerance := by
  rw [edgeSlack_real]
  cases le_total scale Constants.edgeTolerance with
  | inl h => rw [max_eq_right h, min_eq_left h, div_self edgeTolerance_pos.ne', one_mul]
  | inr h => rw [max_eq_left h, min_eq_right h, div_mul_cancel₀ _ (edgeTolerance_pos.trans_le h).ne']

theorem edgeSlack_mul_le (scale : ℝ) : edgeSlack scale * scale ≤ Constants.edgeTolerance :=
  (edgeSlack_mul scale).trans_le (min_le_right _ _)

namespace Piece
variable {p : g.Piece}

theorem meridian_within (hg : g.Calibrated) (p : g.Piece) : Within p.left p.right p.meridian :=
  hg.meridian_within p.hemisphere p.lobe

theorem left_le_right (p : g.Piece) : p.left ≤ p.right :=
  ((g.table p.hemisphere).left_lt_right p.lobe).le

theorem within_of_owns {c : ℝ} (h : p.Owns c) : Within p.left p.right c := LobeTable.within_lobe _ h

/-- A lobe holds its western edge; only the last one holds its eastern edge. -/
theorem owns_iff {c : ℝ} : p.Owns c ↔ p.left ≤ c ∧ (c < p.right ∨
    p.lobe.val + 1 = (g.table p.hemisphere).meridians.size ∧ c ≤ p.right) := by
  constructor
  · intro h
    have hwithin := within_of_owns h
    refine ⟨hwithin.1, ?_⟩
    rcases h with ⟨-, hright⟩ | ⟨hlast, -⟩
    · exact .inl hright
    · exact .inr ⟨hlast, hwithin.2⟩
  · rintro ⟨hleft, hright | ⟨hlast, hright⟩⟩
    · exact .inl ⟨hleft, hright⟩
    · cases hright.lt_or_eq with
      | inl hlt => exact .inl ⟨hleft, hlt⟩
      | inr heq =>
        have hend : p.right = (g.table p.hemisphere).east := LobeTable.right_eq_east _ hlast
        exact .inr ⟨hlast, meets_iff.mpr (heq.trans hend)⟩

/-- Place of a point in a piece: along the row by the scale, from the central meridian's own place. -/
theorem forward_real (hg : g.Calibrated) (p : g.Piece) (lam : ℝ) {phi : ℝ} (h : |phi| ≤ Real.pi / 2) :
    p.forward lam phi = .ok ((lam - p.meridian) * p.branch.scaleOf phi + p.meridian,
      p.branch.rowOf phi - p.hemisphere.sign * g.rise p.branch) := by
  have hlocal : g.forwardLocal p.hemisphere p.branch (lam - p.meridian) phi =
      .ok ((lam - p.meridian) * p.branch.scaleOf phi,
        p.branch.rowOf phi - p.hemisphere.sign * g.rise p.branch) := by
    cases p.branch with
    | sinusoidal => simpa [forwardLocal, rise] using Sinusoidal.forward_real (lam - p.meridian) h
    | mollweide =>
      rw [forwardLocal, hg.mollweide_eq, Mollweide.forward_exact _ h]
      rfl
  simp only [forward, hlocal, Seam.horizontalShift_real]

theorem row_eq {x y : ℝ} (hp : g.pieceOfPlace x y = .ok p) : p.row y = g.branchRow y := by
  obtain ⟨-, _, -, rfl⟩ := pieceOfPlace_eq_ok hp
  rfl

/-- On the map the piece's projection has a point: the row is past its pole by no more than the slack. -/
theorem inverseLocal_row (hg : g.seam.Measured) {x y : ℝ} (hp : g.pieceOfPlace x y = .ok p) :
    inverseLocal p.branch (x - Seam.horizontalShift p.meridian) (p.row y) =
      .ok (p.branch.longitudeOf (x - p.meridian) (g.rowLatitude y), g.rowLatitude y) := by
  obtain ⟨hy, _, -, rfl⟩ := pieceOfPlace_eq_ok hp
  rw [Seam.horizontalShift_real]
  exact inverseLocal_real (g.branchOfRow y) _ (abs_branchRow_le hg poleRowSlack_nonneg hy)

theorem recover_real (hg : g.seam.Measured) {x y : ℝ} (hp : g.pieceOfPlace x y = .ok p) :
    p.recover x y = .ok (p.branch.longitudeOf (x - p.meridian) (g.rowLatitude y) + p.meridian,
      g.rowLatitude y) := by
  simp only [recover, inverseLocal_row hg hp]

theorem recover_eq_ok_iff (hg : g.Calibrated) {x y lam phi : ℝ} (hp : g.pieceOfPlace x y = .ok p) :
    p.recover x y = .ok (lam, phi) ↔
      p.branch.longitudeOf (x - p.meridian) (g.rowLatitude y) + p.meridian = lam ∧
        g.rowLatitude y = phi := by
  rw [recover_real hg.measured hp, Except.ok.injEq, Prod.mk.injEq]

theorem angleOfRow?_row (hg : g.Calibrated) {x y : ℝ} (hp : g.pieceOfPlace x y = .ok p)
    (hb : p.branch = .mollweide) :
    Mollweide.angleOfRow? (p.row y) = some (Mollweide.exactAngle (g.rowLatitude y)) := by
  obtain ⟨hy, -, hbranch, -⟩ := (pieceOfPlace_eq_ok_iff hg).mp hp
  have hreach := abs_branchRow_le hg.measured poleRowSlack_nonneg hy
  rw [← hbranch, hb] at hreach
  rw [row_eq hp, rowLatitude, ← hbranch, hb]
  exact Mollweide.angleOfRow?_of_le hreach

/-- The slack is that of the row's own scale. -/
theorem slack_real (hg : g.Calibrated) {x y : ℝ} (hp : g.pieceOfPlace x y = .ok p) :
    p.slack y = edgeSlack (p.branch.scaleOf (g.rowLatitude y)) := by
  obtain ⟨-, -, hbranch, -⟩ := (pieceOfPlace_eq_ok_iff hg).mp hp
  rw [slack, xScaleOf_real, row_eq hp, hbranch]
  rfl

theorem slack_nonneg (hg : g.Calibrated) {x y : ℝ} (hp : g.pieceOfPlace x y = .ok p) : 0 ≤ p.slack y := by
  rw [slack_real hg hp]
  exact edgeSlack_nonneg _

theorem clamp_real (p : g.Piece) (lam : ℝ) : p.clamp lam = max p.left (min lam p.right) := by
  rw [clamp, larger_real, lesser_real, min_max_distrib_right, min_eq_left p.left_le_right, max_comm]

theorem clamp_of_within {lam : ℝ} (h : Within p.left p.right lam) : p.clamp lam = lam := by
  rw [clamp, larger_real, lesser_real, max_eq_left h.1, min_eq_left h.2]

end Piece

variable {p : g.Piece} {x y lam phi : ℝ}

theorem forward_of_piece (hp : g.pieceOfPoint lam phi = .ok p) (hf : p.forward lam phi = .ok (x, y)) :
    g.forward lam phi = .ok (x, y) := forward_eq_ok_iff.mpr ⟨p, hp, hf⟩

theorem inverse_of_recover (hp : g.pieceOfPlace x y = .ok p) (hr : p.recover x y = .ok (lam, phi))
    (h : Within (p.left - p.slack y) (p.right + p.slack y) lam) :
    g.inverse x y = .ok (p.clamp lam, phi) := inverse_eq_ok_iff.mpr ⟨p, lam, hp, hr, h, rfl⟩

theorem inverse_of_not_within (hp : g.pieceOfPlace x y = .ok p) (hr : p.recover x y = .ok (lam, phi))
    (h : ¬ Within (p.left - p.slack y) (p.right + p.slack y) lam) :
    g.inverse x y = .error (.interruption x y p.hemisphere p.lobe lam) :=
  inverse_eq_error_iff.mpr (.inr ⟨p, hp, .inr ⟨lam, phi, hr, h, rfl⟩⟩)

/-- Between the piece's own edges neither the slack nor the clamp plays a part. -/
theorem inverse_of_within (hg : g.Calibrated) (hp : g.pieceOfPlace x y = .ok p)
    (hr : p.recover x y = .ok (lam, phi)) (h : Within p.left p.right lam) :
    g.inverse x y = .ok (lam, phi) := by
  have hslack := Piece.slack_nonneg hg hp
  rw [inverse_of_recover hp hr ⟨by linarith [h.1], by linarith [h.2]⟩, Piece.clamp_of_within h]

/-- Where the meridians have come together every place gets the piece's central meridian. -/
theorem inverse_of_pinched (hg : g.Calibrated) (hp : g.pieceOfPlace x y = .ok p)
    (hpinched : p.branch.Pinched (g.rowLatitude y)) :
    g.inverse x y = .ok (p.meridian, g.rowLatitude y) := by
  have hr := Piece.recover_real hg.measured hp
  rw [Branch.longitudeOf_of_pinched hpinched, zero_add] at hr
  exact inverse_of_within hg hp hr (p.meridian_within hg)

/-- In the row of a latitude the pieces are those of its hemisphere and its branch. -/
theorem pieceOfPlace_mapRow (hg : g.Calibrated) (hphi : |phi| ≤ Real.pi / 2)
    (hx : Within (g.table (Hemisphere.of phi)).west (g.table (Hemisphere.of phi)).east x) :
    g.pieceOfPlace x (g.mapRow phi) = .ok p ↔ p.hemisphere = Hemisphere.of phi ∧
      p.branch = g.branchOfLatitude phi ∧ p.Owns x := by
  have hrow : |g.mapRow phi| ≤ g.poleRow + poleRowSlack := by
    rw [abs_mapRow hg hphi]
    linarith [height_le hg hphi, poleRowSlack_nonneg]
  rw [pieceOfPlace_eq_ok_iff hg, of_mapRow hg hphi, branchOfRow_mapRow hg hphi,
    snapToEdge_of_within hg hx]
  exact and_iff_right hrow

theorem recover_mapRow (hg : g.Calibrated) (hphi : |phi| ≤ Real.pi / 2)
    (hp : g.pieceOfPlace x (g.mapRow phi) = .ok p) : p.recover x (g.mapRow phi) =
      .ok (p.branch.longitudeOf (x - p.meridian) phi + p.meridian, phi) := by
  rw [Piece.recover_real hg.measured hp, rowLatitude_mapRow hg hphi]

theorem forward_mapRow (hg : g.Calibrated) (hp : g.pieceOfPoint lam phi = .ok p) :
    p.forward lam phi = .ok ((lam - p.meridian) * p.branch.scaleOf phi + p.meridian, g.mapRow phi) := by
  obtain ⟨hphi, hhem, hbranch, -⟩ := pieceOfPoint_eq_ok_iff.mp hp
  rw [Piece.forward_real hg p lam hphi, mapRow, hhem, hbranch]

end Homolosine
end GoodeMap
