import GoodeMap.Proofs.Calibration
import GoodeMap.Proofs.Choice

/-! Rows of the assembled map. The seam offset is sized so that band and caps meet without a step; the
hemisphere and the branch of a row are therefore those of its latitude, in both directions. -/
namespace GoodeMap
open Scalar

namespace Hemisphere

theorem of_nonneg {value : ℝ} (h : 0 ≤ value) : Hemisphere.of value = north := by
  have hzero : (0.0 : ℝ) = 0 := by norm_num
  exact if_pos (hzero.trans_le h)

theorem of_neg {value : ℝ} (h : value < 0) : Hemisphere.of value = south := by
  have hzero : (0.0 : ℝ) = 0 := by norm_num
  exact if_neg (not_le.mpr (h.trans_eq hzero.symm))

@[simp] theorem sign_north : (north.sign : ℝ) = 1 := by
  change (1.0 : ℝ) = 1
  norm_num

@[simp] theorem sign_south : (south.sign : ℝ) = -1 := by
  change (-1.0 : ℝ) = -1
  norm_num

@[simp] theorem abs_sign (h : Hemisphere) : |(h.sign : ℝ)| = 1 := by
  cases h <;> simp

theorem sign_mul_abs (value : ℝ) : (Hemisphere.of value).sign * |value| = value := by
  cases lt_or_ge value 0 with
  | inl h => rw [of_neg h, sign_south, abs_of_neg h, neg_one_mul, neg_neg]
  | inr h => rw [of_nonneg h, sign_north, abs_of_nonneg h, one_mul]

/-- A size on the side of a value is of the value's hemisphere; zero is only in the north. -/
theorem of_sign_mul {value size : ℝ} (h0 : 0 ≤ size) (h : 0 < |value| → 0 < size) :
    Hemisphere.of ((Hemisphere.of value).sign * size) = Hemisphere.of value := by
  cases lt_or_ge value 0 with
  | inl hv =>
    rw [of_neg hv, sign_south]
    exact of_neg (by linarith [h (abs_pos.mpr hv.ne)])
  | inr hv =>
    rw [of_nonneg hv, sign_north]
    exact of_nonneg (by linarith)

end Hemisphere

namespace Branch
variable {b : Branch} {phi : ℝ}

theorem rowOf_sign_mul (h : Hemisphere) (phi : ℝ) : b.rowOf (h.sign * phi) = h.sign * b.rowOf phi := by
  cases h with
  | north => simp
  | south => simp [rowOf_neg]

theorem abs_mem_range (h : |phi| ≤ Real.pi / 2) : |phi| ∈ Set.Icc (-(Real.pi / 2)) (Real.pi / 2) :=
  abs_le.mp ((abs_abs phi).trans_le h)

theorem zero_mem_range : (0 : ℝ) ∈ Set.Icc (-(Real.pi / 2)) (Real.pi / 2) :=
  abs_le.mp abs_zero_lt_halfPi.le

theorem rowOf_pos (h : |phi| ≤ Real.pi / 2) (hphi : 0 < phi) : 0 < b.rowOf phi :=
  (rowOf_zero b).symm.trans_lt (rowOf_strictMonoOn b zero_mem_range (abs_le.mp h) hphi)

theorem rowOf_nonneg (h : |phi| ≤ Real.pi / 2) (hphi : 0 ≤ phi) : 0 ≤ b.rowOf phi :=
  (rowOf_zero b).symm.trans_le ((rowOf_strictMonoOn b).monotoneOn zero_mem_range (abs_le.mp h) hphi)

theorem abs_rowOf (h : |phi| ≤ Real.pi / 2) : |b.rowOf phi| = b.rowOf |phi| := by
  have hrow := rowOf_nonneg (b := b) ((abs_abs phi).trans_le h) (abs_nonneg phi)
  conv_lhs => rw [← Hemisphere.sign_mul_abs phi, rowOf_sign_mul, abs_mul, Hemisphere.abs_sign, one_mul]
  exact abs_of_nonneg hrow

theorem abs_lt_reach {y : ℝ} (h : |b.latitudeOf y| < Real.pi / 2) : |y| < b.reach := by
  have hrow := rowOf_strictMonoOn b (abs_mem_range (abs_latitudeOf_le b y))
    (abs_le.mp abs_pi_div_two.le) h
  rw [rowOf_halfPi, ← abs_rowOf (abs_latitudeOf_le b y), rowOf_latitudeOf, abs_lt] at hrow
  cases lt_max_iff.mp hrow.1 with
  | inl hlow => exact absurd hlow (lt_irrefl _)
  | inr hlow =>
    have hhigh := (max_lt_iff.mp hrow.2).2
    cases min_lt_iff.mp hhigh with
    | inl hy => exact abs_lt.mpr ⟨(lt_min_iff.mp hlow).1, hy⟩
    | inr hy => exact absurd hy (lt_irrefl _)

theorem of_rowOf (h : |phi| ≤ Real.pi / 2) : Hemisphere.of (b.rowOf phi) = Hemisphere.of phi := by
  have habs := (abs_abs phi).trans_le h
  conv_lhs => rw [← Hemisphere.sign_mul_abs phi, rowOf_sign_mul]
  exact Hemisphere.of_sign_mul (rowOf_nonneg habs (abs_nonneg phi)) (rowOf_pos habs)

end Branch

namespace Homolosine
variable (g : Homolosine ℝ)

theorem branchOfLatitude_eq_mollweide_iff {phi : ℝ} :
    g.branchOfLatitude phi = .mollweide ↔ g.seam.latitude < |phi| := branchOfLatitude_eq_mollweide

theorem branchOfRow_eq_mollweide_iff {y : ℝ} : g.branchOfRow y = .mollweide ↔ g.seam.row < |y| := by
  unfold branchOfRow
  split_ifs with h <;> simpa using h

theorem branchOfLatitude_eq_sinusoidal_iff {phi : ℝ} :
    g.branchOfLatitude phi = .sinusoidal ↔ |phi| ≤ g.seam.latitude := by
  unfold branchOfLatitude
  split_ifs with h <;> simpa using h

theorem branchOfRow_eq_sinusoidal_iff {y : ℝ} :
    g.branchOfRow y = .sinusoidal ↔ |y| ≤ g.seam.row := by
  unfold branchOfRow
  split_ifs with h <;> simpa using h

noncomputable def rise : Branch → ℝ
  | .sinusoidal => 0
  | .mollweide => g.seam.offset

theorem localRow_real (h : Hemisphere) (b : Branch) (y : ℝ) :
    g.localRow h b y = y + h.sign * g.rise b := by
  cases b with
  | sinusoidal => simp [localRow, rise]
  | mollweide => rfl

noncomputable def mapRow (phi : ℝ) : ℝ :=
  (g.branchOfLatitude phi).rowOf phi - (Hemisphere.of phi).sign * g.rise (g.branchOfLatitude phi)

noncomputable def height (phi : ℝ) : ℝ :=
  (g.branchOfLatitude phi).rowOf |phi| - g.rise (g.branchOfLatitude phi)

theorem mapRow_eq (phi : ℝ) : g.mapRow phi = (Hemisphere.of phi).sign * g.height phi := by
  rw [height, mul_sub, ← Branch.rowOf_sign_mul, Hemisphere.sign_mul_abs, mapRow]

variable {g}

theorem Calibrated.abs_seam_le (hg : g.Calibrated) : |g.seam.latitude| ≤ Real.pi / 2 :=
  (abs_of_nonneg hg.seam_nonneg).trans_le hg.seam_le

theorem Calibrated.measured (hg : g.Calibrated) : g.seam.Measured where
  latitude_le := hg.abs_seam_le
  row_eq := hg.row_eq
  cap_le := by
    rw [hg.row_eq, hg.offset_eq, add_sub_cancel]
    exact Branch.abs_rowOf_le Branch.mollweide hg.abs_seam_le

theorem rowOf_seam_nonneg (hg : g.Calibrated) : 0 ≤ Branch.mollweide.rowOf g.seam.latitude :=
  Branch.rowOf_nonneg hg.abs_seam_le hg.seam_nonneg

theorem rowOf_seam_le (hg : g.Calibrated) : Branch.mollweide.rowOf g.seam.latitude ≤ √2 :=
  (le_abs_self _).trans (Branch.abs_rowOf_le Branch.mollweide hg.abs_seam_le)

theorem poleRow_real (hg : g.Calibrated) :
    g.poleRow = √2 - (Branch.mollweide.rowOf g.seam.latitude - g.seam.latitude) := by
  rw [poleRow, sqrtTwo_real, hg.offset_eq]

/-- The caps begin where the band ends and close at the pole row. -/
theorem height_of_cap (hg : g.Calibrated) {phi : ℝ} (h : |phi| ≤ Real.pi / 2)
    (hcap : g.seam.latitude < |phi|) : g.seam.latitude < g.height phi ∧ g.height phi ≤ g.poleRow := by
  have hseam := abs_le.mp hg.abs_seam_le
  have hrow := Branch.rowOf_strictMonoOn Branch.mollweide hseam (Branch.abs_mem_range h) hcap
  have htop : Branch.mollweide.rowOf |phi| ≤ √2 :=
    (le_abs_self _).trans (Branch.abs_rowOf_le Branch.mollweide ((abs_abs phi).trans_le h))
  rw [poleRow_real hg, height, g.branchOfLatitude_eq_mollweide_iff.mpr hcap, rise, hg.offset_eq]
  constructor <;> linarith

theorem height_of_band {phi : ℝ} (hband : |phi| ≤ g.seam.latitude) : g.height phi = |phi| := by
  rw [height, g.branchOfLatitude_eq_sinusoidal_iff.mpr hband, rise, sub_zero]
  rfl

theorem height_nonneg (hg : g.Calibrated) {phi : ℝ} (h : |phi| ≤ Real.pi / 2) : 0 ≤ g.height phi := by
  cases lt_or_ge g.seam.latitude |phi| with
  | inl hcap => exact hg.seam_nonneg.trans (height_of_cap hg h hcap).1.le
  | inr hband => exact (abs_nonneg phi).trans_eq (height_of_band hband).symm

theorem height_pos (hg : g.Calibrated) {phi : ℝ} (h : |phi| ≤ Real.pi / 2) (hphi : 0 < |phi|) :
    0 < g.height phi := by
  cases lt_or_ge g.seam.latitude |phi| with
  | inl hcap => exact hg.seam_nonneg.trans_lt (height_of_cap hg h hcap).1
  | inr hband => exact hphi.trans_eq (height_of_band hband).symm

theorem height_le (hg : g.Calibrated) {phi : ℝ} (h : |phi| ≤ Real.pi / 2) :
    g.height phi ≤ g.poleRow := by
  cases lt_or_ge g.seam.latitude |phi| with
  | inl hcap => exact (height_of_cap hg h hcap).2
  | inr hband =>
    rw [height_of_band hband, poleRow_real hg]
    linarith [rowOf_seam_le hg]

theorem abs_mapRow (hg : g.Calibrated) {phi : ℝ} (h : |phi| ≤ Real.pi / 2) :
    |g.mapRow phi| = g.height phi := by
  rw [mapRow_eq, abs_mul, Hemisphere.abs_sign, one_mul]
  exact abs_of_nonneg (height_nonneg hg h)

theorem of_mapRow (hg : g.Calibrated) {phi : ℝ} (h : |phi| ≤ Real.pi / 2) :
    Hemisphere.of (g.mapRow phi) = Hemisphere.of phi := by
  rw [mapRow_eq]
  exact Hemisphere.of_sign_mul (height_nonneg hg h) (height_pos hg h)

theorem branchOfRow_mapRow (hg : g.Calibrated) {phi : ℝ} (h : |phi| ≤ Real.pi / 2) :
    g.branchOfRow (g.mapRow phi) = g.branchOfLatitude phi := by
  have hside : g.seam.latitude < g.height phi ↔ g.seam.latitude < |phi| := by
    cases lt_or_ge g.seam.latitude |phi| with
    | inl hcap => exact ⟨fun _ => hcap, fun _ => (height_of_cap hg h hcap).1⟩
    | inr hband => rw [height_of_band hband]
  rw [← abs_mapRow hg h] at hside
  unfold branchOfRow branchOfLatitude
  simp only [hg.row_eq, abs_real, hside]

theorem branchOfLatitude_zero (hg : g.Calibrated) : g.branchOfLatitude 0 = .sinusoidal := by
  rw [branchOfLatitude_eq_sinusoidal_iff, abs_zero]
  exact hg.seam_nonneg

theorem mapRow_zero (hg : g.Calibrated) : g.mapRow 0 = 0 := by
  rw [mapRow, branchOfLatitude_zero hg, Branch.rowOf_zero, rise, mul_zero, sub_zero]

/-- Unless the band takes the whole map, the north pole is drawn in the pole row. -/
theorem mapRow_halfPi (hg : g.Calibrated) (hcap : g.seam.latitude < Real.pi / 2) :
    g.mapRow (Real.pi / 2) = g.poleRow := by
  have hnorth := Hemisphere.of_nonneg (half_pos Real.pi_pos).le
  have hbranch := g.branchOfLatitude_eq_mollweide_iff.mpr (hcap.trans_eq abs_pi_div_two.symm)
  rw [mapRow, hbranch, hnorth, rise, hg.offset_eq, poleRow_real hg, Branch.rowOf_halfPi,
    Hemisphere.sign_north, one_mul]
  rfl

/-! Back from a row of the map, which may lie a little past the pole row. -/

/-- A row beyond the seam is, for the projection of the caps, beyond the seam too. -/
theorem rowOf_seam_lt (hg : g.Calibrated) {y : ℝ} (hb : g.branchOfRow y = .mollweide) :
    Branch.mollweide.rowOf g.seam.latitude < |y| + g.rise (g.branchOfRow y) := by
  have hcap := g.branchOfRow_eq_mollweide_iff.mp hb
  rw [hg.row_eq] at hcap
  rw [hb, rise, hg.offset_eq]
  linarith

theorem add_rise_pos (hg : g.Calibrated) {y : ℝ} (hy : 0 < |y|) :
    0 < |y| + g.rise (g.branchOfRow y) := by
  cases hb : g.branchOfRow y with
  | sinusoidal => simpa [rise] using hy
  | mollweide => exact (rowOf_seam_nonneg hg).trans_lt (hb ▸ rowOf_seam_lt hg hb)

theorem add_rise_nonneg (hg : g.Calibrated) (y : ℝ) : 0 ≤ |y| + g.rise (g.branchOfRow y) := by
  cases hb : g.branchOfRow y with
  | sinusoidal => simp [rise]
  | mollweide => exact (rowOf_seam_nonneg hg).trans (hb ▸ rowOf_seam_lt hg hb).le

noncomputable def branchRow (g : Homolosine ℝ) (y : ℝ) : ℝ :=
  g.localRow (Hemisphere.of y) (g.branchOfRow y) y

noncomputable def rowLatitude (g : Homolosine ℝ) (y : ℝ) : ℝ :=
  (g.branchOfRow y).latitudeOf (g.branchRow y)

theorem abs_rowLatitude_le (y : ℝ) : |g.rowLatitude y| ≤ Real.pi / 2 :=
  Branch.abs_latitudeOf_le _ _

theorem branchRow_eq (y : ℝ) :
    g.branchRow y = (Hemisphere.of y).sign * (|y| + g.rise (g.branchOfRow y)) := by
  rw [branchRow, localRow_real, mul_add, Hemisphere.sign_mul_abs]

theorem abs_branchRow (hg : g.Calibrated) (y : ℝ) :
    |g.branchRow y| = |y| + g.rise (g.branchOfRow y) := by
  rw [branchRow_eq, abs_mul, Hemisphere.abs_sign, one_mul]
  exact abs_of_nonneg (add_rise_nonneg hg y)

theorem of_branchRow (hg : g.Calibrated) (y : ℝ) :
    Hemisphere.of (g.branchRow y) = Hemisphere.of y := by
  rw [branchRow_eq]
  exact Hemisphere.of_sign_mul (add_rise_nonneg hg y) (add_rise_pos hg)

/-- What reaches past the pole row by a slack reaches past the branch's pole by no more, on whichever side of the
equator the seam is. -/
theorem abs_branchRow_le (hg : g.seam.Measured) {y slack : ℝ} (hslack : 0 ≤ slack)
    (h : |y| ≤ g.poleRow + slack) : |g.branchRow y| ≤ (g.branchOfRow y).reach + slack := by
  rw [branchRow_eq, abs_mul, Hemisphere.abs_sign, one_mul]
  rw [poleRow, sqrtTwo_real] at h
  cases hb : g.branchOfRow y with
  | sinusoidal =>
    have hband := g.branchOfRow_eq_sinusoidal_iff.mp hb
    rw [hg.row_eq] at hband
    rw [rise, Branch.reach, add_zero, abs_abs]
    linarith [(abs_le.mp hg.latitude_le).2]
  | mollweide =>
    -- With a seam beyond the equator a cap's rows may begin on the far side, but not past the ellipse.
    have hcap := g.branchOfRow_eq_mollweide_iff.mp hb
    rw [rise, Branch.reach, abs_le]
    constructor <;> linarith [(abs_le.mp hg.cap_le).1]

theorem branchOfLatitude_rowLatitude (hg : g.Calibrated) {y : ℝ}
    (h : |g.branchRow y| ≤ (g.branchOfRow y).reach) :
    g.branchOfLatitude (g.rowLatitude y) = g.branchOfRow y := by
  have hrow : (g.branchOfRow y).rowOf (g.rowLatitude y) = g.branchRow y :=
    Branch.rowOf_latitudeOf_of_le _ h
  have hphi := abs_rowLatitude_le (g := g) y
  have hsize := abs_branchRow hg y
  rw [← hrow, Branch.abs_rowOf hphi] at hsize
  cases hb : g.branchOfRow y with
  | sinusoidal =>
    have hband := g.branchOfRow_eq_sinusoidal_iff.mp hb
    rw [hb, rise, add_zero] at hsize
    rw [branchOfLatitude_eq_sinusoidal_iff, ← hg.row_eq]
    exact hsize.trans_le hband
  | mollweide =>
    have hpast := rowOf_seam_lt hg hb
    rw [← hsize, hb] at hpast
    rw [branchOfLatitude_eq_mollweide_iff]
    exact ((Branch.rowOf_strictMonoOn _).lt_iff_lt (abs_le.mp hg.abs_seam_le)
      (Branch.abs_mem_range hphi)).mp hpast

theorem of_rowLatitude (hg : g.Calibrated) {y : ℝ} (h : |g.branchRow y| ≤ (g.branchOfRow y).reach) :
    Hemisphere.of (g.rowLatitude y) = Hemisphere.of y := by
  have hrow : (g.branchOfRow y).rowOf (g.rowLatitude y) = g.branchRow y :=
    Branch.rowOf_latitudeOf_of_le _ h
  rw [← Branch.of_rowOf (b := g.branchOfRow y) (abs_rowLatitude_le y), hrow, of_branchRow hg]

theorem mapRow_rowLatitude (hg : g.Calibrated) {y : ℝ}
    (h : |g.branchRow y| ≤ (g.branchOfRow y).reach) : g.mapRow (g.rowLatitude y) = y := by
  have hrow : (g.branchOfRow y).rowOf (g.rowLatitude y) = g.branchRow y :=
    Branch.rowOf_latitudeOf_of_le _ h
  rw [mapRow, branchOfLatitude_rowLatitude hg h, hrow, of_rowLatitude hg h, branchRow, localRow_real]
  ring

theorem rowLatitude_mapRow (hg : g.Calibrated) {phi : ℝ} (h : |phi| ≤ Real.pi / 2) :
    g.rowLatitude (g.mapRow phi) = phi := by
  have hrow : g.branchRow (g.mapRow phi) = (g.branchOfLatitude phi).rowOf phi := by
    rw [branchRow, of_mapRow hg h, branchOfRow_mapRow hg h, localRow_real, mapRow]
    ring
  rw [rowLatitude, branchOfRow_mapRow hg h, hrow]
  exact Branch.latitudeOf_rowOf _ h

end Homolosine
end GoodeMap
