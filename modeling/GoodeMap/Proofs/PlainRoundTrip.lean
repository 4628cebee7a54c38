import GoodeMap.Proofs.Parallel

/-! Round trips through the two plain projections, in exact arithmetic. Each is a bijection between the globe
and its picture, wherever the meridians are still apart; there the branches of the inverse that are meant for
rounding have nothing to do. -/
namespace GoodeMap
open Scalar
open Mollweide (exact exactAngle)

def Restores (back there : ℝ → ℝ → Except (Failure ℝ) (ℝ × ℝ)) (a b : ℝ) : Prop :=
  ∃ u v, there a b = .ok (u, v) ∧ back u v = .ok (a, b)

namespace Branch
variable {b : Branch}

noncomputable def forward : Branch → ℝ → ℝ → Except (Failure ℝ) (ℝ × ℝ)
  | sinusoidal => Sinusoidal.forward
  | mollweide => exact.forward

theorem forward_real (b : Branch) (lam : ℝ) {phi : ℝ} (h : |phi| ≤ Real.pi / 2) :
    b.forward lam phi = .ok (lam * b.scaleOf phi, b.rowOf phi) := by
  cases b with
  | sinusoidal => exact Sinusoidal.forward_real lam h
  | mollweide => exact Mollweide.forward_exact lam h

theorem inverseLocal_of_le (b : Branch) (x : ℝ) {y : ℝ} (h : |y| ≤ b.reach) :
    Homolosine.inverseLocal b x y = .ok (b.longitudeOf x (b.latitudeOf y), b.latitudeOf y) := by
  exact Homolosine.inverseLocal_real b x (h.trans (le_add_of_nonneg_right Homolosine.poleRowSlack_nonneg))

theorem restores_point (lam : ℝ) {phi : ℝ} (h : |phi| ≤ Real.pi / 2) (hfree : ¬ b.Pinched phi) :
    Restores (Homolosine.inverseLocal b) b.forward lam phi := by
  refine ⟨_, _, forward_real b lam h, ?_⟩
  rw [inverseLocal_of_le b _ (abs_rowOf_le b h), latitudeOf_rowOf b h, longitudeOf_mul_scaleOf hfree]

theorem restores_place (x : ℝ) {y : ℝ} (h : |y| ≤ b.reach) (hfree : ¬ b.Pinched (b.latitudeOf y)) :
    Restores b.forward (Homolosine.inverseLocal b) x y := by
  refine ⟨_, _, inverseLocal_of_le b x h, ?_⟩
  rw [forward_real b _ (abs_latitudeOf_le b y), scaleOf_mul_longitudeOf hfree, rowOf_latitudeOf_of_le b h]

end Branch

theorem Sinusoidal.inverse_of_band (x : ℝ) {y : ℝ} (h : |y| < Real.pi / 2) :
    Sinusoidal.inverse x y = .ok (x / Real.cos y, y) :=
  if_pos (h.trans_eq halfPi_real.symm)

theorem Sinusoidal.inverse_eq_error_iff {x y : ℝ} {e : Failure ℝ} : Sinusoidal.inverse x y = .error e ↔
    Real.pi / 2 ≤ |y| - Sinusoidal.poleSlack ∧ e = .beyondPole x y := by
  have hslack : (0 : ℝ) ≤ Sinusoidal.poleSlack := by
    change (0 : ℝ) ≤ 1e-10
    norm_num
  simp only [Sinusoidal.inverse, abs_real, halfPi_real]
  split_ifs with hband htip
  · simp only [false_iff, not_and]
    intro hout
    linarith
  · simp only [false_iff, not_and]
    exact fun hout => absurd htip (not_lt.mpr hout)
  · simp only [not_lt.mp htip, true_and, Except.error.injEq]
    exact eq_comm

namespace Mollweide

theorem abs_ratio (y : ℝ) : |y / √2| = |y| / √2 := by
  rw [abs_div, abs_of_pos (Real.sqrt_pos.mpr two_pos)]

theorem inverse_eq_error_iff {x y : ℝ} {e : Failure ℝ} : inverse x y = .error e ↔
    1 < |y| / √2 - ratioSlack ∧ e = .beyondEllipse x y := by
  rw [inverse, angleOfRow?_real, abs_ratio]
  split_ifs with hout
  · simp only [hout, true_and, Except.error.injEq]
    exact eq_comm
  · simp only [hout, false_and]

theorem auxiliaryAngle_exact_iff {phi theta : ℝ} :
    exact.auxiliaryAngle phi = .ok theta ↔ |phi| ≤ Real.pi / 2 ∧ exactAngle phi = theta := by
  simp only [exact, within_halfPi_iff]
  split_ifs with h
  · simp only [Except.ok.injEq, h, true_and]
  · simp only [h, false_and]

noncomputable def rowAngle (y : ℝ) : ℝ := asin (y / yFactor)

noncomputable def areaShare (theta : ℝ) : ℝ := (2.0 * theta + sin (2.0 * theta)) / pi

structure Straight (x y : ℝ) : Prop where
  ratio_le : Scalar.abs (y / yFactor) ≤ 1.0
  clip_eq : clip (-1.0) 1.0 (areaShare (rowAngle y)) = areaShare (rowAngle y)
  not_atPole : ¬ AtPole (rowAngle y)
  inverse_eq : inverse x y = .ok (x / (xFactor * cos (rowAngle y)), asin (areaShare (rowAngle y)))

theorem rowAngle_eq (y : ℝ) : rowAngle y = exactAngle (Branch.mollweide.latitudeOf y) := by
  rw [exactAngle_latitudeOf]
  exact congrArg (fun factor => Real.arcsin (y / factor)) sqrtTwo_real

theorem rowAngle_rowOf {phi : ℝ} (h : |phi| ≤ Real.pi / 2) :
    rowAngle (Branch.mollweide.rowOf phi) = exactAngle phi := by
  rw [rowAngle_eq, Branch.latitudeOf_rowOf _ h]

theorem areaShare_eq (theta : ℝ) : areaShare theta = stripArea theta / Real.pi := by
  have htwo : (2.0 : ℝ) = 2 := by norm_num
  rw [areaShare, stripArea, htwo]
  rfl

/-- Between the poles the area is a share of the whole disc's. -/
theorem abs_areaShare_le {theta : ℝ} (h : |theta| ≤ Real.pi / 2) : |areaShare theta| ≤ 1 := by
  have hmono := stripArea_strictMono.monotone
  have hnorth := hmono (abs_le.mp h).2
  have hsouth := hmono (abs_le.mp h).1
  rw [stripArea_neg] at hsouth
  rw [stripArea_halfPi] at hnorth hsouth
  rw [areaShare_eq, abs_div, abs_of_pos Real.pi_pos, div_le_one Real.pi_pos]
  exact abs_le.mpr ⟨hsouth, hnorth⟩

theorem clip_of_abs_le {v : ℝ} (h : |v| ≤ 1) : clip (-1.0) 1.0 v = v := by
  have hone : (1.0 : ℝ) = 1 := by norm_num
  obtain ⟨hlow, hhigh⟩ := abs_le.mp h
  rw [clip, hone, if_neg (not_lt.mpr hlow), if_neg (not_lt.mpr hhigh)]

theorem not_atPole_of_le {theta : ℝ} (h : poleCosine ≤ cos theta) : ¬ AtPole theta :=
  not_lt.mpr (h.trans (le_abs_self _))

theorem straight_of_le (x : ℝ) {y : ℝ} (hy : |y| ≤ √2) (hpole : poleCosine ≤ cos (rowAngle y)) :
    Straight x y := by
  have hone : (1.0 : ℝ) = 1 := by norm_num
  have hratio : y / (yFactor : ℝ) = y / √2 := congrArg (y / ·) sqrtTwo_real
  have hle : Scalar.abs (y / yFactor) ≤ 1.0 := by
    rw [hratio, hone, abs_real, abs_ratio]
    exact div_le_one_of_le₀ hy (Real.sqrt_nonneg 2)
  have hclip : clip (-1.0) 1.0 (areaShare (rowAngle y)) = areaShare (rowAngle y) :=
    clip_of_abs_le (abs_areaShare_le (abs_le.mpr (Real.arcsin_mem_Icc _)))
  have hapart := not_atPole_of_le hpole
  refine ⟨hle, hclip, hapart, ?_⟩
  have hangle : angleOfRow? y = some (rowAngle y) := if_neg (not_lt.mpr hle)
  have hlongitude : longitude x (rowAngle y) = x / (xFactor * cos (rowAngle y)) := if_neg hapart
  have hlatitude : latitude (rowAngle y) = asin (areaShare (rowAngle y)) := congrArg asin hclip
  rw [inverse, hangle]
  simp only [hlongitude, hlatitude]

end Mollweide

open Mollweide (poleCosine rowAngle Straight)

/-- Both plain projections and their inverses undo each other, in both orders, for all longitudes and all planar
x, in every row in which the meridians are apart. There the inverse is its closed form, and none of the branches
that are there for rounding is taken. It fails where the row is past a pole by the slack of the projection, and
nowhere else. -/
theorem plain_inverses_two_sided :
    (∀ lam phi : ℝ, |phi| < Real.pi / 2 → Restores Sinusoidal.inverse Sinusoidal.forward lam phi) ∧
    (∀ x y : ℝ, |y| < Real.pi / 2 → Restores Sinusoidal.forward Sinusoidal.inverse x y ∧
      Sinusoidal.inverse x y = .ok (x / Real.cos y, y)) ∧
    (∀ lam phi theta : ℝ, exact.auxiliaryAngle phi = .ok theta → poleCosine ≤ Real.cos theta →
      Restores Mollweide.inverse exact.forward lam phi ∧
        ∀ x y, exact.forward lam phi = .ok (x, y) → rowAngle y = theta ∧ Straight x y) ∧
    (∀ x y : ℝ, |y| ≤ √2 → poleCosine ≤ Real.cos (rowAngle y) →
      Restores exact.forward Mollweide.inverse x y ∧ Straight x y) ∧
    (∀ (x y : ℝ) (e : Failure ℝ), Sinusoidal.inverse x y = .error e ↔
      Real.pi / 2 ≤ |y| - 1e-10 ∧ e = .beyondPole x y) ∧
    ∀ (x y : ℝ) (e : Failure ℝ), Mollweide.inverse x y = .error e ↔
      1 < |y| / √2 - 1e-12 ∧ e = .beyondEllipse x y := by
  refine ⟨fun lam phi hphi => ?_, fun x y hy => ?_, fun lam phi theta htheta hpole => ?_,
    fun x y hy hpole => ?_, fun x y e => Sinusoidal.inverse_eq_error_iff,
    fun x y e => Mollweide.inverse_eq_error_iff⟩
  · exact Branch.restores_point (b := .sinusoidal) lam hphi.le (not_not.mpr hphi)
  · have hfree : ¬ Branch.sinusoidal.Pinched (Branch.sinusoidal.latitudeOf y) := by
      rw [Branch.latitudeOf_of_lt hy]
      exact not_not.mpr hy
    exact ⟨Branch.restores_place (b := .sinusoidal) x hy.le hfree, Sinusoidal.inverse_of_band x hy⟩
  · obtain ⟨hphi, rfl⟩ := Mollweide.auxiliaryAngle_exact_iff.mp htheta
    refine ⟨Branch.restores_point (b := .mollweide) lam hphi (Mollweide.not_atPole_of_le hpole), ?_⟩
    intro x y hplace
    rw [Mollweide.forward_exact lam hphi] at hplace
    cases hplace
    have hangle := Mollweide.rowAngle_rowOf hphi
    exact ⟨hangle, Mollweide.straight_of_le _ (Branch.abs_rowOf_le .mollweide hphi) (hangle ▸ hpole)⟩
  · have hfree : ¬ Branch.mollweide.Pinched (Branch.mollweide.latitudeOf y) := by
      rw [Branch.Pinched, ← Mollweide.rowAngle_eq]
      exact Mollweide.not_atPole_of_le hpole
    exact ⟨Branch.restores_place (b := .mollweide) x hy hfree, Mollweide.straight_of_le x hy hpole⟩

theorem poleCosine_le_cos_pi_div_four : poleCosine ≤ Real.cos (Real.pi / 4) := by
  have hsmall : (poleCosine : ℝ) ≤ 1 / 2 := by
    change (1e-15 : ℝ) ≤ 1 / 2
    norm_num
  have hroot : 1 ≤ √2 := Real.one_le_sqrt.mpr one_le_two
  rw [Real.cos_pi_div_four]
  linarith

theorem rowAngle_one : rowAngle 1 = Real.pi / 4 := by
  have hpi := Real.pi_pos
  have hsin : Real.sin (Real.pi / 4) = 1 / √2 := by
    rw [Real.sin_pi_div_four, eq_div_iff (Real.sqrt_pos.mpr two_pos).ne', div_mul_eq_mul_div,
      Real.mul_self_sqrt two_pos.le, div_self two_ne_zero]
  have hangle : rowAngle 1 = Real.arcsin (1 / √2) :=
    congrArg (fun factor => Real.arcsin (1 / factor)) sqrtTwo_real
  rw [hangle]
  exact Real.arcsin_eq_of_sin_eq hsin ⟨by linarith, by linarith⟩

/-- A longitude past the half turn, in rows of height one. -/
theorem plain_inverses_two_sided_unit_row :
    (|(1 : ℝ)| < Real.pi / 2 ∧ Restores Sinusoidal.inverse Sinusoidal.forward 4 1 ∧
      Restores Sinusoidal.forward Sinusoidal.inverse 4 1) ∧
    (exact.auxiliaryAngle (Mollweide.latitude (Real.pi / 4)) = .ok (Real.pi / 4) ∧
      poleCosine ≤ Real.cos (Real.pi / 4) ∧
        Restores Mollweide.inverse exact.forward 4 (Mollweide.latitude (Real.pi / 4))) ∧
    |(1 : ℝ)| ≤ √2 ∧ poleCosine ≤ Real.cos (rowAngle 1) ∧
      Restores exact.forward Mollweide.inverse 4 1 ∧ Straight 4 1 := by
  obtain ⟨hsinusoidal, hsinusoidal', hmollweide, hmollweide', -⟩ := plain_inverses_two_sided
  have hpi := Real.pi_pos
  have hband : |(1 : ℝ)| < Real.pi / 2 := by
    rw [abs_one]
    linarith [Real.pi_gt_three]
  have hquarter : |Real.pi / 4| ≤ Real.pi / 2 := by
    rw [abs_of_pos (by linarith)]
    linarith
  have hangle := Mollweide.auxiliaryAngle_exact_iff.mpr
    ⟨Mollweide.abs_latitude_le (Real.pi / 4), Mollweide.exactAngle_latitude hquarter⟩
  have hrow : |(1 : ℝ)| ≤ √2 := abs_one.trans_le (Real.one_le_sqrt.mpr one_le_two)
  have hpole := rowAngle_one ▸ poleCosine_le_cos_pi_div_four
  exact ⟨⟨hband, hsinusoidal 4 1 hband, (hsinusoidal' 4 1 hband).1⟩,
    ⟨hangle, poleCosine_le_cos_pi_div_four, (hmollweide 4 _ _ hangle poleCosine_le_cos_pi_div_four).1⟩,
    hrow, hpole, hmollweide' 4 1 hrow hpole⟩

end GoodeMap
