import GoodeMap.Proofs.Estimates
import GoodeMap.Proofs.PlainRoundTrip
import GoodeMap.Proofs.RoundTrip
import GoodeMap.Proofs.Settling

/-! The scale that is read off a row. It is the scale at which the projection draws the parallel of the row,
for every way to the auxiliary angle, and it has the tolerance at the edges of the lobes as its planar measure. -/
namespace GoodeMap
open Scalar
open Mollweide (xFactor yFactor)

def TrueToScale (forward : ℝ → ℝ → Except (Failure ℝ) (ℝ × ℝ)) (xScale : ℝ → ℝ) : Prop :=
  ∀ lam phi x y, forward lam phi = .ok (x, y) → (0 ≤ xScale y ∧ xScale y ≤ 1) ∧
    ∀ lam₁ lam₂, ∃ x₁ x₂, forward lam₁ phi = .ok (x₁, y) ∧ forward lam₂ phi = .ok (x₂, y) ∧
      x₂ - x₁ = xScale y * (lam₂ - lam₁)

theorem xScaleOf_mem (b : Branch) (y : ℝ) : 0 ≤ Homolosine.xScaleOf b y ∧ Homolosine.xScaleOf b y ≤ 1 := by
  rw [Homolosine.xScaleOf_real]
  exact ⟨b.scaleOf_nonneg (b.abs_latitudeOf_le y), b.scaleOf_le_one _⟩

/-- It is enough that every longitude is drawn at its multiple of the scale. -/
theorem trueToScale_of_multiples (b : Branch) {forward : ℝ → ℝ → Except (Failure ℝ) (ℝ × ℝ)}
    (h : ∀ lam phi x y, forward lam phi = .ok (x, y) →
      ∀ lam', forward lam' phi = .ok (Homolosine.xScaleOf b y * lam', y)) :
    TrueToScale forward (Homolosine.xScaleOf b) := by
  intro lam phi x y hplace
  refine ⟨xScaleOf_mem b y, fun lam₁ lam₂ => ?_⟩
  exact ⟨_, _, h lam phi x y hplace lam₁, h lam phi x y hplace lam₂, (mul_sub _ _ _).symm⟩

theorem Sinusoidal.trueToScale : TrueToScale Sinusoidal.forward (Homolosine.xScaleOf .sinusoidal) := by
  refine trueToScale_of_multiples .sinusoidal fun lam phi x y hplace lam' => ?_
  have hphi : |phi| ≤ Real.pi / 2 := by
    unfold Sinusoidal.forward at hplace
    split_ifs at hplace with hband
    exact within_halfPi_iff.mp hband
  rw [Sinusoidal.forward_real lam hphi] at hplace
  cases hplace
  rw [Sinusoidal.forward_real lam' hphi, Homolosine.xScaleOf_real, Branch.latitudeOf_rowOf _ hphi, mul_comm]

namespace Mollweide

/-- Up to the poles the root of what is left of the row is the cosine that the row was drawn with. -/
theorem xScale_of_angle {theta : ℝ} (h : |theta| ≤ Real.pi / 2) :
    xScale (yFactor * Real.sin theta) = xFactor * Real.cos theta := by
  have hroot : √2 ≠ 0 := (Real.sqrt_pos.mpr two_pos).ne'
  have hrow : (yFactor : ℝ) * Real.sin theta / √2 = Real.sin theta :=
    (congrArg (· * Real.sin theta / √2) sqrtTwo_real).trans (mul_div_cancel_left₀ _ hroot)
  rw [xScale_real, Branch.scaleOf, exactAngle_latitudeOf, hrow,
    Real.arcsin_sin (abs_le.mp h).1 (abs_le.mp h).2]

def Upright (m : Mollweide ℝ) : Prop := ∀ phi theta, m.auxiliaryAngle phi = .ok theta → |theta| ≤ Real.pi / 2

theorem upright_newton (b : Budget ℝ) : (newton b).Upright := fun _ _ h => abs_newtonAngle_le h

theorem upright_exact : exact.Upright := by
  intro phi theta h
  obtain ⟨-, rfl⟩ := auxiliaryAngle_exact_iff.mp h
  exact abs_le.mpr (exactAngle_mem phi)

theorem Upright.trueToScale {m : Mollweide ℝ} (hm : m.Upright) :
    TrueToScale m.forward (Homolosine.xScaleOf .mollweide) := by
  refine trueToScale_of_multiples .mollweide fun lam phi x y hplace lam' => ?_
  obtain ⟨theta, htheta, -, rfl⟩ := forward_eq_ok hplace
  have hscale : xScale (yFactor * Real.sin theta) * lam' = xFactor * lam' * Real.cos theta := by
    rw [xScale_of_angle (hm phi theta htheta)]
    ring
  rw [forward, htheta]
  exact congrArg (fun x' => Except.ok (x', yFactor * Real.sin theta)) hscale.symm

end Mollweide

namespace Homolosine

def forwardOf {α : Type} [Scalar α] (g : Homolosine α) : Branch → α → α → Except (Failure α) (α × α)
  | .sinusoidal => Sinusoidal.forward
  | .mollweide => g.mollweide.forward

variable {g : Homolosine ℝ} {x y lam phi : ℝ}

theorem trueToScale_forwardOf (hm : g.mollweide.Upright) (b : Branch) :
    TrueToScale (g.forwardOf b) (xScaleOf b) := by
  cases b with
  | sinusoidal => exact Sinusoidal.trueToScale
  | mollweide => exact hm.trueToScale

/-- A piece draws a point where the projection of its branch draws it, moved by the meridian and the row. -/
theorem Piece.forward_eq_ok_iff {p : g.Piece} : p.forward lam phi = .ok (x, y) ↔
    g.forwardOf p.branch (lam - p.meridian) phi = .ok (x - p.meridian, p.row y) := by
  have hlocal : p.forward lam phi = .ok (x, y) ↔
      g.forwardLocal p.hemisphere p.branch (lam - p.meridian) phi = .ok (x - p.meridian, y) := by
    unfold Piece.forward
    cases g.forwardLocal p.hemisphere p.branch (lam - p.meridian) phi with
    | error e => simp
    | ok place => simp [Prod.ext_iff, eq_sub_iff_add_eq]
  rw [hlocal]
  unfold Piece.row
  cases p.branch with
  | sinusoidal => rfl
  | mollweide =>
    simp only [forwardLocal, forwardOf, localRow]
    cases g.mollweide.forward (lam - p.meridian) phi with
    | error e => simp
    | ok place => simp [Prod.ext_iff, sub_eq_iff_eq_add]

/-- The slack of a piece comes from the scale at which the piece draws the row. -/
theorem Piece.trueToScale (hm : g.mollweide.Upright) (p : g.Piece) :
    TrueToScale p.forward fun y => xScaleOf p.branch (p.row y) := by
  intro lam phi x y hplace
  obtain ⟨hrange, hrows⟩ := trueToScale_forwardOf hm p.branch _ _ _ _ (forward_eq_ok_iff.mp hplace)
  refine ⟨hrange, fun lam₁ lam₂ => ?_⟩
  obtain ⟨x₁, x₂, h₁, h₂, hsub⟩ := hrows (lam₁ - p.meridian) (lam₂ - p.meridian)
  refine ⟨x₁ + p.meridian, x₂ + p.meridian, ?_, ?_, ?_⟩
  · rw [forward_eq_ok_iff, add_sub_cancel_right, h₁]
  · rw [forward_eq_ok_iff, add_sub_cancel_right, h₂]
  · rw [add_sub_add_right_eq_sub, hsub, sub_sub_sub_cancel_right]

/-- What the inverse brings back to a lobe it moves by no more than the tolerance in planar x. -/
theorem exists_moved_of_inverse (h : g.inverse x y = .ok (lam, phi)) :
    ∃ p u, g.pieceOfPlace x y = .ok p ∧ p.recover x y = .ok (u, phi) ∧
      |lam - u| * xScaleOf p.branch (p.row y) ≤ Constants.edgeTolerance := by
  obtain ⟨p, u, hp, hr, hu, rfl⟩ := inverse_eq_ok_iff.mp h
  refine ⟨p, u, hp, hr, ?_⟩
  have hmoved : |p.clamp u - u| ≤ p.slack y := by
    rw [Piece.clamp_real]
    exact abs_clamp_sub_le p.left_le_right (edgeSlack_nonneg _) hu
  calc |p.clamp u - u| * xScaleOf p.branch (p.row y)
      ≤ p.slack y * xScaleOf p.branch (p.row y) := mul_le_mul_of_nonneg_right hmoved (xScaleOf_mem _ _).1
    _ ≤ Constants.edgeTolerance := edgeSlack_mul_le _

end Homolosine

open Homolosine (xScaleOf)

/-- The scale of a row is the scale of its parallel, for the sinusoidal projection, for the Mollweide projection
with every budget as with the exact angle, and for every piece of an interrupted map, tips included; with the exact
angle or the usual budget every parallel is drawn. The slack at a lobe's edges is therefore the edge tolerance in
planar x, in every row, and less only where the scale is itself below the tolerance; what the inverse brings back
to a lobe is moved by no more. -/
theorem parallels_true_to_scale :
    (TrueToScale Sinusoidal.forward Sinusoidal.xScale ∧
      (∀ b, TrueToScale (Mollweide.newton b).forward Mollweide.xScale) ∧
      TrueToScale Mollweide.exact.forward Mollweide.xScale) ∧
    (∀ lam phi, |phi| ≤ Real.pi / 2 → (∃ place, Sinusoidal.forward lam phi = .ok place) ∧
      (∃ place, (Mollweide.newton .standard).forward lam phi = .ok place) ∧
        ∃ place, Mollweide.exact.forward lam phi = .ok place) ∧
    ∀ g : Homolosine ℝ,
      ((g.mollweide = .exact ∨ ∃ b, g.mollweide = .newton b) →
        ∀ p : g.Piece, TrueToScale p.forward fun y => xScaleOf p.branch (p.row y)) ∧
      (∀ (p : g.Piece) (y : ℝ), p.slack y * xScaleOf p.branch (p.row y) ≤ 1e-10 ∧
        (1e-10 ≤ xScaleOf p.branch (p.row y) → p.slack y * xScaleOf p.branch (p.row y) = 1e-10)) ∧
      ∀ x y lam phi, g.inverse x y = .ok (lam, phi) → ∃ p u, g.pieceOfPlace x y = .ok p ∧
        p.recover x y = .ok (u, phi) ∧ |lam - u| * xScaleOf p.branch (p.row y) ≤ 1e-10 := by
  refine ⟨⟨Sinusoidal.trueToScale, fun b => (Mollweide.upright_newton b).trueToScale,
    Mollweide.upright_exact.trueToScale⟩, fun lam phi hphi => ?_, fun g =>
      ⟨fun hsolver p => ?_, fun p y => ?_, ?_⟩⟩
  · have hband : Within (-halfPi) halfPi phi := within_halfPi_iff.mpr hphi
    exact ⟨Sinusoidal.exists_forward hband lam, Mollweide.newton_total.exists_forward hband lam,
      ⟨_, Mollweide.forward_exact lam hphi⟩⟩
  · cases hsolver with
    | inl hexact => exact p.trueToScale (hexact ▸ Mollweide.upright_exact)
    | inr hnewton =>
      obtain ⟨b, hb⟩ := hnewton
      exact p.trueToScale (hb ▸ Mollweide.upright_newton b)
  · exact ⟨Homolosine.edgeSlack_mul_le _, fun hscale =>
      (Homolosine.edgeSlack_mul _).trans (min_eq_right hscale)⟩
  · intro x y lam phi h
    exact Homolosine.exists_moved_of_inverse h

/-- Newton's method near the pole, and the middle of the usual map. -/
theorem parallels_true_to_scale_polar :
    (∃ x₁ x₂ y : ℝ, (Mollweide.newton .standard).forward (-1) (3 / 2) = .ok (x₁, y) ∧
      (Mollweide.newton .standard).forward 2 (3 / 2) = .ok (x₂, y) ∧
        x₂ - x₁ = Mollweide.xScale y * (2 - -1)) ∧
    ∃ g : Homolosine ℝ, Homolosine.usual Mollweide.exact = .ok g ∧ ∃ x y, g.inverse x y = .ok (0, 0) ∧
      ∃ p u, g.pieceOfPlace x y = .ok p ∧ p.recover x y = .ok (u, 0) ∧
        |0 - u| * xScaleOf p.branch (p.row y) ≤ 1e-10 ∧
          TrueToScale p.forward fun y => xScaleOf p.branch (p.row y) := by
  obtain ⟨⟨-, hnewton, -⟩, hanswers, hmap⟩ := parallels_true_to_scale
  have hpolar : |(3 / 2 : ℝ)| ≤ Real.pi / 2 := by
    rw [abs_of_pos (by norm_num)]
    linarith [Real.pi_gt_three]
  obtain ⟨-, ⟨⟨x₀, y₀⟩, hplace⟩, -⟩ := hanswers 0 (3 / 2) hpolar
  obtain ⟨x₁, x₂, h₁, h₂, hsub⟩ := (hnewton _ _ _ _ _ hplace).2 (-1) 2
  obtain ⟨g, hg⟩ := Homolosine.exists_usual
  have hcal := Homolosine.calibrated_of_usual hg
  have hfree : ¬ (g.branchOfLatitude 0).Pinched 0 := by
    rw [Homolosine.branchOfLatitude_zero hcal]
    exact not_not.mpr abs_zero_lt_halfPi
  have hlam : Within (-pi) pi (0 : ℝ) := ⟨neg_nonpos.mpr Real.pi_pos.le, Real.pi_pos.le⟩
  obtain ⟨x, y, -, hinverse⟩ := Homolosine.exists_round_trip hcal abs_zero_lt_halfPi.le
    (Homolosine.within_of_usual hg _ hlam) hfree
  obtain ⟨hpieces, -, hmoved⟩ := hmap g
  obtain ⟨p, u, hp, hr, hle⟩ := hmoved x y 0 0 hinverse
  exact ⟨⟨x₁, x₂, _, h₁, h₂, hsub⟩, g, hg, x, y, hinverse, p, u, hp, hr, hle,
    hpieces (.inl hcal.mollweide_eq) p⟩

end GoodeMap
