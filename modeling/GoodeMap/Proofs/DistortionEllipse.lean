import GoodeMap.Distortion
import GoodeMap.Proofs.Parallel

/-! The distortion ellipse of any map over the real numbers. Two partial derivatives span no more area than a
rectangle of their lengths; from this alone the axes of the ellipse are real, ordered and not negative, whatever
the map is. -/
namespace GoodeMap
open Scalar

namespace Indicatrix

section
variable {α : Type} [Scalar α]

def axisSum (h k area : α) : α := sqrt (h * h + k * k + 2.0 * area)

def axisDifference (h k area : α) : α := sqrt (larger (h * h + k * k - 2.0 * area) 0.0)

theorem ofScales_eq (h k area : α) : ofScales h k area =
    { semiMajor := (axisSum h k area + axisDifference h k area) / 2.0
      semiMinor := (axisSum h k area - axisDifference h k area) / 2.0
      meridianScale := h
      parallelScale := k
      areaScale := area
      angularDistortion := 2.0 * asin (axisDifference h k area / axisSum h k area) } := rfl

end

section
variable {h k area : ℝ}

theorem axisSum_real (h k area : ℝ) : axisSum h k area = √(h ^ 2 + k ^ 2 + 2 * area) := by
  change √(h * h + k * k + 2.0 * area) = _
  norm_num [sq]

/-- The radicand is a square and what the rectangle of the scales has more than the area. -/
theorem radicand_nonneg (hle : area ≤ h * k) : 0 ≤ h ^ 2 + k ^ 2 - 2 * area := by
  have hsplit : h ^ 2 + k ^ 2 - 2 * area = (h - k) ^ 2 + 2 * (h * k - area) := by ring
  have hsquare := sq_nonneg (h - k)
  rw [hsplit]
  linarith

theorem larger_radicand (hle : area ≤ h * k) :
    larger (h * h + k * k - 2.0 * area) 0.0 = h * h + k * k - 2.0 * area := by
  have hnonneg := radicand_nonneg hle
  have htwo : (2.0 : ℝ) = 2 := by norm_num
  have hzero : (0.0 : ℝ) = 0 := by norm_num
  rw [larger_real, htwo, hzero, ← sq, ← sq]
  exact max_eq_left hnonneg

theorem axisDifference_real (hle : area ≤ h * k) : axisDifference h k area = √(h ^ 2 + k ^ 2 - 2 * area) := by
  change √(larger (h * h + k * k - 2.0 * area) 0.0) = _
  rw [larger_radicand hle]
  norm_num [sq]

theorem axisSum_sq (harea : 0 ≤ area) : axisSum h k area ^ 2 = h ^ 2 + k ^ 2 + 2 * area := by
  rw [axisSum_real, Real.sq_sqrt (by positivity)]

theorem axisDifference_sq (hle : area ≤ h * k) : axisDifference h k area ^ 2 = h ^ 2 + k ^ 2 - 2 * area := by
  rw [axisDifference_real hle, Real.sq_sqrt (radicand_nonneg hle)]

theorem axisDifference_nonneg (h k area : ℝ) : 0 ≤ axisDifference h k area := Real.sqrt_nonneg _

theorem axisDifference_le (harea : 0 ≤ area) (hle : area ≤ h * k) :
    axisDifference h k area ≤ axisSum h k area := by
  rw [axisSum_real, axisDifference_real hle]
  exact Real.sqrt_le_sqrt (by linarith)

theorem axisSum_pos (harea : 0 ≤ area) (hne : h ≠ 0 ∨ k ≠ 0) : 0 < axisSum h k area := by
  rw [axisSum_real]
  refine Real.sqrt_pos.mpr ?_
  cases hne with
  | inl hne => positivity
  | inr hne => positivity

end

structure Fits (t : Indicatrix ℝ) : Prop where
  eq_ofScales : t = ofScales t.meridianScale t.parallelScale t.areaScale
  area_nonneg : 0 ≤ t.areaScale
  area_le : t.areaScale ≤ t.meridianScale * t.parallelScale
  radicand_nonneg : 0 ≤ t.meridianScale ^ 2 + t.parallelScale ^ 2 - 2 * t.areaScale
  larger_eq : larger (t.meridianScale * t.meridianScale + t.parallelScale * t.parallelScale - 2.0 * t.areaScale) 0.0 =
    t.meridianScale * t.meridianScale + t.parallelScale * t.parallelScale - 2.0 * t.areaScale
  semiMinor_nonneg : 0 ≤ t.semiMinor
  semiMinor_le : t.semiMinor ≤ t.semiMajor
  axes_mul : t.semiMajor * t.semiMinor = t.areaScale
  axes_sq : t.semiMajor ^ 2 + t.semiMinor ^ 2 = t.meridianScale ^ 2 + t.parallelScale ^ 2
  sum_pos : t.meridianScale ≠ 0 ∨ t.parallelScale ≠ 0 → 0 < axisSum t.meridianScale t.parallelScale t.areaScale
  ratio_within : t.meridianScale ≠ 0 ∨ t.parallelScale ≠ 0 →
    Within 0 1 (axisDifference t.meridianScale t.parallelScale t.areaScale /
      axisSum t.meridianScale t.parallelScale t.areaScale)

theorem fits_ofScales {h k area : ℝ} (harea : 0 ≤ area) (hle : area ≤ h * k) : (ofScales h k area).Fits := by
  have htwo : (2.0 : ℝ) = 2 := by norm_num
  have hnonneg := axisDifference_nonneg h k area
  have horder := axisDifference_le harea hle
  have hmul : (axisSum h k area + axisDifference h k area) / 2 *
      ((axisSum h k area - axisDifference h k area) / 2) = area := by
    calc _ = (axisSum h k area ^ 2 - axisDifference h k area ^ 2) / 4 := by ring
      _ = area := by rw [axisSum_sq harea, axisDifference_sq hle]; ring
  have hsq : ((axisSum h k area + axisDifference h k area) / 2) ^ 2 +
      ((axisSum h k area - axisDifference h k area) / 2) ^ 2 = h ^ 2 + k ^ 2 := by
    calc _ = (axisSum h k area ^ 2 + axisDifference h k area ^ 2) / 2 := by ring
      _ = h ^ 2 + k ^ 2 := by rw [axisSum_sq harea, axisDifference_sq hle]; ring
  rw [ofScales_eq, htwo]
  refine ⟨?_, harea, hle, radicand_nonneg hle, larger_radicand hle, ?_, ?_, hmul, hsq, axisSum_pos harea,
    fun hne => ?_⟩
  · rw [ofScales_eq, htwo]
  · exact div_nonneg (sub_nonneg.mpr horder) zero_le_two
  · exact div_le_div_of_nonneg_right (by linarith) zero_le_two
  · have hpos := axisSum_pos harea hne
    exact ⟨div_nonneg hnonneg hpos.le, (div_le_one hpos).mpr horder⟩

end Indicatrix

namespace Distortion

@[simp] theorem square_real (x : ℝ) : square x = .ok (x * x) := by
  have hfinite (y : ℝ) : isFinite y = true := rfl
  simp [square, hfinite]

/-- Two derivatives span at most the rectangle of their lengths: what it has more is their inner product. -/
theorem abs_det_le (a b c d : ℝ) : |a * d - b * c| ≤ √(a * a + b * b) * √(c * c + d * d) := by
  rw [← Real.sqrt_mul (add_nonneg (mul_self_nonneg a) (mul_self_nonneg b))]
  refine Real.abs_le_sqrt ?_
  have hlagrange : (a * a + b * b) * (c * c + d * d) = (a * d - b * c) ^ 2 + (a * c + b * d) ^ 2 := by ring
  rw [hlagrange]
  exact le_add_of_nonneg_right (sq_nonneg _)

noncomputable def partialEllipse (radius cosLat : ℝ) (east north : ℝ × ℝ) : Indicatrix ℝ :=
  .ofScales (√(north.1 * north.1 + north.2 * north.2) / radius)
    (√(east.1 * east.1 + east.2 * east.2) / (radius * cosLat))
    (|north.1 * east.2 - north.2 * east.1| / (radius * radius * cosLat))

theorem ofPartials_real (radius cosLat : ℝ) (east north : ℝ × ℝ) :
    ofPartials radius cosLat east north = .ok (partialEllipse radius cosLat east north) := by
  simp only [ofPartials, square_real]
  rfl

theorem fits_partialEllipse {radius cosLat : ℝ} (hradius : 0 < radius) (hcos : 0 < cosLat) (east north : ℝ × ℝ) :
    (partialEllipse radius cosLat east north).Fits := by
  have harea : 0 ≤ |north.1 * east.2 - north.2 * east.1| / (radius * radius * cosLat) := by positivity
  refine Indicatrix.fits_ofScales harea ?_
  rw [div_mul_div_comm, ← mul_assoc]
  exact div_le_div_of_nonneg_right (abs_det_le _ _ _ _) (by positivity)

noncomputable def stencilEllipse (radius lat delta : ℝ) (e w n s : ℝ × ℝ) : Indicatrix ℝ :=
  partialEllipse radius (Real.cos lat) (slope e w (2.0 * delta)) (slope n s (2.0 * delta))

section
variable {radius lat lon delta : ℝ} (hdelta : delta ≠ 0)
include hdelta

/-- With a step that is not zero, nothing fails but a call of the map. -/
theorem indicatrix_eq_bind {m : Type → Type} [Monad m] [LawfulMonad m] [MonadExceptOf (Failure ℝ) m]
    (project : ℝ → ℝ → m (ℝ × ℝ)) : indicatrix project radius lat lon delta = (do
      let e ← project lat (lon + delta)
      let w ← project lat (lon - delta)
      let n ← project (lat + delta) lon
      let s ← project (lat - delta) lon
      pure (stencilEllipse radius lat delta e w n s)) := by
  have hspan : ¬ Meets (2.0 * delta) 0.0 := by
    have hzero : (0.0 : ℝ) = 0 := by norm_num
    rw [meets_iff, hzero]
    exact mul_ne_zero (by norm_num) hdelta
  simp only [indicatrix, if_neg hspan, cos_real, ofPartials_real]
  rfl

theorem indicatrix_of_neighbours {project : ℝ → ℝ → Except (Failure ℝ) (ℝ × ℝ)} {e w n s : ℝ × ℝ}
    (he : project lat (lon + delta) = .ok e) (hw : project lat (lon - delta) = .ok w)
    (hn : project (lat + delta) lon = .ok n) (hs : project (lat - delta) lon = .ok s) :
    indicatrix project radius lat lon delta = .ok (stencilEllipse radius lat delta e w n s) := by
  rw [indicatrix_eq_bind hdelta, he, hw, hn, hs]
  rfl

end

/-- Of any map on a sphere, at a latitude that is no pole and for a step that is not zero: where the four calls
succeed the answer is the ellipse of their places, and it fits its scales. A map whose calls have other effects
answers by the same ellipse after its four calls. -/
theorem indicatrix_fits {radius lat lon delta : ℝ} (hradius : 0 < radius) (hlat : 0 < Real.cos lat)
    (hdelta : delta ≠ 0) :
    (∀ e w n s, (stencilEllipse radius lat delta e w n s).Fits) ∧
    (∀ (project : ℝ → ℝ → Except (Failure ℝ) (ℝ × ℝ)) (e w n s : ℝ × ℝ), project lat (lon + delta) = .ok e →
      project lat (lon - delta) = .ok w → project (lat + delta) lon = .ok n → project (lat - delta) lon = .ok s →
        indicatrix project radius lat lon delta = .ok (stencilEllipse radius lat delta e w n s)) ∧
    ∀ (m : Type → Type) [Monad m] [LawfulMonad m] [MonadExceptOf (Failure ℝ) m] (project : ℝ → ℝ → m (ℝ × ℝ)),
      indicatrix project radius lat lon delta = (do
        let e ← project lat (lon + delta)
        let w ← project lat (lon - delta)
        let n ← project (lat + delta) lon
        let s ← project (lat - delta) lon
        pure (stencilEllipse radius lat delta e w n s)) :=
  ⟨fun _ _ _ _ => fits_partialEllipse hradius hlat _ _,
    fun _ _ _ _ _ he hw hn hs => indicatrix_of_neighbours hdelta he hw hn hs,
    fun _ _ _ _ project => indicatrix_eq_bind hdelta project⟩

/-- The sinusoidal projection at a point of the equator, by steps of a radian. -/
theorem indicatrix_fits_equator : 0 < (1 : ℝ) ∧ 0 < Real.cos 0 ∧ (1 : ℝ) ≠ 0 ∧
    ∃ e w n s, indicatrix (fun lat lon => Sinusoidal.forward lon lat) 1 0 0 1 = .ok (stencilEllipse 1 0 1 e w n s) ∧
      (stencilEllipse 1 0 1 e w n s).Fits := by
  have hcos : 0 < Real.cos 0 := Real.cos_zero.symm ▸ one_pos
  have hpi := Real.two_le_pi
  have hlat : |(0 : ℝ)| ≤ Real.pi / 2 := abs_zero_lt_halfPi.le
  have hnorthLat : |(0 + 1 : ℝ)| ≤ Real.pi / 2 := by
    norm_num
    linarith
  have hsouthLat : |(0 - 1 : ℝ)| ≤ Real.pi / 2 := by
    norm_num
    linarith
  obtain ⟨hfits, hanswer, -⟩ := @indicatrix_fits 1 0 0 1 one_pos hcos one_ne_zero
  exact ⟨one_pos, hcos, one_ne_zero, _, _, _, _, hanswer (fun lat lon => Sinusoidal.forward lon lat) _ _ _ _
    (Sinusoidal.forward_real _ hlat) (Sinusoidal.forward_real _ hlat) (Sinusoidal.forward_real _ hnorthLat)
    (Sinusoidal.forward_real _ hsouthLat), hfits _ _ _ _⟩

end Distortion
end GoodeMap
