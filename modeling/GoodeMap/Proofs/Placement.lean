import GoodeMap.Proofs.DistortionEllipse
import GoodeMap.Proofs.WorldRoundTrip

/-! Maps of one core that differ in scale and placement. Distortion is a property of the core: the false origin
drops out of every difference, the radius out of every quotient, and the central meridian only says from where
longitudes are counted. -/
namespace GoodeMap
open Scalar

noncomputable def Parameters.place (p : Parameters ℝ) (q : ℝ × ℝ) : ℝ × ℝ :=
  (p.radius * q.1 + p.falseEasting, p.radius * q.2 + p.falseNorthing)

namespace Distortion
variable {radius cosLat : ℝ}

theorem slope_place (p : Parameters ℝ) (ahead behind : ℝ × ℝ) (span : ℝ) :
    slope (p.place ahead) (p.place behind) span =
      (p.radius * (slope ahead behind span).1, p.radius * (slope ahead behind span).2) := by
  simp only [slope, Parameters.place, add_sub_add_right_eq_sub, ← mul_sub, mul_div_assoc]

/-- The length of an enlarged derivative. -/
theorem sqrt_scaled (hradius : 0 < radius) (a b : ℝ) :
    √(radius * a * (radius * a) + radius * b * (radius * b)) = radius * √(a * a + b * b) := by
  have hfactor : radius * a * (radius * a) + radius * b * (radius * b) = radius ^ 2 * (a * a + b * b) := by ring
  rw [hfactor, Real.sqrt_mul (sq_nonneg radius), Real.sqrt_sq hradius.le]

/-- The area that two enlarged derivatives span. -/
theorem abs_det_scaled (a b c d : ℝ) :
    |radius * a * (radius * d) - radius * b * (radius * c)| = radius * radius * |a * d - b * c| := by
  have hfactor : radius * a * (radius * d) - radius * b * (radius * c) = radius * radius * (a * d - b * c) := by ring
  rw [hfactor, abs_mul, abs_mul_self]

/-- The radius enters both scales once and the area scale twice, and cancels from all three. -/
theorem partialEllipse_scaled (hradius : 0 < radius) (cosLat : ℝ) (east north : ℝ × ℝ) :
    partialEllipse radius cosLat (radius * east.1, radius * east.2) (radius * north.1, radius * north.2) =
      partialEllipse 1 cosLat east north := by
  have hne := hradius.ne'
  have hmeridian (length : ℝ) : radius * length / radius = length / 1 := by
    rw [mul_div_cancel_left₀ length hne, div_one]
  have hparallel (length : ℝ) : radius * length / (radius * cosLat) = length / (1 * cosLat) := by
    rw [mul_div_mul_left length cosLat hne, one_mul]
  have harea (area : ℝ) : radius * radius * area / (radius * radius * cosLat) = area / (1 * 1 * cosLat) := by
    rw [mul_div_mul_left area cosLat (mul_ne_zero hne hne), one_mul, one_mul]
  simp only [partialEllipse, sqrt_scaled hradius, abs_det_scaled, hmeridian, hparallel, harea]

end Distortion

namespace WorldMap
variable {m : Type → Type} [Monad m] [LawfulMonad m] {f : Family} {p : Parameters ℝ} {core : Core m ℝ}

noncomputable def unitDistortion [MonadExceptOf (Failure ℝ) m] (core : Core m ℝ) (lat lam delta : ℝ) :
    m (Indicatrix ℝ) :=
  Distortion.indicatrix (fun phi l => core.forward (Longitude.normalize l) phi) 1 lat lam delta

theorem project_eq_map (lat lon : ℝ) : (WorldMap.mk f p core).project lat lon =
    p.place <$> core.forward (Longitude.normalize (lon - p.centralMeridian)) lat := by
  rw [map_eq_pure_bind]
  rfl

/-- A map's distortion is its core's, at the longitude counted from the central meridian. -/
theorem distortion_eq_unitDistortion [MonadExceptOf (Failure ℝ) m] (hradius : 0 < p.radius) (lat lon delta : ℝ) :
    (WorldMap.mk f p core).distortion lat lon delta =
      unitDistortion core lat (lon - p.centralMeridian) delta := by
  have heast : lon + delta - p.centralMeridian = lon - p.centralMeridian + delta := add_sub_right_comm _ _ _
  have hwest : lon - delta - p.centralMeridian = lon - p.centralMeridian - delta := sub_right_comm _ _ _
  have hradius' : (WorldMap.mk f p core).radius = p.radius := rfl
  simp only [distortion, unitDistortion, Distortion.indicatrix, project_eq_map, bind_map_left, heast, hwest,
    hradius', Distortion.slope_place, Distortion.ofPartials_real, Distortion.partialEllipse_scaled hradius]

/-- Two maps of one core, whatever its kind and whatever its effects, with accepted parameters: where their
longitudes stand alike to their central meridians, they have the same ellipse or fail in the same way. -/
theorem distortion_unmoved [MonadExceptOf (Failure ℝ) m] {given₁ given₂ p₁ p₂ : Parameters ℝ}
    (h₁ : given₁.check = .ok p₁) (h₂ : given₂.check = .ok p₂) {lon₁ lon₂ : ℝ}
    (hlon : lon₁ - p₁.centralMeridian = lon₂ - p₂.centralMeridian) (f : Family) (core : Core m ℝ) (lat delta : ℝ) :
    (WorldMap.mk f p₁ core).distortion lat lon₁ delta = (WorldMap.mk f p₂ core).distortion lat lon₂ delta := by
  rw [distortion_eq_unitDistortion (Parameters.radius_pos h₁), distortion_eq_unitDistortion (Parameters.radius_pos h₂),
    hlon]

/-- The sinusoidal map of the unit sphere at its origin, and one of twice the size, moved and turned past the half
turn. -/
theorem distortion_unmoved_sinusoidal :
    (⟨1, 1, 0, 0, 0⟩ : Parameters ℝ).check = .ok ⟨1, 1, 0, 0, 0⟩ ∧
      (⟨2, 2, 4, 1, 1⟩ : Parameters ℝ).check = .ok ⟨2, 2, 4, 1, 1⟩ ∧ (0 : ℝ) - 0 = 4 - 4 ∧
        ∃ core : Core (Except (Failure ℝ)) ℝ, Core.ofFamily Core.sinusoidal .sinusoidal = .ok core ∧
          ∃ t, (WorldMap.mk .sinusoidal ⟨1, 1, 0, 0, 0⟩ core).distortion 0 0 1 = .ok t ∧
            (WorldMap.mk .sinusoidal ⟨2, 2, 4, 1, 1⟩ core).distortion 0 4 1 = .ok t := by
  have hzero : (0.0 : ℝ) = 0 := by norm_num
  have hunit : (⟨1, 1, 0, 0, 0⟩ : Parameters ℝ).check = .ok ⟨1, 1, 0, 0, 0⟩ := by simp [Parameters.check, hzero]
  have hmoved : (⟨2, 2, 4, 1, 1⟩ : Parameters ℝ).check = .ok ⟨2, 2, 4, 1, 1⟩ := by simp [Parameters.check, hzero]
  have hlon : (0 : ℝ) - 0 = 4 - 4 := by norm_num
  let unit : WorldMap (Except (Failure ℝ)) ℝ := ⟨.sinusoidal, ⟨1, 1, 0, 0, 0⟩, Core.sinusoidal⟩
  have hproject {lat : ℝ} (hlat : |lat| ≤ Real.pi / 2) (lon : ℝ) : ∃ q, unit.project lat lon = .ok q := by
    rw [project_eq_map]
    exact ⟨_, congrArg (Except.map _) (Sinusoidal.forward_real _ hlat)⟩
  have hpi := Real.two_le_pi
  have hnorth : |(0 : ℝ) + 1| ≤ Real.pi / 2 := by
    rw [zero_add, abs_one]
    linarith
  have hsouth : |(0 : ℝ) - 1| ≤ Real.pi / 2 := by
    rw [zero_sub, abs_neg, abs_one]
    linarith
  obtain ⟨e, he⟩ := hproject abs_zero_lt_halfPi.le (0 + 1)
  obtain ⟨w, hw⟩ := hproject abs_zero_lt_halfPi.le (0 - 1)
  obtain ⟨n, hn⟩ := hproject hnorth 0
  obtain ⟨s, hs⟩ := hproject hsouth 0
  have hunitAnswer : unit.distortion 0 0 1 = .ok (Distortion.stencilEllipse 1 0 1 e w n s) :=
    Distortion.indicatrix_of_neighbours one_ne_zero he hw hn hs
  exact ⟨hunit, hmoved, hlon, Core.sinusoidal, rfl, _, hunitAnswer,
    (distortion_unmoved hunit hmoved hlon .sinusoidal Core.sinusoidal 0 1).symm.trans hunitAnswer⟩

end WorldMap
end GoodeMap
