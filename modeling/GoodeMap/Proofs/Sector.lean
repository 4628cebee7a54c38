import GoodeMap.Proofs.DistortionEllipse
import GoodeMap.Proofs.RowSlope
import GoodeMap.Proofs.WorldRoundTrip
import Mathlib.Analysis.Calculus.Deriv.Shift
import Mathlib.Analysis.Calculus.Deriv.Slope

/-! Sectors and the areas in them. A sector is a part of a map that one projection draws around one
meridian; the plain maps are one sector each, the interrupted map has one for every piece. The area scale
of a stencil depends on the rows of its northern and southern point and on the scale between the eastern
and the western one, not on the meridians or the places. -/
namespace GoodeMap
open Scalar Filter Topology

structure Sector where
  branch : Branch
  meridian : ℝ
  lowering : ℝ

namespace Sector

noncomputable def place (s : Sector) (lam phi : ℝ) : ℝ × ℝ :=
  ((lam - s.meridian) * s.branch.scaleOf phi + s.meridian, s.branch.rowOf phi - s.lowering)

def whole (b : Branch) : Sector := ⟨b, 0, 0⟩

theorem place_whole (b : Branch) (lam phi : ℝ) :
    (whole b).place lam phi = (lam * b.scaleOf phi, b.rowOf phi) := by
  simp [place, whole]

end Sector

namespace Homolosine
variable {g : Homolosine ℝ} {lam phi : ℝ}

noncomputable def Piece.sector (p : g.Piece) : Sector :=
  ⟨p.branch, p.meridian, p.hemisphere.sign * g.rise p.branch⟩

theorem forward_of_pieceOfPoint (hg : g.Calibrated) {p : g.Piece} (hp : g.pieceOfPoint lam phi = .ok p) :
    g.forward lam phi = .ok (p.sector.place lam phi) :=
  forward_of_piece hp (p.forward_real hg lam (pieceOfPoint_eq_ok_iff.mp hp).1)

end Homolosine

namespace Branch
variable {phi : ℝ}

theorem differentiableAt_scaleOf (b : Branch) (h : |phi| < Real.pi / 2) :
    DifferentiableAt ℝ b.scaleOf phi := by
  cases b with
  | sinusoidal => exact (Real.hasDerivAt_cos phi).differentiableAt
  | mollweide =>
    exact ((Mollweide.hasDerivAt_exactAngle h).cos.const_mul _).differentiableAt

noncomputable def areaRatio (b : Branch) (phi delta : ℝ) : ℝ :=
  b.scaleOf phi * ((b.rowOf (phi + delta) - b.rowOf (phi - delta)) / (2 * delta)) / Real.cos phi

theorem areaRatio_sinusoidal {delta : ℝ} (h : |phi| < Real.pi / 2) (hdelta : 0 < delta) :
    sinusoidal.areaRatio phi delta = 1 := by
  have hcos : 0 < Real.cos phi := Real.cos_pos_of_mem_Ioo (abs_lt.mp h)
  have hrows : sinusoidal.rowOf (phi + delta) - sinusoidal.rowOf (phi - delta) = 2 * delta := by
    simp only [rowOf]
    ring
  rw [areaRatio, hrows, div_self (by positivity), mul_one]
  exact div_self hcos.ne'

theorem tendsto_centralSlope {f : ℝ → ℝ} {f' x : ℝ} (h : HasDerivAt f f' x) :
    Tendsto (fun delta => (f (x + delta) - f (x - delta)) / (2 * delta)) (𝓝[>] 0) (𝓝 f') := by
  have hahead : HasDerivAt (fun t => f (x + t)) f' 0 := by
    refine HasDerivAt.comp_const_add x 0 ?_
    rwa [add_zero]
  have hbehind : HasDerivAt (fun t => f (x - t)) (-f') 0 := by
    refine HasDerivAt.comp_const_sub x 0 ?_
    rwa [sub_zero]
  have hboth := (hahead.sub hbehind).tendsto_slope_zero_right.div_const 2
  rw [sub_neg_eq_add, add_self_div_two] at hboth
  refine hboth.congr fun delta => ?_
  simp only [Pi.sub_apply, zero_add, add_zero, sub_zero, sub_self, smul_eq_mul]
  rw [inv_mul_eq_div, div_div, mul_comm delta 2]

/-- What the meridians gain is what the parallel loses, so in the limit the ratio is one. -/
theorem tendsto_areaRatio (b : Branch) (h : |phi| < Real.pi / 2) :
    Tendsto (b.areaRatio phi) (𝓝[>] 0) (𝓝 1) := by
  have hcos : 0 < Real.cos phi := Real.cos_pos_of_mem_Ioo (abs_lt.mp h)
  have hscale := scaleOf_pos_of_lt b h
  have hlimit := ((tendsto_centralSlope (hasDerivAt_rowOf b h)).const_mul (b.scaleOf phi)).div_const
    (Real.cos phi)
  rwa [mul_div_cancel₀ _ hscale.ne', div_self hcos.ne'] at hlimit

end Branch

namespace Distortion
variable {lat lon delta : ℝ}

theorem exists_indicatrix {project : ℝ → ℝ → Except (Failure ℝ) (ℝ × ℝ)} (radius : ℝ) {e w n s : ℝ × ℝ}
    (hdelta : 0 < delta) (he : project lat (lon + delta) = .ok e)
    (hw : project lat (lon - delta) = .ok w) (hn : project (lat + delta) lon = .ok n)
    (hs : project (lat - delta) lon = .ok s) :
    ∃ t, indicatrix project radius lat lon delta = .ok t ∧
      t.areaScale = |(n.1 - s.1) / (2 * delta) * ((e.2 - w.2) / (2 * delta)) -
        (n.2 - s.2) / (2 * delta) * ((e.1 - w.1) / (2 * delta))| /
          (radius * radius * Real.cos lat) := by
  have htwo : (2.0 : ℝ) = 2 := by norm_num
  refine ⟨_, indicatrix_of_neighbours hdelta.ne' he hw hn hs, ?_⟩
  rw [stencilEllipse, htwo]
  rfl

end Distortion

namespace WorldMap
variable {w : WorldMap (Except (Failure ℝ)) ℝ} {lat lon delta lam : ℝ}

noncomputable def enlarge (w : WorldMap (Except (Failure ℝ)) ℝ) (place : ℝ × ℝ) : ℝ × ℝ :=
  (w.radius * place.1 + w.parameters.falseEasting, w.radius * place.2 + w.parameters.falseNorthing)

theorem project_of_place {place : ℝ × ℝ}
    (h : w.core.forward (Longitude.normalize (lon - w.parameters.centralMeridian)) lat = .ok place) :
    w.project lat lon = .ok (w.enlarge place) :=
  project_of_forward h

/-- In a stencil between two meridians of one sector and two rows that were lowered alike, the radius and
the false origin cancel from the area scale. -/
theorem exists_distortion (hradius : 0 < w.radius) (hlat : |lat| + delta ≤ Real.pi / 2)
    (hdelta : 0 < delta) {s north south : Sector} (hn : north.branch = s.branch)
    (hs : south.branch = s.branch) (hrow : north.lowering = south.lowering)
    (he : w.project lat (lon + delta) = .ok (w.enlarge (s.place (lam + delta) lat)))
    (hw : w.project lat (lon - delta) = .ok (w.enlarge (s.place (lam - delta) lat)))
    (hnorth : w.project (lat + delta) lon = .ok (w.enlarge (north.place lam (lat + delta))))
    (hsouth : w.project (lat - delta) lon = .ok (w.enlarge (south.place lam (lat - delta)))) :
    ∃ t, w.distortion lat lon delta = .ok t ∧ t.areaScale = s.branch.areaRatio lat delta := by
  obtain ⟨t, ht, harea⟩ := Distortion.exists_indicatrix w.radius hdelta he hw hnorth hsouth
  refine ⟨t, ht, ?_⟩
  have hphi : |lat| < Real.pi / 2 := by linarith
  obtain ⟨hlow, hhigh⟩ := abs_le.mp (le_sub_iff_add_le.mpr hlat)
  have hcos : 0 < Real.cos lat := Real.cos_pos_of_mem_Ioo (abs_lt.mp hphi)
  have hscale := s.branch.scaleOf_pos_of_lt hphi
  have hclimb : 0 ≤ s.branch.rowOf (lat + delta) - s.branch.rowOf (lat - delta) := by
    refine sub_nonneg.mpr (s.branch.rowOf_strictMonoOn.monotoneOn ?_ ?_ (by linarith)) <;>
      constructor <;> linarith
  have hratio : 0 ≤ s.branch.areaRatio lat delta := by
    unfold Branch.areaRatio
    positivity
  -- East and west lie in one row, so only the product of eastward x and northward y is left.
  have hsigned : ((w.enlarge (north.place lam (lat + delta))).1 -
        (w.enlarge (south.place lam (lat - delta))).1) / (2 * delta) *
      (((w.enlarge (s.place (lam + delta) lat)).2 -
        (w.enlarge (s.place (lam - delta) lat)).2) / (2 * delta)) -
      ((w.enlarge (north.place lam (lat + delta))).2 -
        (w.enlarge (south.place lam (lat - delta))).2) / (2 * delta) *
      (((w.enlarge (s.place (lam + delta) lat)).1 -
        (w.enlarge (s.place (lam - delta) lat)).1) / (2 * delta)) =
      -(w.radius * w.radius * Real.cos lat * s.branch.areaRatio lat delta) := by
    simp only [enlarge, Sector.place, hn, hs, hrow, Branch.areaRatio]
    field_simp
    ring
  rw [harea, hsigned, abs_neg, abs_of_nonneg (by positivity)]
  exact mul_div_cancel_left₀ _ (by positivity)

end WorldMap
end GoodeMap
