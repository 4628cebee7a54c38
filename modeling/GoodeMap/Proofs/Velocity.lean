import GoodeMap.Proofs.Sector

/-! Velocities on the map. A point that moves along a parallel or a meridian is drawn moving; where two
sectors meet on the equator both of them draw it with the same velocity. -/
namespace GoodeMap
open Scalar Topology
variable {lam phi lat : ℝ}

def HasVelocity (path : ℝ → Except (Failure ℝ) (ℝ × ℝ)) (velocity : ℝ × ℝ) (time : ℝ) : Prop :=
  ∃ place : ℝ → ℝ × ℝ, (∀ᶠ t in 𝓝 time, path t = .ok (place t)) ∧ HasDerivAt place velocity time

/-- Two curves through one point with one velocity there make a curve when one continues the other. -/
theorem hasDerivAt_continued {before after : ℝ → ℝ × ℝ} {velocity : ℝ × ℝ} {time : ℝ}
    (hafter : HasDerivAt after velocity time) (hbefore : HasDerivAt before velocity time)
    (hmeet : before time = after time) :
    HasDerivAt (fun t => if time ≤ t then after t else before t) velocity time := by
  rw [← hasDerivWithinAt_univ, ← Set.Ici_union_Iio]
  refine HasDerivWithinAt.union ?_ ?_
  · exact hafter.hasDerivWithinAt.congr (fun t ht => if_pos ht) (if_pos le_rfl)
  · exact hbefore.hasDerivWithinAt.congr (fun t ht => if_neg (not_le.mpr ht))
      ((if_pos le_rfl).trans hmeet.symm)

namespace Sector
variable {s t : Sector}

theorem hasDerivAt_parallel (s : Sector) (lam phi : ℝ) :
    HasDerivAt (fun l => s.place l phi) (s.branch.scaleOf phi, 0) lam := by
  have hx := (((hasDerivAt_id lam).sub_const s.meridian).mul_const (s.branch.scaleOf phi)).add_const
    s.meridian
  rw [one_mul] at hx
  exact hx.prodMk (hasDerivAt_const lam (s.branch.rowOf phi - s.lowering))

theorem hasDerivAt_meridian (s : Sector) (lam : ℝ) (h : |phi| < Real.pi / 2) :
    HasDerivAt (s.place lam) ((lam - s.meridian) * deriv s.branch.scaleOf phi,
      Real.cos phi / s.branch.scaleOf phi) phi := by
  have hscale := (s.branch.differentiableAt_scaleOf h).hasDerivAt
  exact ((hscale.const_mul (lam - s.meridian)).add_const s.meridian).prodMk
    ((s.branch.hasDerivAt_rowOf h).sub_const s.lowering)

def Continues (s t : Sector) (lat : ℝ) : Prop :=
  s = t ∨ lat = 0 ∧ s.branch = .sinusoidal ∧ t.branch = .sinusoidal ∧ s.lowering = t.lowering

/-- On the equator the sinusoidal projection draws every longitude as it is, and meridians cross it
upright. -/
theorem Continues.exists_hasDerivAt (h : s.Continues t lat) (hlat : |lat| < Real.pi / 2) (lam : ℝ) :
    ∃ x, HasDerivAt (fun phi => if lat ≤ phi then t.place lam phi else s.place lam phi)
      (x, Real.cos lat / s.branch.scaleOf lat) lat := by
  rcases h with rfl | ⟨rfl, hs, ht, hrow⟩
  · exact ⟨_, hasDerivAt_continued (s.hasDerivAt_meridian lam hlat) (s.hasDerivAt_meridian lam hlat) rfl⟩
  · have hupright : deriv Branch.sinusoidal.scaleOf 0 = 0 := by
      refine (Real.hasDerivAt_cos 0).deriv.trans ?_
      rw [Real.sin_zero, neg_zero]
    have hscale : Branch.sinusoidal.scaleOf 0 = 1 := Real.cos_zero
    have hbefore := s.hasDerivAt_meridian lam hlat
    have hafter := t.hasDerivAt_meridian lam hlat
    rw [hs, hupright, mul_zero] at hbefore
    rw [ht, hupright, mul_zero] at hafter
    refine ⟨0, hs ▸ hasDerivAt_continued hafter hbefore ?_⟩
    simp only [place, hs, ht, hrow, hscale, mul_one, sub_add_cancel]

end Sector

namespace WorldMap
variable {w : WorldMap (Except (Failure ℝ)) ℝ}

theorem hasDerivAt_enlarge (w : WorldMap (Except (Failure ℝ)) ℝ) {place : ℝ → ℝ × ℝ}
    {velocity : ℝ × ℝ} {time : ℝ} (h : HasDerivAt place velocity time) :
    HasDerivAt (fun t => w.enlarge (place t)) (w.radius * velocity.1, w.radius * velocity.2) time :=
  (h.const_smul w.radius).add_const (w.parameters.falseEasting, w.parameters.falseNorthing)

end WorldMap
end GoodeMap
