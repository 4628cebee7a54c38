import GoodeMap.Proofs.Neighbours

/-! Equal areas. Off the cuts, the seams and the antimeridian the partial derivatives of every map span
the area of the sphere; the stencil of differences has that area in the limit, and on the sinusoidal
projection for every step. -/
namespace GoodeMap
open Scalar Topology
variable {f : Family} {c reference : Core (Except (Failure ℝ)) ℝ} {central lam lat lon delta : ℝ}

namespace Family

noncomputable def branchAt (f : Family) (lat : ℝ) : Branch :=
  match f with
  | .sinusoidal => .sinusoidal
  | .mollweide => .mollweide
  | .homolosine | .reference =>
    if Constants.seamLatitude.value < |lat| then .mollweide else .sinusoidal

structure Undivided (f : Family) (central lat lon delta : ℝ) : Prop where
  poles : |lat| + delta ≤ Real.pi / 2
  east : Longitude.normalize (lon + delta - central) = Longitude.normalize (lon - central) + delta
  west : Longitude.normalize (lon - delta - central) = Longitude.normalize (lon - central) - delta
  lobe : f = .homolosine → ∃ g, Homolosine.usual Mollweide.exact = .ok g ∧
    g.Undivided (Longitude.normalize (lon - central)) lat delta

structure OffEdges (f : Family) (central lat lon : ℝ) : Prop where
  pole : |lat| < Real.pi / 2
  antimeridian : |Longitude.normalize (lon - central)| < Real.pi
  seam : f = .homolosine → |lat| ≠ Constants.seamLatitude.value
  cut : f = .homolosine → ∀ g, Homolosine.usual Mollweide.exact = .ok g →
    ∀ i, Longitude.normalize (lon - central) ≠ (g.table (Hemisphere.of lat)).left i

/-- What the three families' cores are. -/
theorem core_cases (hf : f ≠ .reference) (hc : Core.ofFamilyWith Mollweide.exact reference f = .ok c) :
    (f = .homolosine ∧ ∃ g, Homolosine.usual Mollweide.exact = .ok g ∧ c = Core.homolosine g) ∨
      f ≠ .homolosine ∧ ∃ b, (∀ phi, f.branchAt phi = b) ∧ ∀ lam phi, |phi| ≤ Real.pi / 2 →
        c.forward lam phi = .ok ((Sector.whole b).place lam phi) := by
  cases f with
  | sinusoidal =>
    cases hc
    refine .inr ⟨by decide, .sinusoidal, fun _ => rfl, fun lam phi hphi => ?_⟩
    rw [Sector.place_whole]
    exact Sinusoidal.forward_real lam hphi
  | mollweide =>
    cases hc
    refine .inr ⟨by decide, .mollweide, fun _ => rfl, fun lam phi hphi => ?_⟩
    rw [Sector.place_whole]
    exact Mollweide.forward_exact lam hphi
  | homolosine =>
    obtain ⟨g, hg, hcore⟩ := bind_eq_ok_iff.mp hc
    cases hcore
    exact .inl ⟨rfl, g, hg, rfl⟩
  | reference => exact absurd rfl hf

theorem branchAt_homolosine {g : Homolosine ℝ} (hg : Homolosine.usual Mollweide.exact = .ok g) (phi : ℝ) :
    homolosine.branchAt phi = g.branchOfLatitude phi := by
  rw [branchAt, Homolosine.branchOfLatitude, Homolosine.seam_of_usual hg]
  rfl

theorem abs_add_le_and_abs_sub_le (hdelta : 0 < delta) (h : |lat| + delta ≤ Real.pi / 2) :
    |lat| ≤ Real.pi / 2 ∧ |lat + delta| ≤ Real.pi / 2 ∧ |lat - delta| ≤ Real.pi / 2 := by
  obtain ⟨hlow, hhigh⟩ := abs_le.mp (le_sub_iff_add_le.mpr h)
  refine ⟨by linarith, abs_le.mpr ⟨?_, ?_⟩, abs_le.mpr ⟨?_, ?_⟩⟩ <;> linarith

theorem Undivided.exists_sectors (h : f.Undivided central lat lon delta) (hf : f ≠ .reference)
    (hc : Core.ofFamilyWith Mollweide.exact reference f = .ok c) (hdelta : 0 < delta)
    (hlam : Longitude.normalize (lon - central) = lam) :
    ∃ s north south : Sector, s.branch = f.branchAt lat ∧ north.branch = s.branch ∧
      south.branch = s.branch ∧ north.lowering = south.lowering ∧
      c.forward (Longitude.normalize (lon + delta - central)) lat = .ok (s.place (lam + delta) lat) ∧
      c.forward (Longitude.normalize (lon - delta - central)) lat = .ok (s.place (lam - delta) lat) ∧
      c.forward lam (lat + delta) = .ok (north.place lam (lat + delta)) ∧
      c.forward lam (lat - delta) = .ok (south.place lam (lat - delta)) := by
  have hrange := Longitude.within_normalize (lon - central)
  obtain ⟨hlat, hnorth, hsouth⟩ := abs_add_le_and_abs_sub_le hdelta h.poles
  obtain ⟨-, heast, hwest, hlobe⟩ := h
  rw [hlam] at heast hwest hlobe hrange
  rw [heast, hwest]
  rcases core_cases hf hc with ⟨rfl, g, hg, rfl⟩ | ⟨-, b, hb, hforward⟩
  · obtain ⟨g', hg', ⟨p, hpeast, hpwest⟩, hup, hdown⟩ := hlobe rfl
    cases hg.symm.trans hg'
    have hcal := Homolosine.calibrated_of_usual hg
    obtain ⟨n, hn, hnrow, hnplace⟩ := Homolosine.sector_of_sameSide hg hrange hnorth hup
    obtain ⟨s, hs, hsrow, hsplace⟩ := Homolosine.sector_of_sameSide hg hrange hsouth hdown
    have hbranch : p.sector.branch = g.branchOfLatitude lat :=
      (Homolosine.pieceOfPoint_eq_ok_iff.mp hpeast).2.2.1
    exact ⟨p.sector, n, s, hbranch.trans (branchAt_homolosine hg lat).symm, hn.trans hbranch.symm,
      hs.trans hbranch.symm, hnrow.trans hsrow.symm, Homolosine.forward_of_pieceOfPoint hcal hpeast,
      Homolosine.forward_of_pieceOfPoint hcal hpwest, hnplace, hsplace⟩
  · exact ⟨Sector.whole b, Sector.whole b, Sector.whole b, (hb lat).symm, rfl, rfl, rfl,
      hforward _ _ hlat, hforward _ _ hlat, hforward _ _ hnorth, hforward _ _ hsouth⟩

theorem eventually_neighbours {P : ℝ → Prop} {a : ℝ} (h : ∀ᶠ t in 𝓝 a, P t) :
    ∀ᶠ delta in 𝓝[>] 0, P (a + delta) ∧ P (a - delta) := by
  have hahead : Filter.Tendsto (fun delta => a + delta) (𝓝[>] 0) (𝓝 a) :=
    ((continuous_const_add a).tendsto' 0 a (add_zero a)).mono_left nhdsWithin_le_nhds
  have hbehind : Filter.Tendsto (fun delta => a - delta) (𝓝[>] 0) (𝓝 a) :=
    ((continuous_sub_left a).tendsto' 0 a (sub_zero a)).mono_left nhdsWithin_le_nhds
  exact (hahead.eventually h).and (hbehind.eventually h)

namespace OffEdges
variable (h : f.OffEdges central lat lon)
include h

theorem eventually_undivided :
    ∀ᶠ delta in 𝓝[>] 0, f.Undivided central lat lon delta := by
  obtain ⟨hpole, hmeridian, hseam, hcut⟩ := h
  obtain ⟨hwest, heast⟩ := abs_lt.mp hmeridian
  have hroom : ∀ᶠ delta in 𝓝[>] (0 : ℝ), delta < Real.pi / 2 - |lat| :=
    nhdsWithin_le_nhds (eventually_lt_nhds (sub_pos.mpr hpole))
  have hinside : ∀ᶠ l in 𝓝 (Longitude.normalize (lon - central)), |l| < Real.pi := by
    filter_upwards [eventually_gt_nhds hwest, eventually_lt_nhds heast] with l hl hl'
    exact abs_lt.mpr ⟨hl, hl'⟩
  have hlobe : ∀ᶠ delta in 𝓝[>] (0 : ℝ), f = .homolosine →
      ∃ g, Homolosine.usual Mollweide.exact = .ok g ∧
        g.Undivided (Longitude.normalize (lon - central)) lat delta := by
    by_cases hf : f = .homolosine
    · obtain ⟨g, hg⟩ := Homolosine.exists_usual
      obtain ⟨p, hp⟩ := Homolosine.eventually_pieceOfPoint hg hpole hmeridian (hcut hf g hg)
      have hside := Homolosine.eventually_sameSide (Homolosine.calibrated_of_usual hg)
        ((hseam hf).trans_eq (Homolosine.seam_of_usual hg).symm)
      filter_upwards [eventually_neighbours hp, eventually_neighbours hside] with delta hE hN
      exact fun _ => ⟨g, hg, ⟨p, hE⟩, hN.1, hN.2⟩
    · exact Filter.Eventually.of_forall fun _ hf' => absurd hf' hf
  filter_upwards [hroom, eventually_neighbours hinside, hlobe] with delta hdelta hE hlobes
  refine ⟨by linarith, ?_, ?_, hlobes⟩
  · rw [add_sub_right_comm]
    exact Longitude.normalize_add hE.1
  · rw [sub_right_comm]
    exact Longitude.normalize_sub hE.2

theorem exists_crossing (hf : f ≠ .reference) (hc : Core.ofFamilyWith Mollweide.exact reference f = .ok c)
    (hlam : Longitude.normalize (lon - central) = lam) :
    ∃ s before after : Sector, s.branch = f.branchAt lat ∧ before.branch = s.branch ∧
      before.Continues after lat ∧ (∀ᶠ l in 𝓝 lam, c.forward l lat = .ok (s.place l lat)) ∧
        ∀ᶠ phi in 𝓝 lat, c.forward lam phi =
          .ok (if lat ≤ phi then after.place lam phi else before.place lam phi) := by
  have hrange := Longitude.within_normalize (lon - central)
  obtain ⟨hpole, hmeridian, hseam, hcut⟩ := h
  rw [hlam] at hmeridian hcut hrange
  rcases core_cases hf hc with ⟨rfl, g, hg, rfl⟩ | ⟨-, b, hb, hforward⟩
  · have hcal := Homolosine.calibrated_of_usual hg
    obtain ⟨p, hp⟩ := Homolosine.eventually_pieceOfPoint hg hpole hmeridian (hcut rfl g hg)
    obtain ⟨before, after, hcontinues, hbranch, hplace⟩ := Homolosine.exists_continues hg hpole hrange
      ((hseam rfl).trans_eq (Homolosine.seam_of_usual hg).symm)
    have hown : p.sector.branch = g.branchOfLatitude lat :=
      (Homolosine.pieceOfPoint_eq_ok_iff.mp hp.self_of_nhds).2.2.1
    exact ⟨p.sector, before, after, hown.trans (branchAt_homolosine hg lat).symm,
      hbranch.trans hown.symm, hcontinues,
      hp.mono fun l hl => Homolosine.forward_of_pieceOfPoint hcal hl, hplace⟩
  · obtain ⟨hlow, hhigh⟩ := abs_lt.mp hpole
    refine ⟨Sector.whole b, Sector.whole b, Sector.whole b, (hb lat).symm, rfl, .inl rfl,
      .of_forall fun l => hforward l lat hpole.le, ?_⟩
    filter_upwards [eventually_gt_nhds hlow, eventually_lt_nhds hhigh] with phi hphi hphi'
    rw [ite_self]
    exact hforward lam phi (abs_le.mpr ⟨le_of_lt hphi, le_of_lt hphi'⟩)

end OffEdges
end Family

namespace WorldMap
variable {w : WorldMap (Except (Failure ℝ)) ℝ}

theorem exists_areaScale (hf : w.family ≠ .reference)
    (hc : Core.ofFamilyWith Mollweide.exact reference w.family = .ok w.core) (hradius : 0 < w.radius)
    (hdelta : 0 < delta)
    (h : w.family.Undivided w.parameters.centralMeridian lat lon delta) :
    ∃ t, w.distortion lat lon delta = .ok t ∧
      t.areaScale = (w.family.branchAt lat).areaRatio lat delta := by
  obtain ⟨s, north, south, hbranch, hn, hs, hrow, he, hw, hnorth, hsouth⟩ :=
    h.exists_sectors hf hc hdelta rfl
  rw [← hbranch]
  exact exists_distortion hradius h.poles hdelta hn hs hrow (project_of_place he) (project_of_place hw)
    (project_of_place hnorth) (project_of_place hsouth)

theorem hasVelocity_parallel {s : Sector}
    (hlam : Longitude.normalize (lon - w.parameters.centralMeridian) = lam) (hinside : |lam| < Real.pi)
    (h : ∀ᶠ l in 𝓝 lam, w.core.forward l lat = .ok (s.place l lat)) :
    HasVelocity (fun l => w.project lat l) (w.radius * s.branch.scaleOf lat, w.radius * 0) lon := by
  obtain ⟨hwest, heast⟩ := abs_lt.mp hinside
  have hshift : Filter.Tendsto (fun l => l + (lam - lon)) (𝓝 lon) (𝓝 lam) :=
    (continuous_add_const (lam - lon)).tendsto' lon lam (add_sub_cancel lon lam)
  have hcurve := s.hasDerivAt_parallel lam lat
  rw [← add_sub_cancel lon lam] at hcurve
  refine ⟨fun l => w.enlarge (s.place (l + (lam - lon)) lat), ?_,
    w.hasDerivAt_enlarge (hcurve.comp_add_const lon (lam - lon))⟩
  filter_upwards [hshift.eventually_const_lt hwest, hshift.eventually_lt_const heast,
    hshift.eventually h] with l hl hl' hplace
  have hstep : Longitude.normalize (lon - w.parameters.centralMeridian) + (l - lon) =
      l + (lam - lon) := by
    rw [hlam]
    ring
  have hwrap : Longitude.normalize (l - w.parameters.centralMeridian) = l + (lam - lon) := by
    rw [← hstep, ← Longitude.normalize_add (hstep ▸ abs_lt.mpr ⟨hl, hl'⟩)]
    congr 1
    ring
  exact project_of_place (hwrap ▸ hplace)

theorem hasVelocity_meridian {place : ℝ → ℝ × ℝ} {velocity : ℝ × ℝ}
    (hlam : Longitude.normalize (lon - w.parameters.centralMeridian) = lam)
    (h : ∀ᶠ phi in 𝓝 lat, w.core.forward lam phi = .ok (place phi))
    (hplace : HasDerivAt place velocity lat) :
    HasVelocity (fun phi => w.project phi lon) (w.radius * velocity.1, w.radius * velocity.2) lat :=
  ⟨fun phi => w.enlarge (place phi), h.mono fun _ hphi => project_of_place (hlam ▸ hphi),
    w.hasDerivAt_enlarge hplace⟩

/-- The partial derivatives span the area of the sphere. -/
theorem exists_velocities (hf : w.family ≠ .reference)
    (hc : Core.ofFamilyWith Mollweide.exact reference w.family = .ok w.core)
    (h : w.family.OffEdges w.parameters.centralMeridian lat lon) :
    ∃ east north : ℝ × ℝ, HasVelocity (fun l => w.project lat l) east lon ∧
      HasVelocity (fun phi => w.project phi lon) north lat ∧
        east.1 * north.2 - east.2 * north.1 = w.radius ^ 2 * Real.cos lat := by
  obtain ⟨s, before, after, -, hbranch, hcontinues, hparallel, hmeridian⟩ := h.exists_crossing hf hc rfl
  obtain ⟨x, hx⟩ := hcontinues.exists_hasDerivAt h.pole
    (Longitude.normalize (lon - w.parameters.centralMeridian))
  rw [hbranch] at hx
  have hscale := s.branch.scaleOf_pos_of_lt h.pole
  refine ⟨_, _, hasVelocity_parallel rfl h.antimeridian hparallel,
    hasVelocity_meridian rfl ?_ hx, ?_⟩
  · filter_upwards [hmeridian] with phi hphi
    rw [hphi, apply_ite Except.ok]
  · field_simp
    ring

/-- Where a point and its neighbours are drawn in one, the area scale of their stencil is one on the
sinusoidal projection and tends to one with the step on the other, whatever the accepted parameters. -/
theorem equal_area (reference : Core (Except (Failure ℝ)) ℝ) (hf : f ≠ .reference) {given p : Parameters ℝ}
    (hp : given.check = .ok p) (hpoint : f.OffEdges p.centralMeridian lat lon) :
    ∃ c, Core.ofFamilyWith Mollweide.exact reference f = .ok c ∧
      (∀ᶠ delta in 𝓝[>] 0, f.Undivided p.centralMeridian lat lon delta) ∧
      (∀ delta, 0 < delta → f.Undivided p.centralMeridian lat lon delta →
        ∃ t, (WorldMap.mk f p c).distortion lat lon delta = .ok t ∧
          t.areaScale = (f.branchAt lat).areaRatio lat delta) ∧
      (f.branchAt lat = .sinusoidal → ∀ delta, 0 < delta → (f.branchAt lat).areaRatio lat delta = 1) ∧
      (f.branchAt lat = .mollweide → Filter.Tendsto ((f.branchAt lat).areaRatio lat) (𝓝[>] 0) (𝓝 1)) ∧
      ∃ east north : ℝ × ℝ, HasVelocity (fun l => (WorldMap.mk f p c).project lat l) east lon ∧
        HasVelocity (fun phi => (WorldMap.mk f p c).project phi lon) north lat ∧
          east.1 * north.2 - east.2 * north.1 = p.radius ^ 2 * Real.cos lat := by
  obtain ⟨c, hc, -⟩ := Core.exists_round_trip reference hf
  refine ⟨c, hc, hpoint.eventually_undivided, ?_, ?_, ?_, exists_velocities (w := ⟨f, p, c⟩) hf hc hpoint⟩
  · exact fun delta hdelta h =>
      exists_areaScale (w := ⟨f, p, c⟩) hf hc (Parameters.radius_pos hp) hdelta h
  · intro hbranch delta hdelta
    rw [hbranch]
    exact Branch.areaRatio_sinusoidal hpoint.pole hdelta
  · exact fun _ => Branch.tendsto_areaRatio _ hpoint.pole

/-- A point of the northern cap, on a map turned past the half turn. -/
theorem equal_area_cap : ∃ c, Core.ofFamilyWith Mollweide.exact Core.sinusoidal .homolosine = .ok c ∧
    (∀ᶠ delta in 𝓝[>] 0, ∃ t,
      (WorldMap.mk .homolosine ⟨2, 2, 4, 1, 1⟩ c).distortion 1 5 delta = .ok t ∧
        t.areaScale = Branch.mollweide.areaRatio 1 delta) ∧
      Filter.Tendsto (Branch.mollweide.areaRatio 1) (𝓝[>] 0) (𝓝 1) := by
  have hcheck : (⟨2, 2, 4, 1, 1⟩ : Parameters ℝ).check = .ok ⟨2, 2, 4, 1, 1⟩ := by
    have hzero : (0.0 : ℝ) = 0 := by norm_num
    simp [Parameters.check, hzero]
  have hpi := Real.pi_gt_three
  have hlon : Longitude.normalize ((5 : ℝ) - 4) = 1 := by
    have hstep : (5 : ℝ) - 4 = 1 := by norm_num
    rw [hstep]
    refine if_pos (within_neg_iff.mpr ?_)
    rw [abs_one, pi_real]
    linarith
  have hlow : (Constants.seamLatitude.value : ℝ) < 1 := by
    rw [Constants.seamLatitude_real]
    linarith [Real.pi_lt_d2]
  have hpoint : Family.OffEdges .homolosine 4 1 5 := by
    refine ⟨?_, ?_, fun _ => ?_, fun _ g hg i => ?_⟩
    · rw [abs_one]
      linarith
    · rw [hlon, abs_one]
      linarith
    · rw [abs_one]
      exact hlow.ne'
    · rw [hlon]
      have hnorth := Hemisphere.of_nonneg zero_le_one
      exact ((Homolosine.left_nonpos_of_usual hg hnorth i).trans_lt one_pos).ne'
  have hbranch : Family.branchAt .homolosine 1 = .mollweide := if_pos (by rwa [abs_one])
  obtain ⟨c, hc, hnear, harea, -, hlimit, -⟩ := equal_area Core.sinusoidal (by decide) hcheck hpoint
  rw [hbranch] at harea hlimit
  refine ⟨c, hc, ?_, hlimit rfl⟩
  filter_upwards [hnear, self_mem_nhdsWithin] with delta hdelta hpos
  exact harea delta hpos hdelta

end WorldMap
end GoodeMap
