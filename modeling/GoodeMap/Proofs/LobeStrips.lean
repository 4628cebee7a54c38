import GoodeMap.Proofs.Seamless

/-! The strips of the lobes. A row is drawn towards the central meridians, so a lobe stays between its own edges,
wherever between them its meridian stands. Off the poles a place is looked up in the lobe that drew it, so lobes
meet in their tips at most. On the equator nothing is moved, whichever table draws it. -/
namespace GoodeMap.Homolosine
open Scalar
variable {g : Homolosine ℝ} {lam phi x y : ℝ}

noncomputable def parallelScale (g : Homolosine ℝ) (phi : ℝ) : ℝ := (g.branchOfLatitude phi).scaleOf phi

theorem parallelScale_mem (h : |phi| ≤ Real.pi / 2) : 0 ≤ g.parallelScale phi ∧ g.parallelScale phi ≤ 1 :=
  ⟨Branch.scaleOf_nonneg _ h, Branch.scaleOf_le_one _ _⟩

theorem parallelScale_pos (h : |phi| < Real.pi / 2) : 0 < g.parallelScale phi := Branch.scaleOf_pos_of_lt _ h

theorem parallelScale_of_band (h : |phi| ≤ g.seam.latitude) : g.parallelScale phi = Real.cos phi := by
  rw [parallelScale, g.branchOfLatitude_eq_sinusoidal_iff.mpr h]
  rfl

def lobeImage (g : Homolosine ℝ) (h : Hemisphere) (i : (g.table h).Lobe) : Set (ℝ × ℝ) :=
  {place | ∃ lam phi, Hemisphere.of phi = h ∧ (g.table h).select lam = .ok i ∧ g.forward lam phi = .ok place}

theorem exists_forward_iff (hg : g.Calibrated) : (∃ place, g.forward lam phi = .ok place) ↔
    |phi| ≤ Real.pi / 2 ∧ Within (g.table (Hemisphere.of phi)).west (g.table (Hemisphere.of phi)).east lam := by
  constructor
  · intro ⟨place, h⟩
    obtain ⟨p, hp, -⟩ := forward_eq_ok_iff.mp h
    obtain ⟨hphi, lobe, hlobe, -⟩ := pieceOfPoint_eq_ok hp
    have howns := (LobeTable.select_eq_ok_iff _).mp hlobe
    exact ⟨within_halfPi_iff.mp hphi, LobeTable.within_of_owns _ howns⟩
  · intro ⟨hphi, hlam⟩
    obtain ⟨p, hp⟩ := exists_pieceOfPoint hphi hlam
    exact ⟨_, forward_of_piece hp (forward_mapRow hg hp)⟩

theorem drawn_of_forward (hg : g.Calibrated) (h : g.forward lam phi = .ok (x, y)) :
    ∃ p, g.pieceOfPoint lam phi = .ok p ∧ x = (lam - p.meridian) * g.parallelScale phi + p.meridian ∧
      y = g.mapRow phi := by
  obtain ⟨p, hp, hplace⟩ := forward_eq_ok_iff.mp h
  obtain ⟨-, -, hbranch, -⟩ := pieceOfPoint_eq_ok_iff.mp hp
  rw [forward_mapRow hg hp, Except.ok.injEq, Prod.mk.injEq, hbranch] at hplace
  exact ⟨p, hp, hplace.1.symm, hplace.2.symm⟩

/-- Off the poles point and place are looked up in one piece. -/
theorem pieceOfPlace_of_forward (hg : g.Calibrated) (h : g.forward lam phi = .ok (x, y))
    (hphi : |phi| < Real.pi / 2) : g.pieceOfPlace x y = g.pieceOfPoint lam phi := by
  obtain ⟨p, hp, rfl, rfl⟩ := drawn_of_forward hg h
  obtain ⟨-, -, hbranch, -⟩ := pieceOfPoint_eq_ok_iff.mp hp
  have hback := pieceOfPlace_of_point hg hp (Branch.scaleOf_pos_of_lt _ hphi)
  rw [hbranch] at hback
  exact hback.trans hp.symm

/-- A place is in the row of one latitude. -/
theorem latitude_unique (hg : g.Calibrated) {lam' phi' : ℝ} {place : ℝ × ℝ} (h : g.forward lam phi = .ok place)
    (h' : g.forward lam' phi' = .ok place) : phi' = phi := by
  obtain ⟨hphi, hrow⟩ := row_of_forward hg h
  obtain ⟨hphi', hrow'⟩ := row_of_forward hg h'
  rw [← rowLatitude_mapRow hg hphi, ← rowLatitude_mapRow hg hphi', ← hrow, ← hrow']

theorem lobe_unique (hg : g.Calibrated) {h : Hemisphere} {i j : (g.table h).Lobe} {place : ℝ × ℝ}
    (hi : place ∈ g.lobeImage h i) (hj : place ∈ g.lobeImage h j) (hplace : g.forward lam phi = .ok place)
    (hphi : |phi| < Real.pi / 2) : i = j := by
  obtain ⟨lam₁, phi₁, rfl, hlam₁, h₁⟩ := hi
  obtain ⟨lam₂, phi₂, -, hlam₂, h₂⟩ := hj
  obtain rfl := latitude_unique hg hplace h₁
  obtain rfl := latitude_unique hg h₁ h₂
  have hband := within_halfPi_iff.mpr hphi.le
  have hsame := (pieceOfPlace_of_forward hg h₁ hphi).symm.trans (pieceOfPlace_of_forward hg h₂ hphi)
  rw [pieceOfPoint_of_select hband hlam₁, pieceOfPoint_of_select hband hlam₂] at hsame
  cases hsame
  rfl

/-- On the equator a piece of the band draws every longitude at its own place, within its lobe and past it. -/
theorem Piece.forward_equator (hg : g.Calibrated) (p : g.Piece) (hp : p.branch = g.branchOfLatitude 0) (lam : ℝ) :
    p.forward lam 0 = .ok (lam, 0) := by
  rw [branchOfLatitude_zero hg] at hp
  rw [p.forward_real hg lam abs_zero_lt_halfPi.le, hp, Branch.scaleOf, Real.cos_zero, mul_one, sub_add_cancel,
    Branch.rowOf_zero, rise, mul_zero, sub_zero]

structure Piece.InStrip (p : g.Piece) (lam phi x y : ℝ) : Prop where
  drawn : x - p.meridian = g.parallelScale phi * (lam - p.meridian)
  scale_nonneg : 0 ≤ g.parallelScale phi
  scale_le_one : g.parallelScale phi ≤ 1
  scale_pos : |phi| < Real.pi / 2 → 0 < g.parallelScale phi
  within : Within p.left p.right x
  short : |phi| < Real.pi / 2 → lam < p.right → x < p.right
  found : |phi| < Real.pi / 2 → g.pieceOfPlace x y = .ok p
  near : |phi| ≤ g.seam.latitude → |x - lam| ≤ (1 - Real.cos phi) * (p.right - p.left)

/-- In the band a place is off its longitude by a part of the lobe's width that vanishes towards the equator. -/
theorem Piece.abs_scaled_sub_le (hg : g.Calibrated) {p : g.Piece} (hlam : Within p.left p.right lam)
    (hband : |phi| ≤ g.seam.latitude) :
    |(lam - p.meridian) * g.parallelScale phi + p.meridian - lam| ≤ (1 - Real.cos phi) * (p.right - p.left) := by
  obtain ⟨hwest, heast⟩ := hlam
  obtain ⟨hleft, hright⟩ := p.meridian_within hg
  have hshare : 0 ≤ 1 - Real.cos phi := sub_nonneg.mpr (Real.cos_le_one phi)
  have hoff : (lam - p.meridian) * g.parallelScale phi + p.meridian - lam =
      (1 - Real.cos phi) * (p.meridian - lam) := by
    rw [parallelScale_of_band hband]
    ring
  rw [hoff, abs_mul, abs_of_nonneg hshare]
  exact mul_le_mul_of_nonneg_left (abs_le.mpr ⟨by linarith, by linarith⟩) hshare

theorem inStrip_of_forward (hg : g.Calibrated) (h : g.forward lam phi = .ok (x, y)) :
    ∃ p, g.pieceOfPoint lam phi = .ok p ∧ p.InStrip lam phi x y := by
  have hphi := (row_of_forward hg h).1
  have hfound := pieceOfPlace_of_forward hg h
  obtain ⟨p, hp, rfl, -⟩ := drawn_of_forward hg h
  have hlam := Piece.within_of_owns (pieceOfPoint_eq_ok_iff.mp hp).2.2.2
  obtain ⟨h0, h1⟩ := parallelScale_mem (g := g) hphi
  refine ⟨p, hp, ⟨?_, h0, h1, parallelScale_pos, Piece.within_of_scaled hg hlam h0 h1, ?_, ?_, ?_⟩⟩
  · rw [add_sub_cancel_right, mul_comm]
  · exact fun hlt hright => Piece.lt_right_of_scaled hg hright (parallelScale_pos hlt) h1
  · exact fun hlt => (hfound hlt).trans hp
  · exact Piece.abs_scaled_sub_le hg hlam

/-- Every lobe keeps to its strip, for every pair of accepted tables and every seam; what is drawn are the points of
the tables' ranges. The places of two lobes of a hemisphere can therefore only be the same at a pole. On the equator,
which the band holds even with the seam on it, every piece of either hemisphere draws a longitude at its own place,
and either table has a piece for every one in its range; so the two tables, cut as they may be, draw one and the same
equator. -/
theorem lobes_keep_to_strips {north south : LobeTable ℝ} {latitude : ℝ}
    (hbuild : build north south latitude Mollweide.exact = .ok g) (h0 : 0 ≤ latitude)
    (h1 : latitude ≤ Real.pi / 2) :
    (∀ lam phi, (∃ place, g.forward lam phi = .ok place) ↔ |phi| ≤ Real.pi / 2 ∧
      Within (g.table (Hemisphere.of phi)).west (g.table (Hemisphere.of phi)).east lam) ∧
    (∀ lam phi x y, g.forward lam phi = .ok (x, y) →
      ∃ p, g.pieceOfPoint lam phi = .ok p ∧ p.InStrip lam phi x y) ∧
    (∀ h i j, i ≠ j → ∀ place ∈ g.lobeImage h i ∩ g.lobeImage h j, ∀ lam phi,
      g.forward lam phi = .ok place → |phi| = Real.pi / 2) ∧
    (∀ lam place, g.forward lam 0 = .ok place → place = (lam, 0)) ∧
    (∀ h lam, Within (g.table h).west (g.table h).east lam →
      ∃ p : g.Piece, p.hemisphere = h ∧ p.branch = g.branchOfLatitude 0 ∧ p.Owns lam) ∧
    ∀ p : g.Piece, p.branch = g.branchOfLatitude 0 → ∀ lam, p.forward lam 0 = .ok (lam, 0) := by
  have hg := calibrated_of_build hbuild h0 h1
  refine ⟨fun _ _ => exists_forward_iff hg, fun _ _ _ _ => inStrip_of_forward hg, ?_, ?_, ?_,
    Piece.forward_equator hg⟩
  · intro h i j hij place ⟨hi, hj⟩ lam phi hplace
    exact (row_of_forward hg hplace).1.eq_of_not_lt fun hlt => hij (lobe_unique hg hi hj hplace hlt)
  · intro lam place hplace
    obtain ⟨p, hp, hdrawn⟩ := forward_eq_ok_iff.mp hplace
    rw [p.forward_equator hg (pieceOfPoint_eq_ok_iff.mp hp).2.2.1] at hdrawn
    exact (Except.ok.inj hdrawn).symm
  · intro h lam hlam
    obtain ⟨i, -, howns⟩ := (g.table h).exists_select hlam
    exact ⟨⟨h, i, g.branchOfLatitude 0⟩, rfl, rfl, howns⟩

/-- Its tip is a place of every lobe. -/
theorem tip_mem_lobeImage (hg : g.Calibrated) (i : (g.table .north).Lobe) :
    ((g.table .north).meridian i, g.mapRow (Real.pi / 2)) ∈ g.lobeImage .north i := by
  have hnorth := Hemisphere.of_nonneg (half_pos Real.pi_pos).le
  have howns : (g.table .north).Owns ((g.table .north).left i) i := .inl ⟨le_rfl, (g.table .north).left_lt_right i⟩
  have hp : g.pieceOfPoint ((g.table .north).left i) (Real.pi / 2) =
      .ok ⟨.north, i, g.branchOfLatitude (Real.pi / 2)⟩ :=
    pieceOfPoint_eq_ok_iff.mpr ⟨abs_pi_div_two.le, hnorth.symm, rfl, howns⟩
  have hplace := forward_of_piece hp (forward_mapRow hg hp)
  rw [Branch.scaleOf_halfPi, mul_zero, zero_add] at hplace
  exact ⟨_, _, hnorth, (LobeTable.select_eq_ok_iff _).mpr howns, hplace⟩

theorem halves_spanning : LobeTable.Spanning (#[-180, 0, 180] : Array ℝ) #[0, 0] where
  pos := by decide
  size := rfl
  increasing := by norm_num
  first := rfl
  last := rfl
  between i h := by
    simp only [List.size_toArray, List.length_cons, List.length_nil] at h
    interval_cases i <;> norm_num

/-- Both lobes of this table have the cut between them for a meridian. -/
theorem exists_halves : ∃ t : LobeTable ℝ, LobeTable.ofDegrees "halves" #[-180, 0, 180] #[0, 0] = .ok t ∧
    t.checkGeographic Constants.spanTolerance = .ok () ∧ (t.west = -Real.pi ∧ t.east = Real.pi) ∧
      t.meridians.size = 2 ∧ ∀ i, t.meridian i = 0 := by
  obtain ⟨t, ht⟩ := LobeTable.exists_ofDegrees "halves" halves_spanning
  obtain ⟨-, -, hmeridians⟩ := LobeTable.build_eq_ok ht
  have hsize : t.meridians.size = 2 := by
    rw [hmeridians, Array.size_map]
    rfl
  refine ⟨t, ht, LobeTable.check_of_ofDegrees halves_spanning ht,
    ⟨LobeTable.west_of_ofDegrees halves_spanning ht, LobeTable.east_of_ofDegrees halves_spanning ht⟩, hsize, fun i => ?_⟩
  obtain ⟨n, hn⟩ := i
  simp only [LobeTable.meridian, hmeridians, Fin.getElem_fin, Array.getElem_map, Constants.tableRadians_real]
  rw [hsize] at hn
  interval_cases n <;> norm_num

/-- They share their tips and no more. -/
theorem lobes_keep_to_strips_halves : ∃ (t : LobeTable ℝ) (g : Homolosine ℝ),
    LobeTable.ofDegrees "halves" #[-180, 0, 180] #[0, 0] = .ok t ∧
      build t t Constants.seamLatitude.value Mollweide.exact = .ok g ∧
        (∃ x y, g.forward (-1) 1 = .ok (x, y) ∧ x < 0) ∧
          ∃ i j place, i ≠ j ∧ place ∈ g.lobeImage .north i ∩ g.lobeImage .north j ∧
            ∀ lam phi, g.forward lam phi = .ok place → |phi| = Real.pi / 2 := by
  obtain ⟨t, ht, hcheck, ⟨hwest, heast⟩, hsize, hmeridian⟩ := exists_halves
  obtain ⟨g, hbuild, hg, -, hnorth, -⟩ := exists_build hcheck hcheck Constants.seamLatitude_nonneg
    Constants.seamLatitude_lt.le
  obtain ⟨-, hstrip, hapart, -⟩ := lobes_keep_to_strips hbuild Constants.seamLatitude_nonneg
    Constants.seamLatitude_lt.le
  have htable : g.table .north = t := hnorth
  subst htable
  have hpi := Real.pi_gt_three
  have hphi : |(1 : ℝ)| < Real.pi / 2 := by
    rw [abs_one]
    linarith
  have htip (i : (g.table .north).Lobe) : (0, g.mapRow (Real.pi / 2)) ∈ g.lobeImage .north i := by
    rw [← hmeridian i]
    exact tip_mem_lobeImage hg i
  have hdistinct : (⟨0, hsize ▸ two_pos⟩ : (g.table .north).Lobe) ≠ ⟨1, hsize ▸ one_lt_two⟩ := by
    simp
  have hshared := hapart _ _ _ hdistinct _ ⟨htip _, htip _⟩
  refine ⟨_, g, ht, hbuild, ?_, _, _, _, hdistinct, ⟨htip _, htip _⟩, hshared⟩
  obtain ⟨i, -, howns⟩ := (g.table .north).exists_select (c := -1) ⟨by linarith, by linarith⟩
  have hp : g.pieceOfPoint (-1) 1 = .ok ⟨.north, i, g.branchOfLatitude 1⟩ :=
    pieceOfPoint_eq_ok_iff.mpr ⟨hphi.le, (Hemisphere.of_nonneg zero_le_one).symm, rfl, howns⟩
  obtain ⟨x, y, hplace⟩ : ∃ x y, g.forward (-1) 1 = .ok (x, y) :=
    ⟨_, _, forward_of_piece hp (forward_mapRow hg hp)⟩
  obtain ⟨p, hsame, hin⟩ := hstrip _ _ _ _ hplace
  obtain rfl := Except.ok.inj (hp.symm.trans hsame)
  have hcentre : Piece.meridian (⟨.north, i, g.branchOfLatitude 1⟩ : g.Piece) = 0 := hmeridian i
  have hdrawn := hin.drawn
  rw [hcentre] at hdrawn
  exact ⟨x, y, hplace, by linarith [hin.scale_pos hphi]⟩

end GoodeMap.Homolosine
