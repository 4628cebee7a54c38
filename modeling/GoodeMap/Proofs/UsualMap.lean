import GoodeMap.Proofs.Piece
import Mathlib.Tactic.IntervalCases

/-! The usual cuts and seam over the real numbers make a map. -/
namespace GoodeMap
open Scalar

namespace Constants

/-- Over the real numbers the outer ends are no exception. -/
theorem tableRadians_real (degrees : ℝ) : tableRadians degrees = degrees * (Real.pi / 180) := by
  have hhalf : (180.0 : ℝ) = 180 := by norm_num
  unfold tableRadians
  split_ifs with hwest heast
  · rw [meets_iff.mp hwest]
    change -Real.pi = -180.0 * (Real.pi / 180)
    rw [hhalf]
    ring
  · rw [meets_iff.mp heast]
    change Real.pi = 180.0 * (Real.pi / 180)
    rw [hhalf]
    ring
  · exact congrArg (fun half => degrees * (Real.pi / half)) hhalf

theorem tableRadians_strictMono : StrictMono (tableRadians : ℝ → ℝ) := by
  rw [funext tableRadians_real]
  exact strictMono_mul_right_of_pos (div_pos Real.pi_pos (by norm_num))

theorem seamLatitude_real :
    (seamLatitude.value : ℝ) = (40 + 44 / 60 + 11.8 / 3600) * (Real.pi / 180) := by
  change ((40.0 : ℝ) + 44.0 / 60.0 + 11.8 / 3600.0) * (Real.pi / 180.0) = _
  norm_num

theorem seamLatitude_nonneg : (0 : ℝ) ≤ seamLatitude.value := by
  rw [seamLatitude_real]
  positivity

theorem seamLatitude_lt : (seamLatitude.value : ℝ) < Real.pi / 2 := by
  rw [seamLatitude_real]
  linarith [Real.pi_pos]

end Constants

namespace LobeTable

structure Spanning (cuts meridians : Array ℝ) : Prop where
  pos : 0 < meridians.size
  size : cuts.size = meridians.size + 1
  increasing : cuts.toList.Pairwise (· < ·)
  first : cuts[0] = -180
  last : cuts[meridians.size] = 180
  between (i : Nat) (h : i < meridians.size) : cuts[i] ≤ meridians[i] ∧ meridians[i] ≤ cuts[i + 1]

theorem exists_ofDegrees (name : String) {cuts meridians : Array ℝ} (h : Spanning cuts meridians) :
    ∃ t, ofDegrees name cuts meridians = .ok t := by
  have hpos : 0 < (meridians.map Constants.tableRadians).size := by
    rw [Array.size_map]
    exact h.pos
  have hsize : (cuts.map Constants.tableRadians).size =
      (meridians.map Constants.tableRadians).size + 1 := by
    rw [Array.size_map, Array.size_map]
    exact h.size
  have hfinite : ∀ v ∈ cuts.map Constants.tableRadians ++ meridians.map Constants.tableRadians,
      isFinite v = true := fun _ _ => rfl
  have hinc : (cuts.map Constants.tableRadians).toList.Pairwise (· < ·) := by
    rw [Array.toList_map]
    exact h.increasing.map _ fun _ _ hab => Constants.tableRadians_strictMono hab
  rw [ofDegrees, build, dif_pos hpos, dif_pos hsize, dif_pos hfinite, dif_pos hinc]
  exact ⟨_, rfl⟩

section
variable {name : String} {cuts meridians : Array ℝ} {t : LobeTable ℝ}

theorem west_of_ofDegrees (h : Spanning cuts meridians) (ht : ofDegrees name cuts meridians = .ok t) :
    t.west = -Real.pi := by
  obtain ⟨-, hb, -⟩ := build_eq_ok ht
  simp only [west, left, hb, Array.getElem_map, h.first, Constants.tableRadians_real]
  ring

theorem east_of_ofDegrees (h : Spanning cuts meridians) (ht : ofDegrees name cuts meridians = .ok t) :
    t.east = Real.pi := by
  obtain ⟨-, hb, hm⟩ := build_eq_ok ht
  have hlast : t.meridians.size - 1 + 1 = meridians.size := by
    rw [Nat.sub_add_cancel t.meridians_pos, hm, Array.size_map]
  simp only [east, right, hb, hlast, Array.getElem_map, h.last, Constants.tableRadians_real]
  ring

theorem check_of_ofDegrees (h : Spanning cuts meridians) (ht : ofDegrees name cuts meridians = .ok t) :
    t.checkGeographic Constants.spanTolerance = .ok () := by
  obtain ⟨-, hb, hm⟩ := build_eq_ok ht
  have htolerance : ¬ (Constants.spanTolerance : ℝ) < 0 := by
    change ¬ (1e-12 : ℝ) < 0
    norm_num
  refine checkGeographic_eq_ok_iff.mpr ⟨?_, fun i => ?_⟩
  · simpa [west_of_ofDegrees h ht, east_of_ofDegrees h ht] using htolerance
  · have hsize : t.meridians.size = meridians.size := by
      rw [hm, Array.size_map]
    have hi : i.val < meridians.size := i.isLt.trans_eq hsize
    obtain ⟨hleft, hright⟩ := h.between i hi
    have hmono := Constants.tableRadians_strictMono.monotone
    simp only [left, right, meridian, hb, hm, Array.getElem_map, Fin.getElem_fin]
    exact ⟨hmono hleft, hmono hright⟩

end

theorem north_spanning : Spanning (Constants.northCuts (α := ℝ)) Constants.northMeridians where
  pos := by decide
  size := rfl
  increasing := by norm_num [Constants.northCuts]
  first := by norm_num [Constants.northCuts]
  last := by norm_num [Constants.northCuts, Constants.northMeridians]
  between i h := by
    simp only [Constants.northMeridians, List.size_toArray, List.length_cons, List.length_nil] at h
    interval_cases i <;> norm_num [Constants.northCuts, Constants.northMeridians]

theorem south_spanning : Spanning (Constants.southCuts (α := ℝ)) Constants.southMeridians where
  pos := by decide
  size := rfl
  increasing := by norm_num [Constants.southCuts]
  first := by norm_num [Constants.southCuts]
  last := by norm_num [Constants.southCuts, Constants.southMeridians]
  between i h := by
    simp only [Constants.southMeridians, List.size_toArray, List.length_cons, List.length_nil] at h
    interval_cases i <;> norm_num [Constants.southCuts, Constants.southMeridians]

end LobeTable

namespace LobeTable

theorem owns_of_north {t : LobeTable ℝ} (ht : north = .ok t) {lam : ℝ} (h0 : 0 ≤ lam) (h1 : lam < Real.pi) :
    ∃ i, t.Owns lam i ∧ t.meridian i = Real.pi / 6 := by
  obtain ⟨-, hb, hm⟩ := build_eq_ok ht
  have hsize : 1 < t.meridians.size := by
    rw [hm, Array.size_map]
    decide
  have hfactor : 0 < Real.pi / 180 := div_pos Real.pi_pos (by norm_num)
  refine ⟨⟨1, hsize⟩, .inl ⟨?_, ?_⟩, ?_⟩
  · simp only [left, hb, Constants.northCuts, Array.getElem_map, Constants.tableRadians_real]
    refine le_trans ?_ h0
    norm_num [hfactor.le]
  · simp only [right, hb, Constants.northCuts, Array.getElem_map, Constants.tableRadians_real]
    refine lt_of_lt_of_le h1 ?_
    norm_num
    linarith
  · simp only [meridian, hm, Constants.northMeridians, Fin.getElem_fin, Array.getElem_map,
      Constants.tableRadians_real]
    norm_num
    ring

theorem left_nonpos_of_north {t : LobeTable ℝ} (ht : north = .ok t) (i : t.Lobe) : t.left i ≤ 0 := by
  obtain ⟨-, hb, hm⟩ := build_eq_ok ht
  have hsize : t.meridians.size = 2 := by
    rw [hm, Array.size_map]
    rfl
  have hfactor : 0 < Real.pi / 180 := div_pos Real.pi_pos (by norm_num)
  obtain ⟨n, hn⟩ := i
  simp only [left, hb, Constants.northCuts, Array.getElem_map, Constants.tableRadians_real]
  rw [hsize] at hn
  refine mul_nonpos_of_nonpos_of_nonneg ?_ hfactor.le
  interval_cases n <;> norm_num

end LobeTable

namespace Homolosine

theorem exists_usual : ∃ g, usual Mollweide.exact = .ok g := by
  obtain ⟨north, hn⟩ := LobeTable.exists_ofDegrees "north" LobeTable.north_spanning
  obtain ⟨south, hs⟩ := LobeTable.exists_ofDegrees "south" LobeTable.south_spanning
  obtain ⟨g, hg, -⟩ := exists_build (LobeTable.check_of_ofDegrees LobeTable.north_spanning hn)
    (LobeTable.check_of_ofDegrees LobeTable.south_spanning hs) Constants.seamLatitude_nonneg
    Constants.seamLatitude_lt.le
  refine ⟨g, ?_⟩
  rw [usual, LobeTable.north, LobeTable.south, hn, hs]
  exact hg

theorem parts_of_usual {α : Type} [Scalar α] {m : Mollweide α} {g : Homolosine α} (h : usual m = .ok g) :
    ∃ north south, LobeTable.north = .ok north ∧ LobeTable.south = .ok south ∧
      build north south Constants.seamLatitude.value m = .ok g := by
  obtain ⟨north, hn, h⟩ := bind_eq_ok_iff.mp h
  obtain ⟨south, hs, hbuild⟩ := bind_eq_ok_iff.mp h
  exact ⟨north, south, hn, hs, hbuild⟩

theorem calibrated_of_usual {g : Homolosine ℝ} (h : usual Mollweide.exact = .ok g) : g.Calibrated := by
  obtain ⟨north, south, -, -, hbuild⟩ := parts_of_usual h
  exact calibrated_of_build hbuild Constants.seamLatitude_nonneg Constants.seamLatitude_lt.le

theorem seam_of_usual {g : Homolosine ℝ} (h : usual Mollweide.exact = .ok g) :
    g.seam.latitude = Constants.seamLatitude.value := by
  obtain ⟨north, south, -, -, hbuild⟩ := parts_of_usual h
  exact (of_build hbuild Constants.seamLatitude_nonneg Constants.seamLatitude_lt.le).2.1

theorem owns_of_usual {g : Homolosine ℝ} (h : usual Mollweide.exact = .ok g) {lam : ℝ} (h0 : 0 ≤ lam)
    (h1 : lam < Real.pi) : ∃ i, (g.table .north).Owns lam i ∧ (g.table .north).meridian i = Real.pi / 6 := by
  obtain ⟨north, south, hn, -, hbuild⟩ := parts_of_usual h
  obtain ⟨rfl, -⟩ := geographic_of_build hbuild Constants.seamLatitude_nonneg Constants.seamLatitude_lt.le
  exact LobeTable.owns_of_north hn h0 h1

theorem left_nonpos_of_usual {g : Homolosine ℝ} (h : usual Mollweide.exact = .ok g)
    {hemisphere : Hemisphere} (hnorth : hemisphere = .north) (i : (g.table hemisphere).Lobe) :
    (g.table hemisphere).left i ≤ 0 := by
  subst hnorth
  obtain ⟨north, south, hn, -, hbuild⟩ := parts_of_usual h
  obtain ⟨rfl, -⟩ := geographic_of_build hbuild Constants.seamLatitude_nonneg Constants.seamLatitude_lt.le
  exact LobeTable.left_nonpos_of_north hn i

/-- Either hemisphere reaches around the whole circle. -/
theorem range_of_usual {g : Homolosine ℝ} (h : usual Mollweide.exact = .ok g) (hemisphere : Hemisphere) :
    (g.table hemisphere).west = -Real.pi ∧ (g.table hemisphere).east = Real.pi := by
  obtain ⟨north, south, hn, hs, hbuild⟩ := parts_of_usual h
  obtain ⟨hng, hsg⟩ := geographic_of_build hbuild Constants.seamLatitude_nonneg
    Constants.seamLatitude_lt.le
  cases hemisphere with
  | north =>
    rw [table, sheet, hng]
    exact ⟨LobeTable.west_of_ofDegrees LobeTable.north_spanning hn,
      LobeTable.east_of_ofDegrees LobeTable.north_spanning hn⟩
  | south =>
    rw [table, sheet, hsg]
    exact ⟨LobeTable.west_of_ofDegrees LobeTable.south_spanning hs,
      LobeTable.east_of_ofDegrees LobeTable.south_spanning hs⟩

theorem within_of_usual {g : Homolosine ℝ} (h : usual Mollweide.exact = .ok g) (hemisphere : Hemisphere)
    {lam : ℝ} (hlam : Within (-pi) pi lam) :
    Within (g.table hemisphere).west (g.table hemisphere).east lam := by
  rwa [(range_of_usual h hemisphere).1, (range_of_usual h hemisphere).2]

end Homolosine
end GoodeMap
