import GoodeMap.Proofs.LobePartition
import GoodeMap.Proofs.Parallel

/-! What an accepted map has to offer over the real numbers: cuts that stand at their own longitudes on
the equator, central meridians inside their lobes, and a seam where both projections draw one row. -/
namespace GoodeMap
open Scalar

theorem bind_eq_ok_iff {ε α β : Type} {x : Except ε α} {f : α → Except ε β} {b : β} :
    x >>= f = .ok b ↔ ∃ a, x = .ok a ∧ f a = .ok b := by
  cases x with
  | error e => simp [bind, Except.bind]
  | ok a => simp [bind, Except.bind]

namespace LobeTable
variable {α : Type} [Scalar α]

theorem checkGeographic_eq_ok_iff {t : LobeTable α} {tolerance : α} :
    t.checkGeographic tolerance = .ok () ↔
      ¬ (tolerance < abs (t.west + pi) ∨ tolerance < abs (t.east - pi)) ∧
        ∀ i, Within (t.left i) (t.right i) (t.meridian i) := by
  unfold checkGeographic
  split_ifs with hspan
  · simp [hspan]
  · simp only [hspan, not_false_eq_true, true_and]
    cases hbad : (List.finRange t.meridians.size).find? fun i =>
        ¬ Within (t.left i) (t.right i) (t.meridian i) with
    | some i =>
      have hi := List.find?_some hbad
      simp only [decide_not, Bool.not_eq_eq_eq_not, Bool.not_true, decide_eq_false_iff_not] at hi
      simp only [reduceCtorEq, false_iff, not_forall]
      exact ⟨i, hi⟩
    | none => simpa using List.find?_eq_none.mp hbad

theorem build_self (t : LobeTable α) (name : String) :
    build name t.boundaries t.meridians =
      .ok ⟨name, t.boundaries, t.meridians, t.meridians_pos, t.boundaries_size, t.finite,
        t.increasing⟩ := by
  rw [build, dif_pos t.meridians_pos, dif_pos t.boundaries_size, dif_pos t.finite,
    dif_pos t.increasing]

theorem left_congr {t u : LobeTable α} (h : t.boundaries = u.boundaries) {i : t.Lobe} {j : u.Lobe}
    (hij : i.val = j.val) : t.left i = u.left j := by
  simp only [left, h, hij]

theorem right_congr {t u : LobeTable α} (h : t.boundaries = u.boundaries) {i : t.Lobe} {j : u.Lobe}
    (hij : i.val = j.val) : t.right i = u.right j := by
  simp only [right, h, hij]

theorem west_congr {t u : LobeTable α} (h : t.boundaries = u.boundaries) : t.west = u.west :=
  left_congr h rfl

theorem east_congr {t u : LobeTable α} (h : t.boundaries = u.boundaries)
    (hm : t.meridians = u.meridians) : t.east = u.east :=
  right_congr h (congrArg (Array.size · - 1) hm)

end LobeTable

@[simp] theorem Seam.horizontalShift_real (meridian : ℝ) : Seam.horizontalShift meridian = meridian := by
  have hzero : (0.0 : ℝ) = 0 := by norm_num
  change meridian * Real.cos 0.0 = meridian
  rw [hzero, Real.cos_zero, mul_one]

/-- Over the real numbers the planar table has the geographic one's boundaries. -/
theorem Sheet.ofTable_real (t : LobeTable ℝ) :
    ∃ s, Sheet.ofTable t = .ok s ∧ s.geographic = t ∧ s.planar.boundaries = t.boundaries := by
  have hmap : t.boundaries.map Seam.horizontalShift = t.boundaries := by
    rw [funext Seam.horizontalShift_real]
    exact Array.map_id t.boundaries
  have hbuild : t.mapped Seam.horizontalShift (t.name ++ " (planar)") = .ok ⟨t.name ++ " (planar)",
      t.boundaries, t.meridians, t.meridians_pos, t.boundaries_size, t.finite, t.increasing⟩ := by
    rw [LobeTable.mapped, hmap, LobeTable.build_self]
  unfold Sheet.ofTable
  split
  · next u hu =>
    rw [hbuild] at hu
    cases hu
    exact ⟨_, rfl, rfl, rfl⟩
  · next e he =>
    rw [hbuild] at he
    cases he

theorem Seam.calibrate_exact {latitude : ℝ} (h : |latitude| ≤ Real.pi / 2) :
    Seam.calibrate Mollweide.exact latitude =
      .ok ⟨latitude, latitude, Branch.mollweide.rowOf latitude - latitude⟩ := by
  rw [Seam.calibrate, Sinusoidal.forward_real _ h, Mollweide.forward_exact _ h]
  rfl

structure Seam.Measured (s : Seam ℝ) : Prop where
  latitude_le : |s.latitude| ≤ Real.pi / 2
  row_eq : s.row = s.latitude
  cap_le : |s.row + s.offset| ≤ √2

namespace Homolosine

/-- A map over the real numbers as accepted, with the exact auxiliary angle and a seam between the equator
and the north pole. -/
structure Calibrated (g : Homolosine ℝ) : Prop where
  mollweide_eq : g.mollweide = Mollweide.exact
  seam_nonneg : 0 ≤ g.seam.latitude
  seam_le : g.seam.latitude ≤ Real.pi / 2
  row_eq : g.seam.row = g.seam.latitude
  offset_eq : g.seam.offset = Branch.mollweide.rowOf g.seam.latitude - g.seam.latitude
  planar_boundaries (h : Hemisphere) :
    (g.sheet h).planar.boundaries = (g.sheet h).geographic.boundaries
  meridian_within (h : Hemisphere) (i : (g.sheet h).geographic.Lobe) :
    Within ((g.sheet h).geographic.left i) ((g.sheet h).geographic.right i)
      ((g.sheet h).geographic.meridian i)

variable {north south : LobeTable ℝ} {latitude : ℝ}

/-- Tables that pass their checks and a seam that was measured make a map. -/
theorem build_of_calibrate {m : Mollweide ℝ} {seam : Seam ℝ}
    (hn : north.checkGeographic Constants.spanTolerance = .ok ())
    (hs : south.checkGeographic Constants.spanTolerance = .ok ())
    (hseam : Seam.calibrate m latitude = .ok seam) : ∃ northSheet southSheet,
      build north south latitude m = .ok ⟨m, seam, northSheet, southSheet⟩ ∧
        (northSheet.geographic = north ∧ northSheet.planar.boundaries = north.boundaries) ∧
          southSheet.geographic = south ∧ southSheet.planar.boundaries = south.boundaries := by
  obtain ⟨northSheet, hnorth, hnorthParts⟩ := Sheet.ofTable_real north
  obtain ⟨southSheet, hsouth, hsouthParts⟩ := Sheet.ofTable_real south
  refine ⟨northSheet, southSheet, ?_, hnorthParts, hsouthParts⟩
  rw [build, hn, hs, hseam, hnorth, hsouth]
  rfl

theorem exists_build (hn : north.checkGeographic Constants.spanTolerance = .ok ())
    (hs : south.checkGeographic Constants.spanTolerance = .ok ()) (h0 : 0 ≤ latitude)
    (h1 : latitude ≤ Real.pi / 2) :
    ∃ g, build north south latitude Mollweide.exact = .ok g ∧ g.Calibrated ∧
      g.seam.latitude = latitude ∧ g.north.geographic = north ∧ g.south.geographic = south := by
  have habs : |latitude| ≤ Real.pi / 2 := (abs_of_nonneg h0).trans_le h1
  obtain ⟨ns, ss, hbuild, ⟨hng, hnb⟩, hsg, hsb⟩ := build_of_calibrate hn hs (Seam.calibrate_exact habs)
  refine ⟨_, hbuild, ⟨rfl, h0, h1, rfl, rfl, ?_, ?_⟩, rfl, hng, hsg⟩
  · intro h
    cases h with
    | north => exact hnb.trans (congrArg LobeTable.boundaries hng.symm)
    | south => exact hsb.trans (congrArg LobeTable.boundaries hsg.symm)
  · intro h
    cases h with
    | north =>
      subst hng
      exact (LobeTable.checkGeographic_eq_ok_iff.mp hn).2
    | south =>
      subst hsg
      exact (LobeTable.checkGeographic_eq_ok_iff.mp hs).2

theorem check_of_build {α : Type} [Scalar α] {north south : LobeTable α} {latitude : α} {m : Mollweide α}
    {g : Homolosine α} (h : build north south latitude m = .ok g) :
    north.checkGeographic Constants.spanTolerance = .ok () ∧
      south.checkGeographic Constants.spanTolerance = .ok () := by
  obtain ⟨_, hn, h⟩ := bind_eq_ok_iff.mp h
  obtain ⟨_, hs, _⟩ := bind_eq_ok_iff.mp h
  exact ⟨hn, hs⟩

section
variable {g : Homolosine ℝ} (h : build north south latitude Mollweide.exact = .ok g)
  (h0 : 0 ≤ latitude) (h1 : latitude ≤ Real.pi / 2)
include h h0 h1

theorem of_build : g.Calibrated ∧ g.seam.latitude = latitude ∧ g.north.geographic = north ∧
    g.south.geographic = south := by
  obtain ⟨hn, hs⟩ := check_of_build h
  obtain ⟨g', hg', hparts⟩ := exists_build hn hs h0 h1
  rw [h] at hg'
  cases hg'
  exact hparts

theorem calibrated_of_build : g.Calibrated := (of_build h h0 h1).1

theorem geographic_of_build : g.north.geographic = north ∧ g.south.geographic = south :=
  (of_build h h0 h1).2.2

end

end Homolosine
end GoodeMap
