import GoodeMap.Proofs.Calibration
import GoodeMap.Proofs.Choice
import GoodeMap.Proofs.DoubleCircular

/-! Which longitudes a map draws in its band. They are those of the hemisphere's table, end to end, and an
accepted table may stop a little short of a half turn or go a little past it. -/
namespace GoodeMap
open Scalar

namespace LobeTable
variable {α : Type} [Scalar α]

def Spans (t : LobeTable α) : Prop := Meets t.west (-pi) ∧ Meets t.east pi

instance (t : LobeTable α) : Decidable t.Spans := inferInstanceAs (Decidable (_ ∧ _))

theorem within_iff_of_spans [LawfulOrder α] {t : LobeTable α} (h : t.Spans) {lam : α} :
    Within t.west t.east lam ↔ Within (-pi) pi lam := by
  obtain ⟨⟨hwest, hwest'⟩, heast, heast'⟩ := h
  constructor
  · rintro ⟨hlow, hhigh⟩
    exact ⟨LawfulOrder.le_trans hwest' hlow, LawfulOrder.le_trans hhigh heast⟩
  · rintro ⟨hlow, hhigh⟩
    exact ⟨LawfulOrder.le_trans hwest hlow, LawfulOrder.le_trans hhigh heast'⟩

theorem spans_of_within_iff [LawfulOrder α] {t : LobeTable α} (hpi : (-pi : α) ≤ pi)
    (h : ∀ lam, Within t.west t.east lam ↔ Within (-pi) pi lam) : t.Spans := by
  have hends : t.west ≤ t.east := LawfulOrder.le_trans
    (LawfulOrder.le_of_lt (t.left_lt_right _)) (t.right_le_east _)
  have hwest := (h t.west).mp ⟨LawfulOrder.placed_left hends, hends⟩
  have heast := (h t.east).mp ⟨hends, LawfulOrder.placed_right hends⟩
  have hlow := (h (-pi)).mpr ⟨LawfulOrder.placed_left hpi, hpi⟩
  have hhigh := (h pi).mpr ⟨hpi, LawfulOrder.placed_right hpi⟩
  exact ⟨⟨hlow.1, hwest.1⟩, heast.2, hhigh.2⟩

theorem getElem?_boundaries_zero (t : LobeTable α) : t.boundaries[0]? = some t.west :=
  Array.getElem?_eq_getElem _

theorem back?_boundaries (t : LobeTable α) : t.boundaries.back? = some t.east := by
  have hlast : t.boundaries.size - 1 = t.meridians.size - 1 + 1 := by
    have hpos := t.meridians_pos
    have hsize := t.boundaries_size
    omega
  rw [Array.back?_eq_getElem?, hlast]
  exact Array.getElem?_eq_getElem _

def OfWholeTurn (t : LobeTable α) : Prop :=
  ∃ (name : String) (cuts meridians : Array α) (first last : α), ofDegrees name cuts meridians = .ok t ∧
    cuts[0]? = some first ∧ cuts.back? = some last ∧ Meets first (-180.0) ∧ Meets last 180.0

section
variable {c : Binary64.Circular} {t : LobeTable (Double c)}

/-- The outer ends of the degrees come out as the half turns to the last digit. -/
theorem spans_of_ofWholeTurn (h : t.OfWholeTurn) : t.Spans := by
  obtain ⟨name, cuts, meridians, first, last, ht, hfirst, hlast, hwest, heast⟩ := h
  obtain ⟨-, hboundaries, -⟩ := build_eq_ok ht
  have hdegrees : ¬ (180.0 : Double .native) ≤ -180.0 := by decide +kernel
  have hturns : Meets (-pi : Double .native) (-pi) ∧ Meets (pi : Double .native) pi := by decide +kernel
  -- The western end is looked for first, and the eastern one must not be taken for it.
  have hnotWest : ¬ Meets last (-180.0) := fun hmeets => hdegrees (LawfulOrder.le_trans heast.2 hmeets.1)
  have hleft := t.getElem?_boundaries_zero
  have hright := t.back?_boundaries
  rw [hboundaries, Array.getElem?_map, hfirst, Option.map_some, Constants.tableRadians, if_pos hwest,
    Option.some.injEq] at hleft
  rw [hboundaries, Array.back?_map, hlast, Option.map_some, Constants.tableRadians, if_neg hnotWest,
    if_pos heast, Option.some.injEq] at hright
  rw [Spans, ← hleft, ← hright]
  exact hturns

theorem ofWholeTurn_of_usual (h : north = .ok t ∨ south = .ok t) : t.OfWholeTurn := by
  have hends : Meets (-180.0 : Double .native) (-180.0) ∧ Meets (180.0 : Double .native) 180.0 := by decide +kernel
  rcases h with h | h
  · exact ⟨_, _, _, -180.0, 180.0, h, rfl, rfl, hends⟩
  · exact ⟨_, _, _, -180.0, 180.0, h, rfl, rfl, hends⟩

end

end LobeTable

theorem Sheet.geographic_of_ofTable {α : Type} [Scalar α] {t : LobeTable α} {s : Sheet α}
    (h : Sheet.ofTable t = .ok s) : s.geographic = t := by
  unfold Sheet.ofTable at h
  split at h
  · cases h
    rfl
  · cases h

theorem Seam.latitude_of_calibrate {α : Type} [Scalar α] {m : Mollweide α} {latitude : α} {s : Seam α}
    (h : Seam.calibrate m latitude = .ok s) : s.latitude = latitude := by
  obtain ⟨-, _, -, rfl⟩ := Seam.calibrate_eq_ok h
  rfl

def Hemisphere.pick {β : Type} (north south : β) : Hemisphere → β
  | .north => north
  | .south => south

namespace Homolosine
variable {α : Type} [Scalar α]

def Covers (g : Homolosine α) (lam phi : α) : Prop :=
  match g.forward lam phi with
  | .ok _ => Within (-pi) pi lam
  | .error e => e.kind = .domain ∧ ¬ Within (-pi) pi lam

section
variable {north south : LobeTable α} {latitude : α} {m : Mollweide α} {g : Homolosine α}

theorem parts_of_build (h : build north south latitude m = .ok g) :
    ∃ seam northSheet southSheet, Seam.calibrate m latitude = .ok seam ∧
      Sheet.ofTable north = .ok northSheet ∧ Sheet.ofTable south = .ok southSheet ∧
      g = ⟨m, seam, northSheet, southSheet⟩ := by
  obtain ⟨-, -, h⟩ := bind_eq_ok_iff.mp h
  obtain ⟨-, -, h⟩ := bind_eq_ok_iff.mp h
  obtain ⟨seam, hseam, h⟩ := bind_eq_ok_iff.mp h
  obtain ⟨northSheet, hnorth, h⟩ := bind_eq_ok_iff.mp h
  obtain ⟨southSheet, hsouth, h⟩ := bind_eq_ok_iff.mp h
  cases h
  exact ⟨seam, northSheet, southSheet, hseam, hnorth, hsouth, rfl⟩

theorem mollweide_of_build (h : build north south latitude m = .ok g) : g.mollweide = m := by
  obtain ⟨_, _, _, -, -, -, rfl⟩ := parts_of_build h
  rfl

theorem tables_of_build (h : build north south latitude m = .ok g) :
    (∀ hemisphere, (g.sheet hemisphere).geographic = hemisphere.pick north south) ∧
      g.seam.latitude = latitude := by
  obtain ⟨seam, northSheet, southSheet, hseam, hnorth, hsouth, rfl⟩ := parts_of_build h
  refine ⟨fun hemisphere => ?_, Seam.latitude_of_calibrate hseam⟩
  cases hemisphere with
  | north => exact Sheet.geographic_of_ofTable hnorth
  | south => exact Sheet.geographic_of_ofTable hsouth

end

section
variable {g : Homolosine α} {lam phi : α}

theorem forward_of_not_within (hphi : Within (-halfPi) halfPi phi)
    (hlam : ¬ Within (g.sheet (Hemisphere.of phi)).geographic.west
      (g.sheet (Hemisphere.of phi)).geographic.east lam) :
    ∃ e, g.forward lam phi = .error e ∧ e.kind = .domain :=
  ⟨_, forward_eq_error_cases.mpr (.inr ⟨hphi, .inl ((LobeTable.select_eq_error_iff _).mpr ⟨hlam, rfl⟩)⟩), rfl⟩

/-- In the band only the latitude of a point can be wrong for its lobe. -/
theorem forward_of_within (hphi : Within (-halfPi) halfPi phi) (hband : ¬ g.seam.latitude < abs phi)
    (hlam : Within (g.sheet (Hemisphere.of phi)).geographic.west
      (g.sheet (Hemisphere.of phi)).geographic.east lam) :
    ∃ place, g.forward lam phi = .ok place := by
  cases h : g.forward lam phi with
  | ok place => exact ⟨place, rfl⟩
  | error e => exact absurd ((forward_eq_error_iff_of_within hphi hlam).mp h).1 hband

/-- The table's range is drawn, and the principal range ought to be. -/
theorem covers_iff_within (hphi : Within (-halfPi) halfPi phi) (hband : ¬ g.seam.latitude < abs phi) :
    g.Covers lam phi ↔ (Within (g.sheet (Hemisphere.of phi)).geographic.west
      (g.sheet (Hemisphere.of phi)).geographic.east lam ↔ Within (-pi) pi lam) := by
  by_cases hlam : Within (g.sheet (Hemisphere.of phi)).geographic.west
      (g.sheet (Hemisphere.of phi)).geographic.east lam
  · obtain ⟨place, hplace⟩ := forward_of_within hphi hband hlam
    simp only [Covers, hplace, hlam, true_iff]
  · obtain ⟨e, he, hkind⟩ := forward_of_not_within hphi hlam
    simp only [Covers, he, hkind, hlam, true_and, false_iff]

theorem covers_all_iff [LawfulOrder α] (hpi : (-pi : α) ≤ pi) (hphi : Within (-halfPi) halfPi phi)
    (hband : abs phi ≤ g.seam.latitude) :
    (∀ lam, g.Covers lam phi) ↔ (g.sheet (Hemisphere.of phi)).geographic.Spans := by
  have hband' := LawfulOrder.not_lt_of_le hband
  simp only [covers_iff_within hphi hband']
  exact ⟨LobeTable.spans_of_within_iff hpi, fun h _ => LobeTable.within_iff_of_spans h⟩

end

section
open Binary64 (Circular)
variable {c : Circular} {north south : LobeTable (Double c)} {latitude phi : Double c}
  {m : Mollweide (Double c)} {g : Homolosine (Double c)}

/-- At a latitude of the band a longitude, infinite or no number among others, is treated as it ought to be
unless it lies between an end of the accepted table and the half turn. All are if and only if the table begins
and ends at a half turn. -/
theorem covers_iff_spans (hbuild : build north south latitude m = .ok g)
    (hphi : Within (-halfPi) halfPi phi) (hband : abs phi ≤ latitude) :
    (∀ lam, g.Covers lam phi ↔ (Within ((Hemisphere.of phi).pick north south).west
      ((Hemisphere.of phi).pick north south).east lam ↔ Within (-pi) pi lam)) ∧
    ((∀ lam, g.Covers lam phi) ↔ ((Hemisphere.of phi).pick north south).Spans) := by
  have hpi : (-pi : Double .native) ≤ pi := by decide +kernel
  obtain ⟨htables, rfl⟩ := tables_of_build hbuild
  rw [← htables]
  exact ⟨fun lam => covers_iff_within hphi (LawfulOrder.not_lt_of_le hband),
    covers_all_iff hpi hphi hband⟩

end

def oneLobe (west : Double .level) (hfinite : ∀ v ∈ #[west, pi] ++ #[0.0], isFinite v = true)
    (hpi : west < pi) : LobeTable (Double .level) where
  name := "one lobe"
  boundaries := #[west, pi]
  meridians := #[0.0]
  meridians_pos := by decide
  boundaries_size := rfl
  finite := hfinite
  increasing := List.pairwise_pair.mpr hpi

def wholeLobe : LobeTable (Double .level) := oneLobe (-pi) (by decide +kernel) (by decide +kernel)

def shortLobe : LobeTable (Double .level) :=
  oneLobe (-3.1415926535897) (by decide +kernel) (by decide +kernel)

theorem exists_of_isOk {ε β : Type} {r : Except ε β} (h : r.isOk = true) : ∃ b, r = .ok b := by
  cases r with
  | error e => cases h
  | ok b => exact ⟨b, rfl⟩

/-- The usual cuts, with a seam so near the equator that `level` is right on both sides of it. -/
def lowSeam : Except (Failure (Double .level)) (Homolosine (Double .level)) := do
  build (← LobeTable.north) (← LobeTable.south) 5e-10 (.newton .standard)

theorem parts_of_lowSeam {g : Homolosine (Double .level)} (h : lowSeam = .ok g) : ∃ north south,
    LobeTable.north = .ok north ∧ LobeTable.south = .ok south ∧
      build north south 5e-10 (.newton .standard) = .ok g := by
  obtain ⟨north, hnorth, h⟩ := bind_eq_ok_iff.mp h
  obtain ⟨south, hsouth, hbuild⟩ := bind_eq_ok_iff.mp h
  exact ⟨north, south, hnorth, hsouth, hbuild⟩

theorem covers_wholeLobe : ∃ g, build wholeLobe wholeLobe 0.0 (.newton .standard) = .ok g ∧
    ∀ lam, g.Covers lam 0.0 := by
  obtain ⟨g, hg⟩ := exists_of_isOk (r := build wholeLobe wholeLobe 0.0 (.newton .standard)) (by decide +kernel)
  exact ⟨g, hg, (covers_iff_spans hg (by decide +kernel) (by decide +kernel)).2.mpr (by decide +kernel)⟩

/-- An accepted table refuses the end of the principal range. -/
theorem not_covers_shortLobe : ∃ g, build shortLobe wholeLobe 0.0 (.newton .standard) = .ok g ∧
    Within (-pi) pi (-pi : Double .level) ∧ (∃ e, g.forward (-pi) 0.0 = .error e ∧ e.kind = .domain) ∧
      ¬ g.Covers (-pi) 0.0 := by
  obtain ⟨g, hg⟩ := exists_of_isOk (r := build shortLobe wholeLobe 0.0 (.newton .standard)) (by decide +kernel)
  have hphi : Within (-halfPi) halfPi (0.0 : Double .level) := by decide +kernel
  have hpi : Within (-pi) pi (-pi : Double .level) := by decide +kernel
  have hshort : ¬ Within (g.sheet (Hemisphere.of 0.0)).geographic.west
      (g.sheet (Hemisphere.of 0.0)).geographic.east (-pi : Double .level) := by
    rw [(tables_of_build hg).1]
    decide +kernel
  obtain ⟨e, he, hkind⟩ := forward_of_not_within hphi hshort
  refine ⟨g, hg, hpi, ⟨e, he, hkind⟩, fun hcovers => ?_⟩
  simp only [Covers, he] at hcovers
  exact hcovers.2 hpi

end Homolosine
end GoodeMap
