import GoodeMap.Proofs.Coverage
import GoodeMap.Wording

/-! What a point is refused for. Its latitude is examined first, then its longitude against the table of its
hemisphere; past both, only a latitude beyond the seam can fail, for want of an auxiliary angle, and the failure
is passed on with its own details, the hemisphere and the lobe behind them. -/
namespace GoodeMap
open Scalar
open Binary64 (Circular)

namespace Context

/-- A new name is put behind those that are present. -/
theorem put_of_fresh {entries : Context} {key : String} (h : key ∉ entries.keys) (value : Detail) :
    entries.put key value = entries ++ [(key, value)] := by
  induction entries with
  | nil => rfl
  | cons entry rest ih =>
    simp only [keys, List.map_cons, List.mem_cons, not_or] at h
    rw [put, if_neg (Ne.symm h.1), ih h.2, List.cons_append]

theorem update_of_fresh {entries added : Context} (hadded : added.keys.Nodup)
    (h : added.keys.Disjoint entries.keys) : entries.update added = entries ++ added := by
  induction added generalizing entries with
  | nil => exact (List.append_nil entries).symm
  | cons entry rest ih =>
    obtain ⟨hentry, hrest⟩ := List.disjoint_cons_left.mp h
    obtain ⟨hfresh, hnodup⟩ := List.nodup_cons.mp hadded
    -- For the rest the first entry counts as present.
    have hgrown : (keys rest).Disjoint (keys (entries ++ [entry])) := by
      rw [keys, keys, List.map_append, List.disjoint_append_right]
      exact ⟨hrest, List.disjoint_singleton.mpr hfresh⟩
    rw [update, List.foldl_cons, put_of_fresh hentry, ← update, ih hnodup hgrown, List.append_assoc]
    rfl

end Context

namespace Failure

/-- An unsettled angle that is passed on from a lobe keeps its text, and its details before those of the lobe. -/
theorem report_inLobe_unsettled (budget : Int) (phi estimate : Float) (h : Hemisphere) (lobe : Nat) :
    (inLobe h lobe (unsettled budget phi estimate)).report =
      ⟨(unsettled budget phi estimate).message, (unsettled budget phi estimate).context ++
        [("hemisphere", .text h.name), ("lobe", .whole lobe)]⟩ := by
  have hnames : Context.keys [("hemisphere", .text h.name), ("lobe", .whole lobe)] = ["hemisphere", "lobe"] := rfl
  have hown : (unsettled budget phi estimate).context.keys = ["projection", "phi", "last_estimate"] := rfl
  refine congrArg (Report.mk _) (Context.update_of_fresh ?_ ?_)
  · rw [hnames]
    decide
  · rw [hnames, hown]
    simp

end Failure

namespace Homolosine

section
variable {α : Type} [Scalar α] {g : Homolosine α} {lam phi : α}

theorem forward_eq_offGlobe_iff :
    g.forward lam phi = .error (.offGlobe lam phi) ↔ ¬ Within (-halfPi) halfPi phi := by
  constructor
  · intro h
    rcases forward_eq_error_cases.mp h with ⟨hphi, -⟩ | ⟨-, hselect | ⟨_, _, -, -, -, he⟩⟩
    · exact hphi
    · cases ((LobeTable.select_eq_error_iff _).mp hselect).2
    · cases he
  · intro hphi
    exact forward_eq_error_cases.mpr (.inl ⟨hphi, rfl⟩)

theorem forward_eq_outsideTable_iff (hphi : Within (-halfPi) halfPi phi) {t : LobeTable α}
    (ht : (g.sheet (Hemisphere.of phi)).geographic = t) :
    g.forward lam phi = .error (.outsideTable t.name lam t.west t.east) ↔ ¬ Within t.west t.east lam := by
  subst ht
  constructor
  · intro h hlam
    obtain ⟨-, _, -, he⟩ := (forward_eq_error_iff_of_within hphi hlam).mp h
    cases he
  · intro hlam
    exact forward_eq_error_cases.mpr (.inr ⟨hphi, .inl ((LobeTable.select_eq_error_iff _).mpr ⟨hlam, rfl⟩)⟩)

/-- Beyond the seam a point is drawn if its auxiliary angle settles, and takes over the failure if not. -/
theorem forward_beyond_seam (hphi : Within (-halfPi) halfPi phi)
    (hlam : Within (g.sheet (Hemisphere.of phi)).geographic.west
      (g.sheet (Hemisphere.of phi)).geographic.east lam) (hcap : g.seam.latitude < abs phi) :
    ((∃ place, g.forward lam phi = .ok place) ↔ ∃ theta, g.mollweide.auxiliaryAngle phi = .ok theta) ∧
      ∀ cause, g.mollweide.auxiliaryAngle phi = .error cause → g.forward lam phi =
        .error (.inLobe (Hemisphere.of phi) ((g.sheet (Hemisphere.of phi)).geographic.owner lam) cause) := by
  have hpassed : ∀ cause, g.mollweide.auxiliaryAngle phi = .error cause → g.forward lam phi =
      .error (.inLobe (Hemisphere.of phi) ((g.sheet (Hemisphere.of phi)).geographic.owner lam) cause) :=
    fun cause hcause => (forward_eq_error_iff_of_within hphi hlam).mpr ⟨hcap, cause, hcause, rfl⟩
  refine ⟨⟨?_, ?_⟩, hpassed⟩
  · rintro ⟨place, hplace⟩
    cases hangle : g.mollweide.auxiliaryAngle phi with
    | ok theta => exact ⟨theta, rfl⟩
    | error cause =>
      rw [hpassed cause hangle] at hplace
      cases hplace
  · rintro ⟨theta, htheta⟩
    cases h : g.forward lam phi with
    | ok place => exact ⟨place, rfl⟩
    | error e =>
      obtain ⟨-, cause, hcause, -⟩ := (forward_eq_error_iff_of_within hphi hlam).mp h
      rw [htheta] at hcause
      cases hcause

end

section
variable {c : Circular} {north south : LobeTable (Double c)} {latitude : Double c}
  {b : Mollweide.Budget (Double c)} {g : Homolosine (Double c)}

/-- No latitude of the globe is on neither side of the seam: it is a number, and so is the seam's. -/
theorem seam_lt_abs_iff {phi : Double c} (hbuild : build north south latitude (.newton b) = .ok g)
    (hphi : Within (-halfPi) halfPi phi) : g.seam.latitude < abs phi ↔ ¬ abs phi ≤ latitude := by
  obtain ⟨_, _, _, hseam, -, -, rfl⟩ := parts_of_build hbuild
  obtain ⟨hlatitude, -⟩ := Seam.calibrate_eq_ok hseam
  rw [Seam.latitude_of_calibrate hseam]
  constructor
  · intro hlt hle
    exact LawfulOrder.not_lt_of_le hle hlt
  · intro hnot
    by_contra hlt
    exact hnot (LawfulOrder.le_of_not_lt (LawfulOrder.placed_right hlatitude.1)
      (Double.placed_abs.mpr (LawfulOrder.placed_right hphi.1)) hlt)

/-- A map with any cuts, seam and budget refuses a point for its latitude first, then for its longitude. Past both,
up to the seam every point is drawn, and beyond it those whose auxiliary angle settles; where it does not, the
failure is passed on with its own text and details, the hemisphere and the lobe behind them. -/
theorem forward_refusals (hbuild : build north south latitude (.newton b) = .ok g) (lam phi : Double c) :
    let t := (Hemisphere.of phi).pick north south
    (g.forward lam phi = .error (.offGlobe lam phi) ↔ ¬ Within (-halfPi) halfPi phi) ∧
    (Within (-halfPi) halfPi phi →
      (g.forward lam phi = .error (.outsideTable t.name lam t.west t.east) ↔ ¬ Within t.west t.east lam) ∧
      (Within t.west t.east lam →
        (abs phi ≤ latitude → ∃ place, g.forward lam phi = .ok place) ∧
        (¬ abs phi ≤ latitude →
          ((∃ place, g.forward lam phi = .ok place) ↔ ∃ theta, Mollweide.newtonAngle b phi = .ok theta) ∧
          ∀ e, Mollweide.newtonAngle b phi = .error e → ∃ lobe, t.select lam = .ok lobe ∧
            g.forward lam phi = .error (.inLobe (Hemisphere.of phi) lobe e) ∧
            (Failure.inLobe (Hemisphere.of phi) lobe e).kind = .convergence ∧
            Failure.report (.inLobe (Hemisphere.of phi) lobe e) = ⟨Failure.message e, Failure.context e ++
              [("hemisphere", .text (Hemisphere.of phi).name), ("lobe", .whole lobe)]⟩))) := by
  intro t
  have ht : (g.sheet (Hemisphere.of phi)).geographic = t := (tables_of_build hbuild).1 _
  refine ⟨forward_eq_offGlobe_iff, fun hphi => ⟨forward_eq_outsideTable_iff hphi ht, fun hlam => ?_⟩⟩
  clear_value t
  subst ht
  constructor
  · intro hband
    rw [← (tables_of_build hbuild).2] at hband
    exact forward_of_within hphi (LawfulOrder.not_lt_of_le hband) hlam
  · intro hbeyond
    have hcap := (seam_lt_abs_iff hbuild hphi).mpr hbeyond
    obtain ⟨hdrawn, hpassed⟩ := forward_beyond_seam hphi hlam hcap
    rw [mollweide_of_build hbuild] at hdrawn hpassed
    refine ⟨hdrawn, fun e he => ?_⟩
    obtain ⟨estimate, rfl⟩ := Mollweide.newtonAngle_eq_error hphi he
    exact ⟨_, LobeTable.select_of_within _ hlam, hpassed _ he, rfl, Failure.report_inLobe_unsettled _ _ _ _ _⟩

/-- One iteration is enough for a seam on the equator, and too little for a latitude beside it. -/
theorem forward_refusals_one_iteration :
    ∃ (north south : LobeTable (Double .slight)) (g : Homolosine (Double .slight)),
    build north south 0.0 (.newton ⟨1, 1e-12, 1e-15⟩) = .ok g ∧
      (∃ place, g.forward 0.0 0.0 = .ok place) ∧
      ∃ lobe e, north.select 0.0 = .ok lobe ∧ e.kind = .convergence ∧
        g.forward 0.0 1e-9 = .error (.inLobe .north lobe e) := by
  obtain ⟨g, hg⟩ := exists_of_isOk (r := do
    build (← LobeTable.north) (← LobeTable.south) (0.0 : Double .slight) (.newton ⟨1, 1e-12, 1e-15⟩))
    (by decide +kernel)
  obtain ⟨north, hn, hg⟩ := bind_eq_ok_iff.mp hg
  obtain ⟨south, -, hbuild⟩ := bind_eq_ok_iff.mp hg
  have hspans := LobeTable.spans_of_ofWholeTurn (LobeTable.ofWholeTurn_of_usual (.inl hn))
  have hlam : Within north.west north.east 0.0 := (LobeTable.within_iff_of_spans hspans).mpr (by decide +kernel)
  have hequator := (forward_refusals hbuild 0.0 0.0).2 (by decide +kernel)
  have hbeside := (forward_refusals hbuild 0.0 1e-9).2 (by decide +kernel)
  refine ⟨north, south, g, hbuild, (hequator.2 hlam).1 (by decide +kernel), ?_⟩
  have hshort : (Mollweide.newtonAngle ⟨1, 1e-12, 1e-15⟩ (1e-9 : Double .slight)).isOk = false := by decide +kernel
  cases hangle : Mollweide.newtonAngle ⟨1, 1e-12, 1e-15⟩ (1e-9 : Double .slight) with
  | ok theta =>
    rw [hangle] at hshort
    cases hshort
  | error e =>
    obtain ⟨lobe, hlobe, hforward, hkind, -⟩ := ((hbeside.2 hlam).2 (by decide +kernel)).2 e hangle
    exact ⟨lobe, e, hlobe, hkind, hforward⟩

end

end Homolosine
end GoodeMap
