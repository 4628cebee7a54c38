import GoodeMap.Proofs.HomolosineAnswers
import GoodeMap.Proofs.WorldRoundTrip

/-! Values that are no number, on their way through a map in real-world units. The interrupted map stops
them; a plain one lets a longitude or a planar x pass, and the radius and the false origin keep it. -/
namespace GoodeMap
open Scalar
open Binary64 (Circular Below)

def Guarded {α : Type} [Scalar α] (call : α → α → Except (Failure α) (α × α)) (a b : α) : Prop :=
  Definite (call a b) ∧ (¬ (a ≤ a ∧ b ≤ b) → Refused (call a b))

theorem Refused.guarded {α : Type} [Scalar α] {call : α → α → Except (Failure α) (α × α)} {a b : α}
    (h : Refused (call a b)) : Guarded call a b :=
  ⟨h.definite, fun _ => h⟩

variable {c : Circular}

namespace Double
variable {u v r : Double c}

theorem placed_scale_iff (hr : isFinite r = true) (hpos : 0.0 < r) (hv : isFinite v = true) :
    r * u + v ≤ r * u + v ↔ u ≤ u := by
  constructor
  · intro h
    exact (placed_of_mul (placed_of_add h).1).2
  · intro hu
    exact (placed_add_and_sub (placed_mul hr hu (.inr hpos)) (placed_of_isFinite hv) (.inr hv)).1

theorem placed_unscale_iff (hr : isFinite r = true) (hpos : 0.0 < r) (hv : isFinite v = true) :
    (u - v) / r ≤ (u - v) / r ↔ u ≤ u := by
  constructor
  · intro h
    exact (placed_of_sub (placed_of_div h).1).1
  · intro hu
    exact placed_div (placed_add_and_sub hu (placed_of_isFinite hv) (.inr hv)).2 hr hpos

end Double

structure Parameters.Accepted (p : Parameters (Double c)) : Prop where
  radius_finite : isFinite p.radius = true
  radius_pos : 0.0 < p.radius
  meridian_finite : isFinite p.centralMeridian = true
  easting_finite : isFinite p.falseEasting = true
  northing_finite : isFinite p.falseNorthing = true

theorem Parameters.accepted_of_check {given p : Parameters (Double c)} (h : given.check = .ok p) :
    p.Accepted := by
  unfold check at h
  split_ifs at h with hfinite haxes horder
  cases h
  simp only [values, List.forall_mem_cons] at hfinite
  obtain ⟨hmajor, hminor, hmeridian, heasting, hnorthing, -⟩ := hfinite
  refine ⟨hmajor, ?_, hmeridian, heasting, hnorthing⟩
  have hzero : (0.0 : Double .native) ≤ 0.0 := by decide +kernel
  by_contra hpos
  exact haxes (.inl (LawfulOrder.le_of_not_lt hzero (Double.placed_of_isFinite hmajor) hpos))

namespace WorldMap
variable {w : WorldMap (Except (Failure (Double c))) (Double c)} {lat lon x y : Double c}

def turned (w : WorldMap (Except (Failure (Double c))) (Double c)) (lon : Double c) : Double c :=
  Longitude.normalize (lon - w.parameters.centralMeridian)

theorem project_of_error {e : Failure (Double c)} (h : w.core.forward (w.turned lon) lat = .error e) :
    w.project lat lon = .error e := by
  rw [turned] at h
  rw [project, h]
  rfl

section
variable (hp : w.parameters.Accepted)
include hp

theorem definite_project_iff :
    Definite (w.project lat lon) ↔ Definite (w.core.forward (w.turned lon) lat) := by
  cases hforward : w.core.forward (w.turned lon) lat with
  | error e => rw [project_of_error hforward]
  | ok place =>
    rw [project_of_forward hforward]
    exact and_congr (Double.placed_scale_iff hp.radius_finite hp.radius_pos hp.easting_finite)
      (Double.placed_scale_iff hp.radius_finite hp.radius_pos hp.northing_finite)

theorem placed_place_iff : ((x - w.parameters.falseEasting) / w.radius ≤
    (x - w.parameters.falseEasting) / w.radius ↔ x ≤ x) ∧
    ((y - w.parameters.falseNorthing) / w.radius ≤ (y - w.parameters.falseNorthing) / w.radius ↔ y ≤ y) :=
  ⟨Double.placed_unscale_iff hp.radius_finite hp.radius_pos hp.easting_finite,
    Double.placed_unscale_iff hp.radius_finite hp.radius_pos hp.northing_finite⟩

end

theorem refused_project_iff :
    Refused (w.project lat lon) ↔ Refused (w.core.forward (w.turned lon) lat) := by
  cases hforward : w.core.forward (w.turned lon) lat with
  | error e => rw [project_of_error hforward]
  | ok place =>
    rw [project_of_forward hforward]
    rfl

theorem guarded_project_of_plain (hcore : w.core.Plain) (hp : w.parameters.Accepted) :
    Guarded w.project lat lon ↔ (Within (-halfPi) halfPi lat →
      isFinite (lon - w.parameters.centralMeridian) = true ∨
        lon ≤ lon ∧ ∃ e, w.project lat lon = .error e) := by
  rw [Guarded, definite_project_iff hp, refused_project_iff]
  constructor
  · rintro ⟨hdefinite, hrefused⟩ hlat
    cases hforward : w.core.forward (w.turned lon) lat with
    | error e =>
      refine .inr ⟨?_, e, project_of_error hforward⟩
      -- On the globe a projection fails only to settle, and that refuses no argument.
      by_contra hlon
      rw [hforward] at hrefused
      cases (hcore.forward_error hlat hforward).symm.trans (hrefused fun hboth => hlon hboth.2)
    | ok place =>
      rw [hforward] at hdefinite
      exact .inl (Double.placed_normalize_iff.mp (hcore.forward_ok hforward hdefinite.1))
  · intro h
    by_cases hlat : Within (-halfPi) halfPi lat
    · have hplaced := LawfulOrder.placed_right hlat.1
      rcases h hlat with hfinite | ⟨hlon, e, he⟩
      · have hlon := (Double.placed_of_sub (Double.placed_of_isFinite hfinite)).1
        exact ⟨hcore.forward_definite hlat (Double.below_normalize_longitude hfinite),
          fun hn => absurd ⟨hplaced, hlon⟩ hn⟩
      · refine ⟨?_, fun hn => absurd ⟨hplaced, hlon⟩ hn⟩
        cases hforward : w.core.forward (w.turned lon) lat with
        | error e' => exact definite_of_convergence (hcore.forward_error hlat hforward)
        | ok place => cases (project_of_forward hforward).symm.trans he
    · have hrefused : Refused (w.core.forward (w.turned lon) lat) := hcore.forward_refused hlat
      exact ⟨hrefused.definite, fun _ => hrefused⟩

theorem unproject_eq (hf : w.family ≠ .reference) : w.unproject x y = w.locate x y := by
  unfold unproject
  split
  · contradiction
  · rfl

section
variable (hf : w.family ≠ .reference)
include hf

theorem unproject_of_error {e : Failure (Double c)}
    (h : w.core.inverse ((x - w.parameters.falseEasting) / w.radius)
      ((y - w.parameters.falseNorthing) / w.radius) = .error e) : w.unproject x y = .error e := by
  rw [unproject_eq hf, locate, h]
  rfl

theorem unproject_of_ok {lam phi : Double c}
    (h : w.core.inverse ((x - w.parameters.falseEasting) / w.radius)
      ((y - w.parameters.falseNorthing) / w.radius) = .ok (lam, phi)) :
    w.unproject x y = .ok (phi, Longitude.normalize (lam + w.parameters.centralMeridian)) := by
  rw [unproject_eq hf, locate, h]
  rfl

theorem guarded_unproject_of_plain (hcore : w.core.Plain) (hp : w.parameters.Accepted) :
    Guarded w.unproject x y ↔ ∀ lam phi,
      w.core.inverse ((x - w.parameters.falseEasting) / w.radius)
        ((y - w.parameters.falseNorthing) / w.radius) = .ok (lam, phi) →
      x ≤ x ∧ y ≤ y ∧ isFinite (lam + w.parameters.centralMeridian) = true := by
  constructor
  · rintro ⟨hdefinite, hrefused⟩ lam phi h
    rw [unproject_of_ok hf h] at hdefinite hrefused
    obtain ⟨hx, hy⟩ := not_not.mp hrefused
    exact ⟨hx, hy, Double.placed_normalize_iff.mp hdefinite.2⟩
  · intro hall
    cases hinverse : w.core.inverse ((x - w.parameters.falseEasting) / w.radius)
        ((y - w.parameters.falseNorthing) / w.radius) with
    | error e =>
      refine Refused.guarded ?_
      rw [unproject_of_error hf hinverse]
      exact hcore.inverse_error hinverse
    | ok point =>
      obtain ⟨hx, hy, hfinite⟩ := hall _ _ hinverse
      have hphi := hcore.inverse_ok hinverse ((placed_place_iff (x := x) hp).2.mpr hy)
      rw [Guarded, unproject_of_ok hf hinverse]
      exact ⟨⟨hphi, Double.placed_normalize_iff.mpr hfinite⟩, fun hn => absurd ⟨hx, hy⟩ hn⟩

end

section
variable {g : Homolosine (Double c)} (hc : c.Lawful) (hg : g.Moderate) (hcore : w.core = Core.homolosine g)
  (hp : w.parameters.Accepted)
include hc hg hcore hp

theorem guarded_project_of_homolosine : Guarded w.project lat lon := by
  have hforward : w.core.forward = g.forward := congrArg Core.forward hcore
  rw [Guarded, definite_project_iff hp, refused_project_iff, hforward]
  refine ⟨Homolosine.forward_definite hc hg _ _, fun hn => Homolosine.forward_refused fun hboth => hn ?_⟩
  have hfinite := Double.placed_normalize_iff.mp hboth.1
  exact ⟨LawfulOrder.placed_right hboth.2.1, (Double.placed_of_sub (Double.placed_of_isFinite hfinite)).1⟩

theorem guarded_unproject_of_homolosine (hf : w.family ≠ .reference) : Guarded w.unproject x y := by
  have hinverse : w.core.inverse = g.inverse := congrArg Core.inverse hcore
  cases hplace : w.core.inverse ((x - w.parameters.falseEasting) / w.radius)
      ((y - w.parameters.falseNorthing) / w.radius) with
  | error e =>
    refine Refused.guarded ?_
    rw [unproject_of_error hf hplace]
    rw [hinverse] at hplace
    exact Homolosine.inverse_error hplace
  | ok point =>
    rw [Guarded, unproject_of_ok hf hplace]
    rw [hinverse] at hplace
    obtain ⟨hx, hy, hlam, hphi⟩ := Homolosine.inverse_ok hc hg hplace
    have hfinite := Double.isFinite_add_of_below (hlam.mono (by omega)) hp.meridian_finite
    exact ⟨⟨hphi, Double.placed_normalize_iff.mpr hfinite⟩,
      fun hn => absurd ⟨(placed_place_iff (y := y) hp).1.mp hx, (placed_place_iff (x := x) hp).2.mp hy⟩ hn⟩

end

theorem below_stepTolerance :
    Below 900 (Double.view (Mollweide.Budget.standard : Mollweide.Budget (Double c)).stepTolerance) := by
  have hnative : Below 900 (Double.view (Constants.stepTolerance : Double .native)) := by decide +kernel
  exact hnative

/-- The interrupted map gives numbers or refuses in both directions. A plain map does so unless a latitude
on the globe comes with a longitude whose distance from the central meridian is not finite, or a place that
has a row on the map comes with an argument that is no number or gets a longitude that is not finite. -/
theorem guarded_iff (hc : c.Lawful) (reference : Core (Except (Failure (Double c))) (Double c)) {f : Family}
    (hf : f ≠ .reference) {given p : Parameters (Double c)} (hp : given.check = .ok p)
    {core : Core (Except (Failure (Double c))) (Double c)} (hcore : Core.ofFamily reference f = .ok core) :
    (∀ lat lon, Guarded (project ⟨f, p, core⟩) lat lon ↔ f = .homolosine ∨
      (Within (-halfPi) halfPi lat → isFinite (lon - p.centralMeridian) = true ∨
        lon ≤ lon ∧ ∃ e : Failure (Double c), project ⟨f, p, core⟩ lat lon = .error e)) ∧
    ∀ x y, Guarded (unproject ⟨f, p, core⟩) x y ↔ f = .homolosine ∨ ∀ lam phi,
      core.inverse ((x - p.falseEasting) / p.radius) ((y - p.falseNorthing) / p.radius) = .ok (lam, phi) →
        x ≤ x ∧ y ≤ y ∧ isFinite (lam + p.centralMeridian) = true := by
  have haccepted := Parameters.accepted_of_check hp
  have hsettled := Mollweide.newton_settled hc (below_stepTolerance (c := c))
  cases f with
  | sinusoidal =>
    cases hcore
    have hplain := Sinusoidal.plain hc
    simp only [reduceCtorEq, false_or]
    exact ⟨fun lat lon => guarded_project_of_plain hplain haccepted,
      fun x y => guarded_unproject_of_plain hf hplain haccepted⟩
  | mollweide =>
    cases hcore
    have hplain := Mollweide.plain hc hsettled
    simp only [reduceCtorEq, false_or]
    exact ⟨fun lat lon => guarded_project_of_plain hplain haccepted,
      fun x y => guarded_unproject_of_plain hf hplain haccepted⟩
  | homolosine =>
    obtain ⟨g, hg, hcore⟩ := bind_eq_ok_iff.mp hcore
    cases hcore
    have hmoderate := Homolosine.moderate_of_usual hc hsettled hg
    exact ⟨fun lat lon => iff_of_true (guarded_project_of_homolosine hc hmoderate rfl haccepted) (.inl rfl),
      fun x y => iff_of_true (guarded_unproject_of_homolosine hc hmoderate rfl haccepted hf) (.inl rfl)⟩
  | reference => exact absurd rfl hf

example (f : Family) : (Core.ofFamily Core.sinusoidal f : Except _ (Core _ (Double .level))).isOk = true := by
  cases f <;> decide +kernel

theorem check_sphere : (Parameters.sphere 1.0 : Parameters (Double c)).check = .ok (Parameters.sphere 1.0) := by
  have hfinite : ∀ v ∈ (Parameters.sphere 1.0 : Parameters (Double .native)).values, isFinite v = true := by
    decide +kernel
  have haxes : ¬ ((1.0 : Double .native) ≤ 0.0 ∨ (1.0 : Double .native) ≤ 0.0) ∧
      ¬ (1.0 : Double .native) < 1.0 := by decide +kernel
  exact (if_neg (not_not.mpr hfinite)).trans ((if_neg haxes.1).trans (if_neg haxes.2))

def unitSinusoidal (c : Circular) : WorldMap (Except (Failure (Double c))) (Double c) :=
  ⟨.sinusoidal, .sphere 1.0, Core.sinusoidal⟩

/-- Zero is turned over both ways; a longitude or a planar x that is no number goes through. -/
theorem guarded_unitSinusoidal :
    (Guarded (unitSinusoidal .level).project 0.0 0.0 ∧ ¬ Guarded (unitSinusoidal .level).project 0.0 undefined) ∧
      Guarded (unitSinusoidal .level).unproject 0.0 0.0 ∧
        ¬ Guarded (unitSinusoidal .level).unproject undefined 0.0 := by
  obtain ⟨hproject, hunproject⟩ := guarded_iff Double.level_lawful Core.sinusoidal
    (f := .sinusoidal) (by decide) check_sphere rfl
  have hlat : Within (-halfPi) halfPi (0.0 : Double .level) := by decide +kernel
  have hbadLongitude : ¬ isFinite ((undefined : Double .level) - 0.0) = true := by decide +kernel
  have hrow : Scalar.abs (((0.0 : Double .level) - 0.0) / 1.0) < halfPi := by decide +kernel
  refine ⟨⟨(hproject _ _).mpr (.inr fun _ => .inl (by decide +kernel)), fun h => ?_⟩,
    (hunproject _ _).mpr (.inr fun lam phi hinverse => ?_), fun h => ?_⟩
  · rcases (hproject _ _).mp h with h | h
    · cases h
    · exact (h hlat).elim hbadLongitude fun h => Double.not_placed_undefined h.1
  · cases (Sinusoidal.inverse_of_lt hrow).symm.trans hinverse
    decide +kernel
  · rcases (hunproject _ _).mp h with h | h
    · cases h
    · exact Double.not_placed_undefined (h _ _ (Sinusoidal.inverse_of_lt hrow)).1

theorem project_undefined : ∃ x y, (unitSinusoidal .native).project 0.0 undefined = .ok (x, y) ∧ ¬ x ≤ x := by
  have hlat : Within (-halfPi) halfPi (0.0 : Double .native) := by decide +kernel
  have hundefined : ¬ isFinite ((undefined : Double .native) - 0.0) = true := by decide +kernel
  refine ⟨_, _, project_of_forward (Sinusoidal.forward_of_within hlat), fun hx => ?_⟩
  have hturned := (Double.placed_of_mul (Double.placed_of_mul (Double.placed_of_add hx).1).2).1
  exact hundefined (Double.placed_normalize_iff.mp hturned)

end WorldMap
end GoodeMap
