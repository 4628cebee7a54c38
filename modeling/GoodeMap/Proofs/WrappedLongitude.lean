import GoodeMap.Grid
import GoodeMap.WorldMap
import GoodeMap.Proofs.DoubleLongitude
import GoodeMap.Proofs.DoubleSign
import GoodeMap.Proofs.Turn

/-! Wrapped longitudes. Whole turns make no difference except at the two ends of the principal range, and an array
is wrapped as its members are. -/
namespace GoodeMap
open Scalar

namespace Longitude
variable {lon : ℝ}

def AtHalfTurn (lon : ℝ) : Prop := ∃ j : ℤ, lon = (2 * j + 1) * Real.pi

theorem wrap_lt (lon : ℝ) : wrap lon < pi := by
  have hhigh := Int.sub_floor_div_mul_lt (lon + Real.pi) Real.two_pi_pos
  rw [wrap_real, pi_real]
  linarith

theorem normalize_of_within (h : Within (-pi) pi lon) : normalize lon = lon := if_pos h

theorem normalize_lt_of_not_within (h : ¬ Within (-pi) pi lon) : normalize lon < pi := by
  rw [normalize, if_neg h]
  exact wrap_lt lon

theorem normalize_normalize (lon : ℝ) : normalize (normalize lon) = normalize lon :=
  normalize_of_within (within_normalize lon)

/-- Off the half turns a longitude stays clear of both ends. -/
theorem abs_normalize_lt (h : ¬ AtHalfTurn lon) : |normalize lon| < Real.pi := by
  obtain ⟨k, hk⟩ := (congruent_normalize lon).symm
  have hle : |normalize lon| ≤ Real.pi := abs_le.mpr (within_normalize lon)
  refine lt_of_le_of_ne hle fun hends => h ?_
  rcases (abs_eq Real.pi_pos.le).mp hends with heast | hwest
  · refine ⟨k, ?_⟩
    rw [hk, heast]
    ring
  · refine ⟨k - 1, ?_⟩
    rw [hk, hwest]
    push_cast
    ring

theorem normalize_add_turns (h : ¬ AtHalfTurn lon) (k : ℤ) :
    normalize (lon + 2 * Real.pi * k) = normalize lon := by
  have hturns : Congruent (lon + 2 * Real.pi * k) lon := ⟨k, rfl⟩
  have hboth := (congruent_normalize (lon + 2 * Real.pi * k)).trans
    (hturns.trans (congruent_normalize lon).symm)
  exact hboth.eq_of_abs_lt (within_normalize _) (abs_normalize_lt h)

theorem normalizeEntry_real (lon : ℝ) : normalizeEntry lon = normalize lon := by
  unfold normalizeEntry normalize
  by_cases h : Within (-pi) pi lon
  · have hle : |lon| ≤ Real.pi := abs_le.mpr h
    rw [if_pos h]
    exact if_neg (not_lt.mpr hle)
  · have hlt : Real.pi < |lon| := not_le.mp (mt abs_le.mp h)
    rw [if_neg h]
    exact if_pos hlt

section
open Double
variable {c : Binary64.Circular} {x : Double c}

/-- There is one double only that is no number. -/
theorem eq_undefined (h : ¬ x ≤ x) : x = undefined := by
  have hx : view x = .notANumber := not_not.mp (mt placed_iff.mpr h)
  have hundefined : view (undefined : Double c) = .notANumber :=
    not_not.mp (mt placed_iff.mpr not_placed_undefined)
  exact eq_of_view (hx.trans hundefined.symm)

theorem normalize_of_not_finite (h : ¬ isFinite x = true) : normalize x = undefined :=
  eq_undefined (mt placed_normalize_iff.mp h)

/-- The two guards differ for what is no number, and that comes out the same. -/
theorem normalizeEntry_double (x : Double c) : normalizeEntry x = normalize x := by
  have hpi : (pi : Double .native) ≤ pi := by decide +kernel
  by_cases hwithin : Within (-pi) pi x
  · have hle : Scalar.abs x ≤ pi := abs_le_iff.mpr hwithin
    rw [normalizeEntry, normalize, if_pos hwithin, if_neg (LawfulOrder.not_lt_of_le hle)]
  · by_cases hplaced : x ≤ x
    · have hlt : pi < Scalar.abs x := by
        by_contra hle
        exact hwithin (abs_le_iff.mp (LawfulOrder.le_of_not_lt hpi (placed_abs.mpr hplaced) hle))
      rw [normalizeEntry, normalize, if_neg hwithin, if_pos hlt]
    · have hnot : ¬ pi < Scalar.abs x := fun h =>
        hplaced (placed_abs.mp (LawfulOrder.placed_right (LawfulOrder.le_of_lt h)))
      have hinfinite : ¬ isFinite x = true := fun h => hplaced (placed_of_isFinite h)
      rw [normalizeEntry, if_neg hnot, normalize_of_not_finite hinfinite]
      exact eq_undefined hplaced

end

end Longitude

/-- Every map takes whole turns off before it projects. -/
theorem WorldMap.project_add_turns {m : Type → Type} [Monad m] {w : WorldMap m ℝ} {lon : ℝ}
    (h : ¬ Longitude.AtHalfTurn (lon - w.parameters.centralMeridian)) (lat : ℝ) (k : ℤ) :
    w.project lat (lon + 2 * Real.pi * k) = w.project lat lon := by
  rw [project, project, add_sub_right_comm, Longitude.normalize_add_turns h]

theorem Grid.getElem?_map {α β : Type} (f : α → β) (g : Grid α) (i : Nat) :
    (g.map f).entries[i]? = g.entries[i]?.map f := List.getElem?_map

namespace Longitude

/-- Wrapping of longitudes: where it leads and what it keeps, that whole turns make no difference to it or to a map
except at the half turns, and that an array is wrapped member by member as single longitudes are, those without a
value included. -/
theorem normalize_answers {c : Binary64.Circular} :
    (∀ lon : ℝ, Within (-pi) pi (normalize lon) ∧ Congruent (normalize lon) lon ∧
      (Within (-pi) pi lon → normalize lon = lon) ∧ normalize (normalize lon) = normalize lon ∧
        (¬ Within (-pi) pi lon → normalize lon < pi)) ∧
    (∀ (lon : ℝ) (k : ℤ), ¬ AtHalfTurn lon → normalize (lon + 2 * Real.pi * k) = normalize lon) ∧
    (∀ (m : Type → Type) [Monad m] (w : WorldMap m ℝ) (lat lon : ℝ) (k : ℤ),
      ¬ AtHalfTurn (lon - w.parameters.centralMeridian) →
        w.project lat (lon + 2 * Real.pi * k) = w.project lat lon) ∧
    (∀ (g : Grid (Double c)) (i : Nat), (g.map normalizeEntry).shape = g.shape ∧
      (g.map normalizeEntry).entries[i]? = g.entries[i]?.map normalize) ∧
    (∀ (g : Grid ℝ) (i : Nat), (g.map normalizeEntry).shape = g.shape ∧
      (g.map normalizeEntry).entries[i]? = g.entries[i]?.map normalize) ∧
    ∀ x : Double c, ¬ isFinite x = true → normalize x = undefined ∧ normalizeEntry x = undefined := by
  refine ⟨fun lon => ⟨within_normalize lon, congruent_normalize lon, normalize_of_within, normalize_normalize lon,
    normalize_lt_of_not_within⟩, fun lon k h => normalize_add_turns h k,
    fun m _ w lat lon k h => w.project_add_turns h lat k, fun g i => ⟨rfl, ?_⟩, fun g i => ⟨rfl, ?_⟩, fun x h => ?_⟩
  · rw [Grid.getElem?_map, funext normalizeEntry_double]
  · rw [Grid.getElem?_map, funext normalizeEntry_real]
  · exact ⟨normalize_of_not_finite h, (normalizeEntry_double x).trans (normalize_of_not_finite h)⟩

theorem not_atHalfTurn_zero : ¬ AtHalfTurn 0 := by
  rintro ⟨j, hj⟩
  have hodd : (2 * j + 1 : ℝ) = 0 := (mul_eq_zero.mp hj.symm).resolve_right Real.pi_ne_zero
  have hint : 2 * j + 1 = 0 := by exact_mod_cast hodd
  omega

/-- A whole turn from the prime meridian, and a longitude without a value. -/
theorem normalize_answers_zero : normalize (0 + 2 * Real.pi * (1 : ℤ)) = normalize 0 ∧
    (∃ w : WorldMap (Except (Failure ℝ)) ℝ, w.family = .sinusoidal ∧
      w.project 0 (0 + 2 * Real.pi * (1 : ℤ)) = w.project 0 0) ∧
    ¬ isFinite (1.0 / 0.0 : Double .native) = true ∧ normalize (1.0 / 0.0 : Double .native) = undefined := by
  obtain ⟨-, hturns, hproject, -, -, hvalueless⟩ := normalize_answers (c := .native)
  have hmeridian : ¬ AtHalfTurn (0 - (Parameters.sphere (1 : ℝ)).centralMeridian) := by
    have hzero : (0 : ℝ) - (Parameters.sphere (1 : ℝ)).centralMeridian = 0 := by
      change (0 : ℝ) - 0.0 = 0
      norm_num
    rw [hzero]
    exact not_atHalfTurn_zero
  have hinfinite : ¬ isFinite (1.0 / 0.0 : Double .native) = true := by decide +kernel
  refine ⟨hturns 0 1 not_atHalfTurn_zero, ⟨⟨.sinusoidal, .sphere 1, .sinusoidal⟩, rfl, ?_⟩, hinfinite,
    (hvalueless _ hinfinite).1⟩
  exact hproject _ _ 0 0 1 hmeridian

end Longitude
end GoodeMap
