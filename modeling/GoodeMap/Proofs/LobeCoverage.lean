import GoodeMap.Proofs.Coverage
import GoodeMap.Proofs.SamplePoints
import GoodeMap.Proofs.Traversal

/-! Selection by bisection against comparison with every lobe. The two agree at every coordinate, so the check
that compares them finds nothing on an accepted map, for every count of samples that it can take. -/
namespace GoodeMap
open Scalar

namespace LobeTable
variable {α : Type} [Scalar α]

theorem finite_left (t : LobeTable α) (i : t.Lobe) : isFinite (t.left i) = true :=
  t.finite _ (Array.mem_append_left _ (Array.getElem_mem _))

theorem finite_right (t : LobeTable α) (i : t.Lobe) : isFinite (t.right i) = true :=
  t.finite _ (Array.mem_append_left _ (Array.getElem_mem _))

variable [LawfulOrder α] (t : LobeTable α)

theorem owners_eq_singleton {x : α} {i : t.Lobe} (h : t.Owns x i) : t.owners x = [i.val] := by
  have hiff (j : t.Lobe) : decide (t.Owns x j) = decide (j = i) :=
    decide_eq_decide.mpr ⟨fun hj => t.owns_unique hj h, fun hj => hj ▸ h⟩
  simp only [owners, hiff]
  rw [List.filter_eq, List.count_eq_one_of_mem (List.nodup_finRange _) (List.mem_finRange i)]
  rfl

theorem within_of_mem {x : α} (h : x ∈ t.boundaries) : Within t.west t.east x := by
  obtain ⟨i, hi, rfl⟩ := Array.mem_iff_getElem.mp h
  have hsize := t.boundaries_size
  refine ⟨t.boundary_le _ hi (Nat.zero_le i), t.boundary_le hi _ ?_⟩
  simp only
  omega

end LobeTable

namespace Checker
variable {α : Type} [Scalar α] [LawfulOrder α]

theorem misassigned_of_within (h : Hemisphere) {t : LobeTable α} {x : α} (hx : Within t.west t.east x) :
    misassigned? h t x = .ok none := by
  obtain ⟨i, hselect, howns⟩ := t.exists_select hx
  simp only [misassigned?, hselect, t.owners_eq_singleton howns]
  exact congrArg Except.ok (if_pos rfl)

/-- The check finds nothing where all its samples lie in the tables' ranges. -/
theorem lobeCoverage_of_within (k : Checker α) {limits : ArrayLimits α} {count : ℤ} {n : ℕ}
    (hn : limits.pointCount count = .ok n)
    (h : ∀ hemisphere, ∀ x ∈ coverageSamples (k.core.sheet hemisphere).geographic n,
      Within (k.core.sheet hemisphere).geographic.west (k.core.sheet hemisphere).geographic.east x) :
    k.lobeCoverage limits count = .ok (.lobeCoverage []) := by
  have hsheet (hemisphere : Hemisphere) :=
    mapM_eq_ok_map fun x hx => misassigned_of_within hemisphere (h hemisphere x hx)
  simp only [lobeCoverage, hn, hsheet, bind, Except.bind, List.mapM_cons, List.mapM_nil, pure, Except.pure]
  simp

end Checker

namespace Double
open Binary64
variable {c : Circular}

theorem view_pi : view (pi : Double c) = .finite .positive 7074237752028440 (-51) (by norm_num) :=
  (rfl : (Float.toModel 3.141592653589793).unpack = .finite .positive 7074237752028440 (-51) (by norm_num))

theorem pi_value : 3 ≤ (pi : Double c).value ∧ (pi : Double c).value ≤ 3.2 := by
  rw [value, view_pi, Binary64.value]
  norm_num [Float.Model.UnpackedFloat.Sign.apply]

theorem spanTolerance_value : Scalar.isFinite (Constants.spanTolerance : Double c) = true ∧
    (Constants.spanTolerance : Double c).value ≤ 1 / 2 := by
  have hbelow : Below (-60) (view (Constants.spanTolerance : Double c)) := by
    have hnative : Below (-60) (view (Constants.spanTolerance : Double .native)) := by decide +kernel
    exact hnative
  refine ⟨isFinite_iff.mpr (hbelow.mono (by norm_num)), (le_abs_self _).trans (hbelow.abs_value_lt.le.trans ?_)⟩
  norm_num

/-- An accepted distance from the half turn, before it was rounded. -/
theorem abs_le_of_accepted {z : Double c} {q : ℚ} (hz : z.NextTo q)
    (h : ¬ Constants.spanTolerance < abs z) : |q| ≤ 3 / 5 := by
  obtain ⟨hfinite, hvalue⟩ := spanTolerance_value (c := c)
  have habs : Scalar.isFinite (abs z) = true := isFinite_iff.mpr (below_abs.mpr (isFinite_iff.mp hz.1))
  rw [lt_iff_value hfinite habs, value_abs, not_lt] at h
  have hsmall := smallest_le
  have hdistance : |q| ≤ |z.value| + |z.value - q| := by
    calc |q| = |z.value - (z.value - q)| := by rw [sub_sub_cancel]
      _ ≤ |z.value| + |z.value - q| := abs_sub _ _
  have herror := hz.abs_sub_le
  linarith

/-- An accepted table begins near one half turn and ends near the other. -/
theorem ends_of_check {t : LobeTable (Double c)} (h : t.checkGeographic Constants.spanTolerance = .ok ()) :
    -4 ≤ t.west.value ∧ 2 ≤ t.east.value ∧ t.east.value ≤ 4 := by
  obtain ⟨hwest, heast⟩ := not_or.mp (LobeTable.checkGeographic_eq_ok_iff.mp h).1
  have hpi : Below 900 (view (pi : Double c)) := below_pi.mono (by norm_num)
  have hfinite : Scalar.isFinite (pi : Double c) = true := isFinite_iff.mpr (below_pi.mono (by norm_num))
  have hwestFinite := t.finite_left ⟨0, t.meridians_pos⟩
  have heastFinite := t.finite_right ⟨t.meridians.size - 1, Nat.sub_one_lt_of_lt t.meridians_pos⟩
  have hwest' := abs_le.mp (abs_le_of_accepted (nextTo_of_isFinite (view_add t.west pi)
    (rounds_add (normal_view hwestFinite) (normal_view hfinite)) (isFinite_add_sub hwestFinite hpi).1) hwest)
  have heast' := abs_le.mp (abs_le_of_accepted (nextTo_of_isFinite (view_sub t.east pi)
    (rounds_sub (normal_view heastFinite) (normal_view hfinite)) (isFinite_add_sub heastFinite hpi).2) heast)
  obtain ⟨hlow, hhigh⟩ := pi_value (c := c)
  change -(3 / 5) ≤ t.west.value + (pi : Double c).value ∧ t.west.value + (pi : Double c).value ≤ 3 / 5 at hwest'
  change -(3 / 5) ≤ t.east.value - (pi : Double c).value ∧ t.east.value - (pi : Double c).value ≤ 3 / 5 at heast'
  refine ⟨?_, ?_, ?_⟩ <;> linarith

/-- The samples of an accepted table lie in its range. -/
theorem within_of_mem_coverageSamples {t : LobeTable (Double c)}
    (h : t.checkGeographic Constants.spanTolerance = .ok ()) {count : ℕ} (hcount : count < 2 ^ 44) {x : Double c}
    (hx : x ∈ Checker.coverageSamples t count) : Within t.west t.east x := by
  obtain ⟨hwest, heast⟩ := ends_of_check h
  rw [Checker.coverageSamples, List.mem_append, Array.mem_toList_iff, List.mem_flatMap] at hx
  rcases hx with hx | ⟨i, -, hx⟩
  · exact t.within_of_mem hx
  · obtain ⟨k, hk, rfl⟩ := List.mem_map.mp hx
    have hk' := List.mem_range.mp hk
    exact within_pointBetween (t.finite_left _) (t.finite_right _) (t.finite_left i) (t.finite_right i)
      (t.west_le_left i) (t.left_lt_right i) (t.right_le_east i) hwest heast (by omega) hcount

end Double

namespace Checker
variable {α : Type}

theorem lobeCoverage_of_error [Scalar α] (k : Checker α) {limits : ArrayLimits α} {count : ℤ} {e : Failure α}
    (h : limits.pointCount count = .error e) : k.lobeCoverage limits count = .error e := by
  rw [lobeCoverage, h]
  rfl

open Binary64 (Circular)
open Homolosine (build wholeLobe lowSeam parts_of_lowSeam exists_of_isOk)

theorem lobeCoverage_of_build {c : Circular} {north south : LobeTable (Double c)} {latitude : Double c}
    {m : Mollweide (Double c)} {g : Homolosine (Double c)} (hbuild : build north south latitude m = .ok g)
    (parameters : Parameters (Double c)) (strict logged : Bool) {limits : ArrayLimits (Double c)}
    (hlimits : limits.Roomy) (count : ℤ) :
    (⟨g, parameters, strict, logged⟩ : Checker (Double c)).lobeCoverage limits count =
      (limits.pointCount count).map fun _ => .lobeCoverage [] := by
  cases hcount : limits.pointCount count with
  | error e => exact lobeCoverage_of_error _ hcount
  | ok n =>
    refine lobeCoverage_of_within _ hcount fun hemisphere x hx => ?_
    obtain ⟨hnorth, hsouth⟩ := Homolosine.check_of_build hbuild
    have htables := (Homolosine.tables_of_build hbuild).1 hemisphere
    have hchecked : (g.sheet hemisphere).geographic.checkGeographic Constants.spanTolerance = .ok () := by
      rw [htables]
      cases hemisphere with
      | north => exact hnorth
      | south => exact hsouth
    exact Double.within_of_mem_coverageSamples hchecked (hlimits.lt_of_pointCount hcount) hx

/-- A coordinate that a table's range does not hold is refused as off the globe, and any other gets the one lobe
that owns it. So comparison finds nothing amiss on an accepted map, whatever count of samples is asked for, as
long as there is room for them. -/
theorem lobes_partition {c : Circular} :
    (∀ (t : LobeTable (Double c)) (x : Double c),
      ((∃ e, t.select x = .error e ∧ e.kind = .domain) ↔ ¬ Within t.west t.east x) ∧
        (Within t.west t.east x → ∃ i, t.select x = .ok i ∧ (∀ j, t.Owns x j ↔ j = i) ∧ t.owners x = [i.val])) ∧
    ∀ {north south : LobeTable (Double c)} {latitude : Double c} {m : Mollweide (Double c)}
      {g : Homolosine (Double c)}, build north south latitude m = .ok g →
        ∀ (limits : ArrayLimits (Double c)), limits.Roomy →
        ∀ (parameters : Parameters (Double c)) (strict logged : Bool) (count : ℤ),
          (⟨g, parameters, strict, logged⟩ : Checker (Double c)).lobeCoverage limits count =
              ((limits.pointCount count).map fun _ => .lobeCoverage []) ∧
            (0 ≤ count → count < 2 ^ 44 → ∃ f : Finding (Double c),
              (⟨g, parameters, strict, logged⟩ : Checker (Double c)).lobeCoverage limits count = .ok f ∧ f.Passes) := by
  refine ⟨fun t x => ⟨⟨?_, fun hx => ?_⟩, fun hx => ?_⟩, fun hbuild limits hlimits parameters strict logged
    count => ⟨lobeCoverage_of_build hbuild parameters strict logged hlimits count, fun h0 h => ?_⟩⟩
  · rintro ⟨e, he, -⟩ hx
    rw [LobeTable.select, if_pos hx] at he
    cases he
  · rw [LobeTable.select, if_neg hx]
    exact ⟨_, rfl, rfl⟩
  · obtain ⟨i, hselect, howns⟩ := t.exists_select hx
    exact ⟨i, hselect, fun j => ⟨fun hj => t.owns_unique hj howns, fun hj => hj ▸ howns⟩,
      t.owners_eq_singleton howns⟩
  · refine ⟨_, ?_, show Finding.Passes (.lobeCoverage []) from rfl⟩
    rw [lobeCoverage_of_build hbuild parameters strict logged hlimits count, hlimits.pointCount_of_lt h0 h]
    rfl

/-- The first cut of the southern table is in the lobe east of it, a longitude past the half turn in none; and the
usual count of samples. -/
theorem lobes_partition_lowSeam : ∃ t : LobeTable (Double .level), LobeTable.south = .ok t ∧
    (∃ i, t.select (Constants.tableRadians (-100.0)) = .ok i ∧ i.val = 1 ∧
      (∀ j, t.Owns (Constants.tableRadians (-100.0)) j ↔ j = i) ∧
      t.owners (Constants.tableRadians (-100.0)) = [1]) ∧
    (∃ e, t.select 3.5 = .error e ∧ e.kind = .domain) ∧
    ∃ g, lowSeam = .ok g ∧ ∀ parameters strict logged, ∃ f : Finding (Double .level),
      (⟨g, parameters, strict, logged⟩ : Checker (Double .level)).lobeCoverage .words samplesPerLobe = .ok f ∧
        f.Passes := by
  obtain ⟨⟨⟩, h⟩ := exists_of_isOk (r := do
    let t ← (LobeTable.south : Except _ (LobeTable (Double .level)))
    let i ← t.select (Constants.tableRadians (-100.0))
    if i.val = 1 ∧ ¬ Within t.west t.east 3.5 then .ok () else .error .emptySample) (by decide +kernel)
  obtain ⟨t, ht, h⟩ := bind_eq_ok_iff.mp h
  obtain ⟨i, hi, h⟩ := bind_eq_ok_iff.mp h
  split_ifs at h with hfirst
  obtain ⟨hrefused, -⟩ := lobes_partition.1 t 3.5
  obtain ⟨-, howned⟩ := lobes_partition.1 t (Constants.tableRadians (-100.0))
  obtain ⟨j, hj, howns, howners⟩ := howned (t.within_of_owns (t.select_eq_ok_iff.mp hi))
  obtain rfl : i = j := Except.ok.inj (hi.symm.trans hj)
  rw [hfirst.1] at howners
  obtain ⟨g, hg⟩ := exists_of_isOk (r := lowSeam) (by decide +kernel)
  obtain ⟨north, south, -, -, hbuild⟩ := parts_of_lowSeam hg
  exact ⟨t, ht, ⟨i, hi, hfirst.1, howns, howners⟩, hrefused.mpr hfirst.2, g, hg, fun parameters strict logged =>
    (lobes_partition.2 hbuild .words ArrayLimits.roomy_words parameters strict logged samplesPerLobe).2
      (by decide) (by decide)⟩

/-- A count of 2^60 samples for each lobe is refused. -/
theorem not_lobeCoverage_large : ∃ g, build wholeLobe wholeLobe 0.0 (.newton .standard) = .ok g ∧
    ∀ parameters strict logged, ¬ ∃ f : Finding (Double .level),
      (⟨g, parameters, strict, logged⟩ : Checker (Double .level)).lobeCoverage .words 0x1000000000000000 = .ok f ∧
        f.Passes := by
  obtain ⟨g, hg⟩ := exists_of_isOk (r := build wholeLobe wholeLobe 0.0 (.newton .standard)) (by decide +kernel)
  refine ⟨g, hg, fun parameters strict logged => ?_⟩
  rintro ⟨f, hf, -⟩
  rw [lobeCoverage_of_error _ (e := .arrayTooLarge) rfl] at hf
  cases hf

end Checker
end GoodeMap
