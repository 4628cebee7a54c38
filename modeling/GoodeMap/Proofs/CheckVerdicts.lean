import GoodeMap.Proofs.PointAnswers
import GoodeMap.Proofs.StrictChecks
import GoodeMap.Proofs.Traversal

/-! What the checks over sample points report. A check takes the largest of its measurements, so its verdict is one
about every sample. A measurement that is no number never passes: a largest member keeps it, and the one place where
it could be lost, the larger of two errors, has a latitude error as its second argument, which is a number. -/
namespace GoodeMap
open Scalar
open Binary64 (Circular)

namespace Scalar
variable {α : Type} [Scalar α] [LawfulOrder α] {a b t : α}

/-- The larger of two passes a bound if both do, as long as the second is a number. -/
theorem larger_le_iff (hb : b ≤ b) : larger a b ≤ t ↔ a ≤ t ∧ b ≤ t := by
  unfold larger
  split_ifs with hlt
  · have hle := LawfulOrder.le_of_lt hlt
    exact ⟨fun h => ⟨LawfulOrder.le_trans hle h, h⟩, And.right⟩
  · refine ⟨fun h => ⟨h, ?_⟩, And.left⟩
    exact LawfulOrder.le_trans (LawfulOrder.le_of_not_lt (LawfulOrder.placed_left h) hb hlt) h

theorem join_le_iff : join a b ≤ t ↔ a ≤ t ∧ b ≤ t := by
  unfold join
  split_ifs with ha hb
  · exact larger_le_iff hb
  · exact ⟨fun h => absurd (LawfulOrder.placed_left h) hb, And.right⟩
  · exact ⟨fun h => absurd (LawfulOrder.placed_left h) ha, And.left⟩

theorem foldl_join_le_iff {xs : List α} : xs.foldl join a ≤ t ↔ a ≤ t ∧ ∀ x ∈ xs, x ≤ t := by
  induction xs generalizing a with
  | nil => exact ⟨fun h => ⟨h, nofun⟩, And.left⟩
  | cons x xs ih => rw [List.foldl_cons, ih, join_le_iff, List.forall_mem_cons, and_assoc]

/-- The largest member passes a bound if all members do. -/
theorem peak_le_iff {xs : List α} {m : α} (h : peak? xs = some m) : m ≤ t ↔ ∀ x ∈ xs, x ≤ t := by
  cases xs with
  | nil => cases h
  | cons x xs =>
    cases h
    rw [foldl_join_le_iff, List.forall_mem_cons]

end Scalar

namespace Checker
variable {α : Type} [Scalar α]

section
variable {lons lats xs : List α} {m : α}

theorem largest_eq_ok_iff : largest xs = .ok m ↔ peak? xs = some m := by
  unfold largest
  cases peak? xs <;> simp

theorem exists_largest_iff : (∃ m, largest xs = .ok m) ↔ xs ≠ [] := by
  cases xs with
  | nil => exact iff_of_false (fun ⟨_, h⟩ => nomatch h) (fun h => h rfl)
  | cons x xs => exact iff_of_true ⟨_, rfl⟩ (List.cons_ne_nil x xs)

/-- A finding about the largest measurement is made if there is one and all succeed. -/
theorem exists_finding_iff {ι β : Type} {xs : List ι} {g : ι → Except (Failure α) β} {sizes : List β → List α}
    {make : List β → α → Finding α} (hne : ∀ ys, xs.mapM g = .ok ys → (sizes ys ≠ [] ↔ xs ≠ [])) :
    (∃ f, (do let ys ← xs.mapM g; let m ← largest (sizes ys); pure (make ys m)) = .ok f) ↔
      xs ≠ [] ∧ ∀ x ∈ xs, ∃ y, g x = .ok y := by
  rw [← exists_mapM_iff]
  simp only [bind_eq_ok_iff, pure, Except.pure, Except.ok.injEq]
  constructor
  · rintro ⟨f, ys, hys, m, hm, -⟩
    exact ⟨(hne ys hys).mp (exists_largest_iff.mp ⟨m, hm⟩), ys, hys⟩
  · rintro ⟨hxs, ys, hys⟩
    obtain ⟨m, hm⟩ := exists_largest_iff.mpr ((hne ys hys).mpr hxs)
    exact ⟨_, ys, hys, m, hm, rfl⟩

def Everywhere (lons lats : List α) (P : α → α → Prop) : Prop :=
  ∀ lon ∈ lons, ∀ lat ∈ lats, P (toRadians lon) (toRadians lat)

theorem samples_eq (lons lats : List α) :
    samples lons lats = (lats ×ˢ lons).map fun p => (toRadians p.2, toRadians p.1) := by
  simp only [samples, SProd.sprod, List.product, List.map_flatMap, List.map_map, Function.comp_def]

theorem length_samples (lons lats : List α) : (samples lons lats).length = lons.length * lats.length := by
  rw [samples_eq, List.length_map, List.length_product, Nat.mul_comm]

theorem samples_ne_nil_iff : samples lons lats ≠ [] ↔ lons ≠ [] ∧ lats ≠ [] := by
  rw [← List.length_pos_iff, length_samples, CanonicallyOrderedAdd.mul_pos, List.length_pos_iff, List.length_pos_iff]

theorem forall_mem_samples {P : α × α → Prop} :
    (∀ p ∈ samples lons lats, P p) ↔ Everywhere lons lats fun lam phi => P (lam, phi) := by
  rw [samples_eq, List.forall_mem_map]
  exact ⟨fun h lon hlon lat hlat => h _ (List.pair_mem_product.mpr ⟨hlat, hlon⟩), fun h p hp =>
    h _ (List.pair_mem_product.mp hp).2 _ (List.pair_mem_product.mp hp).1⟩

end

/-! What a check says of one sample. -/

def Small (tolerance error : α) : Prop := error ≤ error ∧ abs error ≤ tolerance

section
variable (k : Checker α)

def ComesBack (tolerance lam phi : α) : Prop :=
  ∃ x y lam' phi', k.core.forward lam phi = .ok (x, y) ∧ k.core.inverse x y = .ok (lam', phi') ∧
    Small tolerance (lam' - lam) ∧ Small tolerance (phi' - phi)

def Agrees (lam phi : α) : Prop :=
  ∃ x y, k.core.forward lam phi = .ok (x, y) ∧ k.core.branchOfLatitude phi = k.core.branchOfRow y

def Joins (epsilon tolerance sign lam : α) : Prop :=
  ∃ x y x' y', k.core.forward lam (sign * (k.core.seam.latitude - epsilon)) = .ok (x, y) ∧
    k.core.forward lam (sign * (k.core.seam.latitude + epsilon)) = .ok (x', y') ∧ Small tolerance (y' - y)

def KeepsArea (tolerance lam phi : α) : Prop :=
  ∃ t, k.map.distortion phi lam Distortion.standardStep = .ok t ∧ Small tolerance (t.areaScale - 1.0)

instance (lam phi : α) : Decidable (k.Agrees lam phi) :=
  match h : k.core.forward lam phi with
  | .ok (_, y) => decidable_of_iff (k.core.branchOfLatitude phi = k.core.branchOfRow y) (by simp [Agrees, h])
  | .error _ => .isFalse (by simp [Agrees, h])

theorem agrees_iff {lam phi x y : α} (h : k.core.forward lam phi = .ok (x, y)) :
    k.Agrees lam phi ↔ k.core.branchOfLatitude phi = k.core.branchOfRow y := by
  simp [Agrees, h]

/-- Where a sample is classified at all, it is marked if the two tests disagree. -/
theorem misclassified_eq_ok_iff {p : α × α} {mark : Bool} : k.misclassified p = .ok mark ↔
    (∃ place, k.core.forward p.1 p.2 = .ok place) ∧ mark = !decide (k.Agrees p.1 p.2) := by
  rw [misclassified, bind_eq_ok_iff, ← exists_and_right]
  refine exists_congr fun place => and_congr_right fun h => ?_
  simp [k.agrees_iff h, pure, Except.pure, eq_comm]

end

/-! A run gives out what its check found. -/

theorem run_eq_ok_iff {k : Checker α} {check : Except (Failure α) (Finding α)} {f : Finding α}
    {log log' : List (Finding α)} : (k.run check).run.run log = (.ok f, log') ↔
      check = .ok f ∧ (f.Passes ∨ k.strict = false) ∧ log' = log ++ k.noted (violations [f]) := by
  cases check with
  | error e =>
    have herror : (k.run (.error e)).run.run log = (.error e, log) := rfl
    rw [herror]
    refine iff_of_false (fun h => ?_) fun h => ?_
    · cases h
    · cases h.1
  | ok g =>
    by_cases hpasses : g.Passes
    · have hnone : k.noted (violations [g]) = [] := by
        rw [violations_cons_of_passes hpasses, violations, List.filter_nil, noted_nil]
      rw [run_of_passes hpasses, Prod.mk.injEq, Except.ok.injEq]
      constructor
      · rintro ⟨rfl, rfl⟩
        exact ⟨rfl, .inl hpasses, by rw [hnone, List.append_nil]⟩
      · rintro ⟨rfl, -, rfl⟩
        exact ⟨rfl, by rw [hnone, List.append_nil]⟩
    · have hone : violations [g] = [g] := violations_cons_of_not_passes hpasses []
      rw [run_of_not_passes hpasses, Prod.mk.injEq, Except.ok.injEq]
      cases hstrict : k.strict with
      | false =>
        rw [if_neg Bool.false_ne_true, Except.ok.injEq]
        constructor
        · rintro ⟨rfl, rfl⟩
          exact ⟨rfl, .inr rfl, by rw [hone]⟩
        · rintro ⟨rfl, -, rfl⟩
          exact ⟨rfl, by rw [hone]⟩
      | true =>
        rw [if_pos rfl]
        refine iff_of_false (fun h => ?_) ?_
        · cases h.1
        · rintro ⟨rfl, hany, -⟩
          rcases hany with hany | hany
          · exact hpasses hany
          · cases hany

/-! The four checks over sample points, in doubles. -/

section
open Homolosine (build lowSeam parts_of_lowSeam exists_of_isOk)
variable {c : Circular} {k : Checker (Double c)} {lons lats : List (Double c)} {lam phi epsilon tolerance : Double c}
  {f : Finding (Double c)}

theorem small_iff {e : Double c} : Small tolerance e ↔ abs e ≤ tolerance :=
  and_iff_right_of_imp fun h => Double.placed_abs.mp (LawfulOrder.placed_left h)

theorem roundTripError_eq_ok_iff {p : Double c × Double c} {e : Double c} : k.roundTripError p = .ok e ↔
    ∃ x y lam' phi', k.core.forward p.1 p.2 = .ok (x, y) ∧ k.core.inverse x y = .ok (lam', phi') ∧
      larger (abs (lam' - p.1)) (abs (phi' - p.2)) = e := by
  simp only [roundTripError, bind_eq_ok_iff, Prod.exists, pure, Except.pure, Except.ok.injEq, exists_and_left]

/-- Both latitudes are on the globe, so they have a difference. -/
theorem placed_latitude_error {north south : LobeTable (Double c)} {latitude x y lam' phi' : Double c}
    {m : Mollweide (Double c)} (hc : c.Lawful) (hbuild : build north south latitude m = .ok k.core)
    (hforward : k.core.forward lam phi = .ok (x, y)) (hinverse : k.core.inverse x y = .ok (lam', phi')) :
    abs (phi' - phi) ≤ abs (phi' - phi) := by
  obtain ⟨p, hp, -⟩ := Homolosine.forward_eq_ok_iff.mp hforward
  have hphi := Double.below_of_within_halfPi (Homolosine.within_of_pieceOfPoint hp).2
  obtain ⟨-, -, -, hwithin⟩ := Homolosine.within_of_inverse hc hbuild hinverse
  have hphi' := Double.below_of_within_halfPi hwithin
  refine Double.placed_abs.mpr (Double.placed_add_and_sub ?_ ?_ (.inl ?_)).2
  · exact Double.placed_of_below hphi' (by decide)
  · exact Double.placed_of_below hphi (by decide)
  · exact Double.isFinite_of_below hphi' (by decide)

theorem comesBack_iff {north south : LobeTable (Double c)} {latitude : Double c} {m : Mollweide (Double c)}
    (hc : c.Lawful) (hbuild : build north south latitude m = .ok k.core) :
    (∃ e, k.roundTripError (lam, phi) = .ok e ∧ e ≤ tolerance) ↔ k.ComesBack tolerance lam phi := by
  constructor
  · rintro ⟨e, he, hle⟩
    obtain ⟨x, y, lam', phi', hforward, hinverse, rfl⟩ := roundTripError_eq_ok_iff.mp he
    obtain ⟨hlam, hphi⟩ := (larger_le_iff (placed_latitude_error hc hbuild hforward hinverse)).mp hle
    exact ⟨x, y, lam', phi', hforward, hinverse, small_iff.mpr hlam, small_iff.mpr hphi⟩
  · rintro ⟨x, y, lam', phi', hforward, hinverse, hlam, hphi⟩
    refine ⟨_, roundTripError_eq_ok_iff.mpr ⟨x, y, lam', phi', hforward, hinverse, rfl⟩, ?_⟩
    exact (larger_le_iff (placed_latitude_error hc hbuild hforward hinverse)).mpr
      ⟨small_iff.mp hlam, small_iff.mp hphi⟩

theorem exists_roundTripError_iff : (∃ e, k.roundTripError (lam, phi) = .ok e) ↔ ∃ x y point,
    k.core.forward lam phi = .ok (x, y) ∧ k.core.inverse x y = .ok point := by
  constructor
  · rintro ⟨e, he⟩
    obtain ⟨x, y, lam', phi', hforward, hinverse, -⟩ := roundTripError_eq_ok_iff.mp he
    exact ⟨x, y, _, hforward, hinverse⟩
  · rintro ⟨x, y, ⟨lam', phi'⟩, hforward, hinverse⟩
    exact ⟨_, roundTripError_eq_ok_iff.mpr ⟨x, y, lam', phi', hforward, hinverse, rfl⟩⟩

theorem exists_roundTrip_iff : (∃ f, k.roundTrip lons lats tolerance = .ok f) ↔ (lons ≠ [] ∧ lats ≠ []) ∧
    Everywhere lons lats fun lam phi => ∃ x y point, k.core.forward lam phi = .ok (x, y) ∧
      k.core.inverse x y = .ok point := by
  simp only [← exists_roundTripError_iff, ← samples_ne_nil_iff]
  rw [← forall_mem_samples (P := fun p => ∃ e, k.roundTripError p = .ok e)]
  exact exists_finding_iff fun errors herrors => ne_nil_iff_of_mapM herrors

theorem roundTrip_verdict {north south : LobeTable (Double c)} {latitude : Double c} {m : Mollweide (Double c)}
    (hc : c.Lawful) (hbuild : build north south latitude m = .ok k.core)
    (h : k.roundTrip lons lats tolerance = .ok f) :
    ∃ error, f = .roundTrip error tolerance (lons.length * lats.length) ∧
      (f.Passes ↔ Everywhere lons lats (k.ComesBack tolerance)) := by
  obtain ⟨errors, herrors, h⟩ := bind_eq_ok_iff.mp h
  obtain ⟨error, herror, h⟩ := bind_eq_ok_iff.mp h
  cases h
  refine ⟨error, by rw [length_of_mapM herrors, length_samples], ?_⟩
  calc error ≤ tolerance
    _ ↔ ∀ e ∈ errors, e ≤ tolerance := peak_le_iff (largest_eq_ok_iff.mp herror)
    _ ↔ ∀ p ∈ samples lons lats, ∃ e, k.roundTripError p = .ok e ∧ e ≤ tolerance := forall_mem_of_mapM herrors
    _ ↔ Everywhere lons lats (k.ComesBack tolerance) := by
      rw [forall_mem_samples (P := fun p => ∃ e, k.roundTripError p = .ok e ∧ e ≤ tolerance)]
      simp only [comesBack_iff hc hbuild]

theorem exists_regionClassification_iff : (∃ f, k.regionClassification lons lats = .ok f) ↔
    Everywhere lons lats fun lam phi => ∃ place, k.core.forward lam phi = .ok place := by
  have hmarks : (∃ marks, (samples lons lats).mapM k.misclassified = .ok marks) ↔
      Everywhere lons lats fun lam phi => ∃ place, k.core.forward lam phi = .ok place := by
    rw [exists_mapM_iff, forall_mem_samples (P := fun p => ∃ mark, k.misclassified p = .ok mark)]
    simp only [misclassified_eq_ok_iff, exists_and_left, exists_eq, and_true]
  rw [← hmarks]
  simp only [regionClassification, bind_eq_ok_iff, pure, Except.pure, Except.ok.injEq]
  rw [exists_comm]
  simp only [exists_and_left, exists_eq', and_true]

theorem regionClassification_verdict (h : k.regionClassification lons lats = .ok f) :
    f = .regionClassification ((lats ×ˢ lons).countP fun p => ¬ k.Agrees (toRadians p.2) (toRadians p.1))
        (lons.length * lats.length) ∧
      (f.Passes ↔ Everywhere lons lats k.Agrees) := by
  obtain ⟨marks, hmarks, h⟩ := bind_eq_ok_iff.mp h
  cases h
  have hmark : ∀ p mark, k.misclassified p = .ok mark → (!decide (k.Agrees p.1 p.2)) = id mark :=
    fun p mark hmark => ((misclassified_eq_ok_iff k).mp hmark).2.symm
  have hcount := countP_of_mapM hmarks hmark
  constructor
  · rw [length_of_mapM hmarks, length_samples, hcount, samples_eq, List.countP_map]
    simp only [Function.comp_def, decide_not]
  · calc marks.countP id = 0
      _ ↔ ∀ p ∈ samples lons lats, k.Agrees p.1 p.2 := by simp [hcount, List.countP_eq_zero]
      _ ↔ Everywhere lons lats k.Agrees := forall_mem_samples (P := fun p => k.Agrees p.1 p.2)

def jumps (k : Checker (Double c)) (epsilon lon : Double c) : Except (Failure (Double c)) (List (Double c)) := do
  return [← k.seamJump epsilon (toRadians lon) 1.0, ← k.seamJump epsilon (toRadians lon) (-1.0)]

theorem jumps_eq_ok_iff {lon : Double c} {js : List (Double c)} : k.jumps epsilon lon = .ok js ↔ ∃ north,
    k.seamJump epsilon (toRadians lon) 1.0 = .ok north ∧ ∃ south,
      k.seamJump epsilon (toRadians lon) (-1.0) = .ok south ∧ [north, south] = js := by
  simp only [jumps, bind_eq_ok_iff, pure, Except.pure, Except.ok.injEq]

/-- A longitude has its jumps, all of one kind, if each hemisphere has one of this kind. -/
theorem exists_jumps_iff {lon : Double c} {P : Double c → Prop} :
    (∃ js, k.jumps epsilon lon = .ok js ∧ ∀ j ∈ js, P j) ↔
      ∀ sign ∈ [1.0, -1.0], ∃ jump, k.seamJump epsilon (toRadians lon) sign = .ok jump ∧ P jump := by
  rw [List.forall_mem_cons, List.forall_mem_singleton]
  constructor
  · rintro ⟨js, hjs, hall⟩
    obtain ⟨north, hnorth, south, hsouth, rfl⟩ := jumps_eq_ok_iff.mp hjs
    obtain ⟨hn, hs⟩ := List.forall_mem_cons.mp hall
    exact ⟨⟨north, hnorth, hn⟩, south, hsouth, hs south List.mem_cons_self⟩
  · rintro ⟨⟨north, hnorth, hn⟩, south, hsouth, hs⟩
    refine ⟨[north, south], jumps_eq_ok_iff.mpr ⟨north, hnorth, south, hsouth, rfl⟩, ?_⟩
    exact List.forall_mem_cons.mpr ⟨hn, List.forall_mem_singleton.mpr hs⟩

theorem seamJump_eq_ok_iff {sign jump : Double c} : k.seamJump epsilon lam sign = .ok jump ↔ ∃ x y x' y',
    k.core.forward lam (sign * (k.core.seam.latitude - epsilon)) = .ok (x, y) ∧
      k.core.forward lam (sign * (k.core.seam.latitude + epsilon)) = .ok (x', y') ∧ abs (y' - y) = jump := by
  simp only [seamJump, bind_eq_ok_iff, Prod.exists, pure, Except.pure, Except.ok.injEq, exists_and_left]

theorem joins_iff {sign : Double c} :
    k.Joins epsilon tolerance sign lam ↔ ∃ jump, k.seamJump epsilon lam sign = .ok jump ∧ jump ≤ tolerance := by
  constructor
  · rintro ⟨x, y, x', y', hinside, houtside, hjump⟩
    exact ⟨_, seamJump_eq_ok_iff.mpr ⟨x, y, x', y', hinside, houtside, rfl⟩, small_iff.mp hjump⟩
  · rintro ⟨jump, h, hle⟩
    obtain ⟨x, y, x', y', hinside, houtside, rfl⟩ := seamJump_eq_ok_iff.mp h
    exact ⟨x, y, x', y', hinside, houtside, small_iff.mpr hle⟩

theorem seamContinuity_eq (k : Checker (Double c)) (lons : List (Double c)) (epsilon tolerance : Double c) :
    k.seamContinuity (Grid.ofList lons) epsilon tolerance = (do
      let found ← lons.mapM (k.jumps epsilon)
      return .seamContinuity (← largest found.flatten) epsilon tolerance) := rfl

theorem flatten_jumps_ne_nil_iff {found : List (List (Double c))} (h : lons.mapM (k.jumps epsilon) = .ok found) :
    found.flatten ≠ [] ↔ lons ≠ [] := by
  rw [← ne_nil_iff_of_mapM h]
  have hne : ∀ js ∈ found, js ≠ [] := by
    refine (forall_mem_of_mapM h).mpr fun lon hlon => ?_
    obtain ⟨js, hjs⟩ := exists_of_mapM h lon hlon
    obtain ⟨north, -, south, -, rfl⟩ := jumps_eq_ok_iff.mp hjs
    exact ⟨_, hjs, List.cons_ne_nil north [south]⟩
  cases found with
  | nil => simp
  | cons js found => simp [hne js List.mem_cons_self]

theorem exists_seamContinuity_iff : (∃ f, k.seamContinuity (Grid.ofList lons) epsilon tolerance = .ok f) ↔
    lons ≠ [] ∧ ∀ lon ∈ lons, ∀ sign ∈ [1.0, -1.0], ∃ jump,
      k.seamJump epsilon (toRadians lon) sign = .ok jump := by
  have hjumps : ∀ lon, (∃ js, k.jumps epsilon lon = .ok js) ↔ ∀ sign ∈ [1.0, -1.0], ∃ jump,
      k.seamJump epsilon (toRadians lon) sign = .ok jump := by
    intro lon
    simpa only [implies_true, and_true] using exists_jumps_iff (P := fun _ => True)
  simp only [← hjumps]
  exact exists_finding_iff fun found hfound => flatten_jumps_ne_nil_iff hfound

theorem seamContinuity_verdict (h : k.seamContinuity (Grid.ofList lons) epsilon tolerance = .ok f) :
    ∃ jump, f = .seamContinuity jump epsilon tolerance ∧ (f.Passes ↔
      ∀ lon ∈ lons, ∀ sign ∈ [1.0, -1.0], k.Joins epsilon tolerance sign (toRadians lon)) := by
  rw [seamContinuity_eq] at h
  obtain ⟨found, hfound, h⟩ := bind_eq_ok_iff.mp h
  obtain ⟨jump, hjump, h⟩ := bind_eq_ok_iff.mp h
  cases h
  refine ⟨jump, rfl, ?_⟩
  calc jump ≤ tolerance
    _ ↔ ∀ js ∈ found, ∀ j ∈ js, j ≤ tolerance := by
      rw [peak_le_iff (largest_eq_ok_iff.mp hjump), List.forall_mem_flatten]
    _ ↔ ∀ lon ∈ lons, ∃ js, k.jumps epsilon lon = .ok js ∧ ∀ j ∈ js, j ≤ tolerance := forall_mem_of_mapM hfound
    _ ↔ _ := by simp only [exists_jumps_iff, joins_iff]

theorem keepsArea_iff : k.KeepsArea tolerance lam phi ↔ ∃ s,
    (·.areaScale) <$> k.map.distortion phi lam Distortion.standardStep = .ok s ∧ abs (s - 1.0) ≤ tolerance := by
  unfold KeepsArea
  cases k.map.distortion phi lam Distortion.standardStep with
  | error e => simp [Functor.map, Except.map]
  | ok t => simp [Functor.map, Except.map, small_iff]

theorem exists_equalArea_iff : (∃ f, k.equalArea lons lats tolerance = .ok f) ↔ (lons ≠ [] ∧ lats ≠ []) ∧
    Everywhere lons lats fun lam phi => ∃ t, k.map.distortion phi lam Distortion.standardStep = .ok t := by
  have hscale : ∀ p : Double c × Double c, (∃ s, (·.areaScale) <$> k.map.distortion p.2 p.1 Distortion.standardStep =
      .ok s) ↔ ∃ t, k.map.distortion p.2 p.1 Distortion.standardStep = .ok t := by
    intro p
    cases k.map.distortion p.2 p.1 Distortion.standardStep <;> simp [Functor.map, Except.map]
  rw [← samples_ne_nil_iff, ← forall_mem_samples (P := fun p => ∃ t, k.map.distortion p.2 p.1 _ = .ok t)]
  simp only [← hscale]
  exact exists_finding_iff fun scales hscales => List.map_eq_nil_iff.not.trans (ne_nil_iff_of_mapM hscales)

theorem equalArea_verdict (h : k.equalArea lons lats tolerance = .ok f) :
    ∃ deviation, f = .equalArea deviation tolerance ∧
      (f.Passes ↔ Everywhere lons lats (k.KeepsArea tolerance)) := by
  obtain ⟨scales, hscales, h⟩ := bind_eq_ok_iff.mp h
  obtain ⟨deviation, hdeviation, h⟩ := bind_eq_ok_iff.mp h
  cases h
  refine ⟨deviation, rfl, ?_⟩
  calc deviation ≤ tolerance
    _ ↔ ∀ s ∈ scales, abs (s - 1.0) ≤ tolerance := by
      rw [peak_le_iff (largest_eq_ok_iff.mp hdeviation), List.forall_mem_map]
    _ ↔ _ := forall_mem_of_mapM hscales
    _ ↔ Everywhere lons lats (k.KeepsArea tolerance) := by
      simp only [← keepsArea_iff]
      exact forall_mem_samples (P := fun p => k.KeepsArea tolerance p.1 p.2)

/-- Whatever the tables, the seam and the way to the auxiliary angle, a check over sample points says what it is
named for of every one of them. It makes a finding if every sample can be measured and, where it looks for a largest
measurement, there is a sample; a run gives the finding out unless it is strict and the finding does not pass. The
finding passes if all errors are numbers within the tolerance, or if all branches agree; it counts every pair of a
longitude and a latitude once, and with it every pair that disagrees. -/
theorem verdicts {north south : LobeTable (Double c)} {latitude : Double c} {m : Mollweide (Double c)}
    (hc : c.Lawful) (hbuild : build north south latitude m = .ok k.core) (lons lats : List (Double c))
    (epsilon tolerance : Double c) :
    (∀ check f log log', (k.run check).run.run log = (.ok f, log') ↔
      check = .ok f ∧ (f.Passes ∨ k.strict = false) ∧ log' = log ++ k.noted (violations [f])) ∧
    -- the round trip
    ((∃ f, k.roundTrip lons lats tolerance = .ok f) ↔ (lons ≠ [] ∧ lats ≠ []) ∧
      Everywhere lons lats fun lam phi => ∃ x y point, k.core.forward lam phi = .ok (x, y) ∧
        k.core.inverse x y = .ok point) ∧
    (∀ f, k.roundTrip lons lats tolerance = .ok f →
      ∃ error, f = .roundTrip error tolerance (lons.length * lats.length) ∧
        (f.Passes ↔ Everywhere lons lats (k.ComesBack tolerance))) ∧
    -- the branches
    ((∃ f, k.regionClassification lons lats = .ok f) ↔
      Everywhere lons lats fun lam phi => ∃ place, k.core.forward lam phi = .ok place) ∧
    (∀ f, k.regionClassification lons lats = .ok f →
      f = .regionClassification ((lats ×ˢ lons).countP fun p => ¬ k.Agrees (toRadians p.2) (toRadians p.1))
        (lons.length * lats.length) ∧ (f.Passes ↔ Everywhere lons lats k.Agrees)) ∧
    -- the seam
    ((∃ f, k.seamContinuity (Grid.ofList lons) epsilon tolerance = .ok f) ↔
      lons ≠ [] ∧ ∀ lon ∈ lons, ∀ sign ∈ [1.0, -1.0], ∃ jump,
        k.seamJump epsilon (toRadians lon) sign = .ok jump) ∧
    (∀ f, k.seamContinuity (Grid.ofList lons) epsilon tolerance = .ok f →
      ∃ jump, f = .seamContinuity jump epsilon tolerance ∧ (f.Passes ↔
        ∀ lon ∈ lons, ∀ sign ∈ [1.0, -1.0], k.Joins epsilon tolerance sign (toRadians lon))) ∧
    -- the area scale
    ((∃ f, k.equalArea lons lats tolerance = .ok f) ↔ (lons ≠ [] ∧ lats ≠ []) ∧
      Everywhere lons lats fun lam phi => ∃ t, k.map.distortion phi lam Distortion.standardStep = .ok t) ∧
    (∀ f, k.equalArea lons lats tolerance = .ok f →
      ∃ deviation, f = .equalArea deviation tolerance ∧
        (f.Passes ↔ Everywhere lons lats (k.KeepsArea tolerance))) :=
  ⟨fun _ _ _ _ => run_eq_ok_iff, exists_roundTrip_iff, fun _ => roundTrip_verdict hc hbuild,
    exists_regionClassification_iff, fun _ => regionClassification_verdict, exists_seamContinuity_iff,
    fun _ => seamContinuity_verdict, exists_equalArea_iff, fun _ => equalArea_verdict⟩

/-- Points on both sides of a seam near the equator, in lobes that differ from north to south: they come back, their
rows are on the branches of their latitudes, and on their longitudes the rows at the seam meet. -/
theorem verdicts_lowSeam : ∃ k : Checker (Double .level), lowSeam = .ok k.core ∧
    (∃ error, k.roundTrip [-120.0, -30.0, 60.0] [-6e-8, 0.0, 6e-8] 1e-9 = .ok (.roundTrip error 1e-9 9)) ∧
    Everywhere [-120.0, -30.0, 60.0] [-6e-8, 0.0, 6e-8] (k.ComesBack 1e-9) ∧
    k.regionClassification [-120.0, -30.0, 60.0] [-6e-8, 0.0, 6e-8] = .ok (.regionClassification 0 9) ∧
    Everywhere [-120.0, -30.0, 60.0] [-6e-8, 0.0, 6e-8] k.Agrees ∧
    ∀ lon ∈ [-120.0, -30.0, 60.0], ∀ sign ∈ [1.0, -1.0], k.Joins 1e-10 1e-9 sign (toRadians lon) := by
  obtain ⟨⟨⟩, h⟩ := exists_of_isOk (r := do
    let g ← lowSeam
    let k : Checker (Double .level) := ⟨g, .sphere 1.0, false, true⟩
    let back ← k.roundTrip [-120.0, -30.0, 60.0] [-6e-8, 0.0, 6e-8] 1e-9
    let branches ← k.regionClassification [-120.0, -30.0, 60.0] [-6e-8, 0.0, 6e-8]
    let seam ← k.seamContinuity (Grid.ofList [-120.0, -30.0, 60.0]) 1e-10 1e-9
    if back.Passes ∧ branches.Passes ∧ seam.Passes then .ok () else .error .emptySample) (by decide +kernel)
  obtain ⟨g, hg, h⟩ := bind_eq_ok_iff.mp h
  obtain ⟨back, hback, h⟩ := bind_eq_ok_iff.mp h
  obtain ⟨branches, hbranches, h⟩ := bind_eq_ok_iff.mp h
  obtain ⟨seam, hseam, h⟩ := bind_eq_ok_iff.mp h
  obtain ⟨north, south, -, -, hbuild⟩ := parts_of_lowSeam hg
  obtain ⟨-, -, hcomesBack, -, hagrees, -, hjoins, -⟩ := verdicts (k := ⟨g, .sphere 1.0, false, true⟩)
    Double.level_lawful hbuild [-120.0, -30.0, 60.0] [-6e-8, 0.0, 6e-8] 1e-10 1e-9
  split_ifs at h with hpasses
  obtain ⟨error, rfl, hall⟩ := hcomesBack back hback
  obtain ⟨rfl, hbranch⟩ := hagrees branches hbranches
  obtain ⟨jump, rfl, hjoin⟩ := hjoins seam hseam
  have hnone : List.countP _ _ = 0 := hpasses.2.1
  rw [hnone] at hbranches
  exact ⟨⟨g, .sphere 1.0, false, true⟩, hg, ⟨error, hback⟩, hall.mp hpasses.1, hbranches,
    hbranch.mp hpasses.2.1, hjoin.mp hpasses.2.2⟩

end

end Checker
end GoodeMap
