import GoodeMap.Proofs.Calibration
import GoodeMap.Proofs.DoubleSign
import GoodeMap.Proofs.LobeCoverage

/-! Which tables of lobes can be had, whatever way they are asked for, and what moving the boundaries keeps. A
function that keeps the order of a table's range moves each lobe onto the lobe with its number, so a moved
coordinate is looked up in the moved table as the coordinate is in the table. -/
namespace GoodeMap
open Scalar
open Binary64 (Circular)

namespace LobeTable

structure Draft (α : Type) where
  name : String
  boundaries : Array α
  meridians : Array α

variable {α : Type} [Scalar α]

def draft (t : LobeTable α) : Draft α := ⟨t.name, t.boundaries, t.meridians⟩

namespace Draft

def build (d : Draft α) : Except (Failure α) (LobeTable α) :=
  LobeTable.build d.name d.boundaries d.meridians

structure Fits (d : Draft α) : Prop where
  lobes : 0 < d.meridians.size
  count : d.boundaries.size = d.meridians.size + 1
  finite : ∀ v ∈ d.boundaries ++ d.meridians, isFinite v = true
  increasing : ∀ i (h : i + 1 < d.boundaries.size), d.boundaries[i] < d.boundaries[i + 1]

inductive Fault (d : Draft α) : Failure α → Prop where
  | noLobes (h : d.meridians.size = 0) : Fault d (.noLobes d.name)
  | boundaryCount (lobes : 0 < d.meridians.size) (h : d.boundaries.size ≠ d.meridians.size + 1) :
    Fault d (.boundaryCount d.name d.meridians.size d.boundaries.size)
  | notFinite (lobes : 0 < d.meridians.size) (count : d.boundaries.size = d.meridians.size + 1)
    (h : ∃ v ∈ d.boundaries ++ d.meridians, isFinite v = false) : Fault d (.tableNotFinite d.name)
  | notIncreasing (lobes : 0 < d.meridians.size) (count : d.boundaries.size = d.meridians.size + 1)
    (finite : ∀ v ∈ d.boundaries ++ d.meridians, isFinite v = true)
    (h : ∃ i, ∃ h : i + 1 < d.boundaries.size, ¬ d.boundaries[i] < d.boundaries[i + 1]) :
    Fault d (.boundariesNotIncreasing d.name d.boundaries.toList)

theorem Fault.kind_eq {d : Draft α} {e : Failure α} (h : d.Fault e) : e.kind = .configuration := by
  cases h <;> rfl

end Draft

theorem fits_draft (t : LobeTable α) : t.draft.Fits where
  lobes := t.meridians_pos
  count := t.boundaries_size
  finite := t.finite
  increasing _ h := t.boundary_lt _ h (Nat.lt_succ_self _)

section
variable {t u : LobeTable α} {f : α → α} {name : String}

def moved (h : t.mapped f name = .ok u) (i : t.Lobe) : u.Lobe :=
  i.cast (congrArg Array.size (meridians_mapped h).symm)

theorem left_moved (h : t.mapped f name = .ok u) (i : t.Lobe) : u.left (moved h i) = f (t.left i) := by
  simp [left, moved, (build_eq_ok h).2.1]

theorem right_moved (h : t.mapped f name = .ok u) (i : t.Lobe) : u.right (moved h i) = f (t.right i) := by
  simp [right, moved, (build_eq_ok h).2.1]

theorem meridian_moved (h : t.mapped f name = .ok u) (i : t.Lobe) : u.meridian (moved h i) = t.meridian i := by
  simp [meridian, moved, meridians_mapped h]

theorem draft_of_mapped (h : t.mapped f name = .ok u) : u.draft = ⟨name, t.boundaries.map f, t.meridians⟩ := by
  obtain ⟨hname, hboundaries, hmeridians⟩ := build_eq_ok h
  simp only [draft, hname, hboundaries, hmeridians]

theorem mapped_mapped (h : t.mapped f name = .ok u) (g : α → α) (name' : String) :
    u.mapped g name' = t.mapped (g ∘ f) name' := by
  obtain ⟨-, hboundaries, hmeridians⟩ := build_eq_ok h
  simp only [mapped, hboundaries, hmeridians, Array.map_map]

end

inductive Recipe (α : Type) where
  | plain (d : Draft α)
  | ofDegrees (d : Draft α)
  | mapped (source : Recipe α) (f : α → α) (name : String)

namespace Recipe

def make : Recipe α → Except (Failure α) (LobeTable α)
  | plain d => d.build
  | ofDegrees d => LobeTable.ofDegrees d.name d.boundaries d.meridians
  | mapped source f name => do (← source.make).mapped f name

def draft : Recipe α → Draft α
  | plain d => d
  | ofDegrees d => ⟨d.name, d.boundaries.map Constants.tableRadians, d.meridians.map Constants.tableRadians⟩
  | mapped source f name => ⟨name, source.draft.boundaries.map f, source.draft.meridians⟩

def Sound : Recipe α → Prop
  | mapped source f name => source.Sound ∧ (mapped source f name).draft.Fits
  | r => r.draft.Fits

def Refused : Recipe α → Failure α → Prop
  | mapped source f name, e => source.Refused e ∨ source.Sound ∧ (mapped source f name).draft.Fault e
  | r, e => r.draft.Fault e

theorem draft_of_make {r : Recipe α} {t : LobeTable α} (h : r.make = .ok t) : t.draft = r.draft := by
  induction r generalizing t with
  | plain d | ofDegrees d =>
    obtain ⟨hname, hboundaries, hmeridians⟩ := build_eq_ok h
    simp only [LobeTable.draft, draft, hname, hboundaries, hmeridians]
  | mapped source f name ih =>
    obtain ⟨s, hs, h⟩ := bind_eq_ok_iff.mp h
    rw [draft_of_mapped h, draft, ← ih hs]
    rfl

/-- The last step of a recipe builds its draft. -/
theorem mapped_of_make {source : Recipe α} {s : LobeTable α} (h : source.make = .ok s) (f : α → α)
    (name : String) : s.mapped f name = (mapped source f name).draft.build := by
  simp only [draft, ← draft_of_make h]
  rfl

theorem Refused.kind_eq {r : Recipe α} {e : Failure α} (h : r.Refused e) : e.kind = .configuration := by
  induction r with
  | plain d | ofDegrees d => exact Draft.Fault.kind_eq h
  | mapped source f name ih =>
    cases h with
    | inl h => exact ih h
    | inr h => exact h.2.kind_eq

end Recipe

variable [LawfulOrder α]

/-- It is enough to compare each entry with the next. -/
theorem pairwise_iff_next {entries : Array α} : entries.toList.Pairwise (· < ·) ↔
    ∀ i (h : i + 1 < entries.size), entries[i] < entries[i + 1] := by
  have htrans : Trans (α := α) (β := α) (γ := α) (· < ·) (· < ·) (· < ·) :=
    ⟨fun h h' => LawfulOrder.lt_of_lt_of_le h (LawfulOrder.le_of_lt h')⟩
  rw [← List.isChain_iff_pairwise, List.isChain_iff_getElem]
  simp only [Array.length_toList, Array.getElem_toList]

namespace Draft

theorem exists_build_iff {d : Draft α} : (∃ t, d.build = .ok t) ↔ d.Fits := by
  constructor
  · rintro ⟨t, h⟩
    obtain ⟨-, hboundaries, hmeridians⟩ := build_eq_ok h
    have hfits := t.fits_draft
    simp only [draft, hboundaries, hmeridians] at hfits
    exact ⟨hfits.lobes, hfits.count, hfits.finite, hfits.increasing⟩
  · intro h
    rw [build, LobeTable.build, dif_pos h.lobes, dif_pos h.count, dif_pos h.finite,
      dif_pos (pairwise_iff_next.mpr h.increasing)]
    exact ⟨_, rfl⟩

theorem build_eq_error_iff {d : Draft α} {e : Failure α} : d.build = .error e ↔ d.Fault e := by
  constructor
  · intro h
    unfold build LobeTable.build at h
    split_ifs at h with hlobes hcount hfinite hincreasing
    · cases h
      exact .notIncreasing hlobes hcount hfinite (by simpa using mt pairwise_iff_next.mpr hincreasing)
    · cases h
      exact .notFinite hlobes hcount (by simpa using hfinite)
    · cases h
      exact .boundaryCount hlobes hcount
    · cases h
      exact .noLobes (Nat.eq_zero_of_not_pos hlobes)
  · intro h
    cases h with
    | noLobes h => rw [build, LobeTable.build, dif_neg (by omega)]
    | boundaryCount lobes h => rw [build, LobeTable.build, dif_pos lobes, dif_neg h]
    | notFinite lobes count h =>
      rw [build, LobeTable.build, dif_pos lobes, dif_pos count, dif_neg (by simpa using h)]
    | notIncreasing lobes count finite h =>
      have hnot : ¬ d.boundaries.toList.Pairwise (· < ·) := mt pairwise_iff_next.mp (by simpa using h)
      rw [build, LobeTable.build, dif_pos lobes, dif_pos count, dif_pos finite, dif_neg hnot]

end Draft

namespace Recipe

theorem exists_make_iff (r : Recipe α) : (∃ t, r.make = .ok t) ↔ r.Sound := by
  induction r with
  | plain d => exact Draft.exists_build_iff (d := d)
  | ofDegrees d => exact Draft.exists_build_iff (d := (ofDegrees d).draft)
  | mapped source f name ih =>
    simp only [make, bind_eq_ok_iff, Sound, ← ih, ← Draft.exists_build_iff]
    constructor
    · rintro ⟨t, s, hs, h⟩
      exact ⟨⟨s, hs⟩, t, mapped_of_make hs f name ▸ h⟩
    · rintro ⟨⟨s, hs⟩, t, h⟩
      exact ⟨t, s, hs, (mapped_of_make hs f name).trans h⟩

theorem make_eq_error_iff (r : Recipe α) {e : Failure α} : r.make = .error e ↔ r.Refused e := by
  induction r with
  | plain d => exact Draft.build_eq_error_iff (d := d)
  | ofDegrees d => exact Draft.build_eq_error_iff (d := (ofDegrees d).draft)
  | mapped source f name ih =>
    rw [Refused, ← ih, ← exists_make_iff, ← Draft.build_eq_error_iff]
    cases hs : source.make with
    | error e' => simp [make, hs, bind, Except.bind]
    | ok s => simp [make, hs, bind, Except.bind, mapped_of_make hs]

end Recipe

structure Increases (t : LobeTable α) (f : α → α) : Prop where
  isFinite {x : α} : Within t.west t.east x → isFinite (f x) = true
  lt {x y : α} : Within t.west t.east x → Within t.west t.east y → x < y → f x < f y

section
variable {t u : LobeTable α} {f : α → α} {name : String} {x : α}

theorem exists_mapped (hf : t.Increases f) (name : String) : ∃ u, t.mapped f name = .ok u := by
  refine Draft.exists_build_iff (d := ⟨name, t.boundaries.map f, t.meridians⟩).mpr
    ⟨t.meridians_pos, ?_, fun v hv => ?_, fun i hi => ?_⟩
  · simpa using t.boundaries_size
  · rcases Array.mem_append.mp hv with hv | hv
    · obtain ⟨b, hb, rfl⟩ := Array.mem_map.mp hv
      exact hf.isFinite (t.within_of_mem hb)
    · exact t.finite v (Array.mem_append_right _ hv)
  · simp only [Array.size_map] at hi
    simp only [Array.getElem_map]
    exact hf.lt (t.within_of_mem (Array.getElem_mem _)) (t.within_of_mem (Array.getElem_mem _))
      (t.boundary_lt _ hi (Nat.lt_succ_self i))

theorem owns_moved (h : t.mapped f name = .ok u) (hf : t.Increases f)
    (hx : ∀ b ∈ t.boundaries, Meets b x → Meets (f b) (f x)) {i : t.Lobe} (hi : t.Owns x i) :
    u.Owns (f x) (moved h i) := by
  have hwithin := t.within_of_owns hi
  have hleft : Within t.west t.east (t.left i) := t.within_of_mem (Array.getElem_mem _)
  have hright : Within t.west t.east (t.right i) := t.within_of_mem (Array.getElem_mem _)
  rcases hi with ⟨hle, hlt⟩ | ⟨hlast, hmeets⟩
  · left
    rw [left_moved, right_moved]
    refine ⟨?_, hf.lt hwithin hright hlt⟩
    by_cases h' : t.left i < x
    · exact LawfulOrder.le_of_lt (hf.lt hleft hwithin h')
    · have hge := LawfulOrder.le_of_not_lt (LawfulOrder.placed_left hle) (LawfulOrder.placed_right hle) h'
      exact (hx _ (Array.getElem_mem _) ⟨hle, hge⟩).1
  · right
    have hlast' : (moved h i).val + 1 = u.meridians.size :=
      hlast.trans (congrArg Array.size (meridians_mapped h).symm)
    refine ⟨hlast', ?_⟩
    rw [← u.right_eq_east hlast', right_moved, t.right_eq_east hlast]
    exact (hx _ (Array.getElem_mem _) ⟨hmeets.2, hmeets.1⟩).symm

/-- A table with boundaries out of order is not made, whatever else is wrong with it. -/
theorem kind_of_not_increasing (f : α → α) (name : String)
    (h : ∃ i, ∃ h : i + 1 < t.boundaries.size, ¬ f t.boundaries[i] < f t.boundaries[i + 1]) :
    ∃ e, t.mapped f name = .error e ∧ e.kind = .configuration := by
  obtain ⟨i, hi, hnot⟩ := h
  cases hmapped : t.mapped f name with
  | error e =>
    have hfault := Draft.build_eq_error_iff (d := ⟨name, t.boundaries.map f, t.meridians⟩).mp hmapped
    exact ⟨e, rfl, hfault.kind_eq⟩
  | ok u =>
    have hfits := u.fits_draft
    rw [draft_of_mapped hmapped] at hfits
    have hlt := hfits.increasing i (by simpa using hi)
    simp only [Array.getElem_map] at hlt
    exact absurd hlt hnot

end
end LobeTable

namespace Double
variable {c : Circular} {x y : Double c}

/-- A function that does not tell the two zeros apart keeps equal numbers equal. -/
theorem meets_map {f : Double c → Double c} (hx : f x ≤ f x) (hzero : Meets x 0.0 → Meets (f (-0.0)) (f 0.0))
    (h : Meets y x) : Meets (f y) (f x) := by
  rcases eq_or_zero_of_meets h with rfl | ⟨hy0, hx0⟩
  · exact ⟨hx, hx⟩
  · have hf := hzero hx0
    rcases eq_zero_or_neg_zero hy0 with rfl | rfl <;> rcases eq_zero_or_neg_zero hx0 with rfl | rfl
    · exact ⟨hx, hx⟩
    · exact hf.symm
    · exact hf
    · exact ⟨hx, hx⟩

/-- Where the cosine of zero is one, a longitude's place on the equator is the same number. -/
theorem value_horizontalShift (hcos : Scalar.cos (0.0 : Double c) = 1.0) (hx : isFinite x = true)
    (hsize : |x.value| ≤ 2 ^ 200) :
    isFinite (Seam.horizontalShift x) = true ∧ (Seam.horizontalShift x).value = x.value := by
  have hone := one_spec (c := c)
  have hnext := nextTo_mul hx hone.1 (by rwa [hone.2, mul_one])
  rw [hone.2, mul_one] at hnext
  rw [Seam.horizontalShift, hcos]
  exact ⟨hnext.1, le_antisymm (hnext.le_of_le hx le_rfl) (hnext.ge_of_ge hx le_rfl)⟩

end Double

namespace LobeTable

/-- A table is made exactly if it and every table on the way to it have lobes, one more boundary than lobes,
finite numbers only and boundaries that increase; else the first of these that fails is named. Moving the
boundaries by a function that is finite and strictly increasing on the range always makes a table, with the old
meridians, and a moved coordinate is found in the lobe with the old number. The two zeros are one number, so for
them the function must not tell them apart. -/
theorem moved_table_spec {c : Circular} :
    (∀ r : Recipe (Double c),
      ((∃ t, r.make = .ok t) ↔ r.Sound) ∧ (∀ t, r.make = .ok t → t.draft = r.draft ∧ t.draft.Fits) ∧
        ∀ e, (r.make = .error e ↔ r.Refused e) ∧ (r.make = .error e → e.kind = .configuration)) ∧
    ∀ (t : LobeTable (Double c)) (f : Double c → Double c) (name : String),
      (t.Increases f → ∃ u, t.mapped f name = .ok u ∧ u.draft = ⟨name, t.boundaries.map f, t.meridians⟩ ∧
        (∀ g name', u.mapped g name' = t.mapped (g ∘ f) name') ∧
        ∀ x, Within t.west t.east x → (Meets x 0.0 → Meets (f (-0.0)) (f 0.0)) →
          ∃ i j, t.select x = .ok i ∧ u.select (f x) = .ok j ∧ j.val = i.val ∧ u.meridian j = t.meridian i) ∧
      ((∃ i, ∃ h : i + 1 < t.boundaries.size, ¬ f t.boundaries[i] < f t.boundaries[i + 1]) →
        ∃ e, t.mapped f name = .error e ∧ e.kind = .configuration) := by
  refine ⟨fun r => ⟨r.exists_make_iff, fun t h => ⟨Recipe.draft_of_make h, t.fits_draft⟩,
    fun e => ⟨r.make_eq_error_iff, fun h => (r.make_eq_error_iff.mp h).kind_eq⟩⟩,
    fun t f name => ⟨fun hf => ?_, kind_of_not_increasing f name⟩⟩
  obtain ⟨u, hu⟩ := exists_mapped hf name
  refine ⟨u, hu, draft_of_mapped hu, mapped_mapped hu, fun x hx hzero => ?_⟩
  obtain ⟨i, hi, howns⟩ := t.exists_select hx
  have hkeep : ∀ b ∈ t.boundaries, Meets b x → Meets (f b) (f x) := fun b _ h =>
    Double.meets_map (Double.placed_of_isFinite (hf.isFinite hx)) hzero h
  exact ⟨i, moved hu i, hi, u.select_eq_ok_iff.mpr (owns_moved hu hf hkeep howns), rfl, meridian_moved hu i⟩

theorem increases_horizontalShift {c : Circular} (hcos : Scalar.cos (0.0 : Double c) = 1.0)
    {t : LobeTable (Double c)} (h : t.checkGeographic Constants.spanTolerance = .ok ()) :
    t.Increases Seam.horizontalShift := by
  have hwest := t.finite_left ⟨0, t.meridians_pos⟩
  have heast := t.finite_right ⟨t.meridians.size - 1, Nat.sub_one_lt_of_lt t.meridians_pos⟩
  obtain ⟨hlow, -, hhigh⟩ := Double.ends_of_check h
  have hfinite {x : Double c} (hx : Within t.west t.east x) : isFinite x = true :=
    Double.isFinite_iff.mpr
      (Double.below_of_between (Double.isFinite_iff.mp hwest) (Double.isFinite_iff.mp heast) hx.1 hx.2)
  have hshift {x : Double c} (hx : Within t.west t.east x) := by
    have hle := (Double.le_iff_value hwest (hfinite hx)).mp hx.1
    have hge := (Double.le_iff_value (hfinite hx) heast).mp hx.2
    have hsize : |x.value| ≤ 4 := abs_le.mpr ⟨hlow.trans hle, hge.trans hhigh⟩
    exact Double.value_horizontalShift hcos (hfinite hx) (hsize.trans (by norm_num))
  refine ⟨fun hx => (hshift hx).1, fun hx hy hxy => ?_⟩
  rw [Double.lt_iff_value (hshift hx).1 (hshift hy).1, (hshift hx).2, (hshift hy).2]
  exact (Double.lt_iff_value (hfinite hx) (hfinite hy)).mp hxy

/-- The usual southern table, moved to the equator: a cut belongs to the lobe east of it, before and after, and zero
to the lobe around it. A function with one value makes no table of it. -/
theorem moved_table_spec_south : ∃ t : LobeTable (Double .slight), LobeTable.south = .ok t ∧
    (Recipe.ofDegrees ⟨"south", Constants.southCuts, Constants.southMeridians⟩ : Recipe (Double .slight)).Sound ∧
    (∃ u, t.mapped Seam.horizontalShift "equator" = .ok u ∧ ∀ x ∈ [Constants.tableRadians (-20.0), 0.0],
      ∃ i j, t.select x = .ok i ∧ u.select (Seam.horizontalShift x) = .ok j ∧ j.val = i.val) ∧
    ∃ e, t.mapped (fun _ => 0.0) "point" = .error e ∧ e.kind = .configuration := by
  obtain ⟨⟨⟩, h⟩ := Homolosine.exists_of_isOk (r := do
    let t ← (LobeTable.south : Except _ (LobeTable (Double .slight)))
    t.checkGeographic Constants.spanTolerance
    let _ ← [Constants.tableRadians (-20.0), 0.0].mapM t.select) (by decide +kernel)
  obtain ⟨t, ht, h⟩ := bind_eq_ok_iff.mp h
  obtain ⟨⟨⟩, hcheck, h⟩ := bind_eq_ok_iff.mp h
  obtain ⟨lobes, hlobes, -⟩ := bind_eq_ok_iff.mp h
  have hcos : Scalar.cos (0.0 : Double .slight) = 1.0 := rfl
  have hzeros : Meets (Seam.horizontalShift (-0.0)) (Seam.horizontalShift (0.0 : Double .slight)) := by decide +kernel
  have hflat : ¬ (0.0 : Double .slight) < 0.0 := by decide +kernel
  obtain ⟨hrecipes, hmoves⟩ := moved_table_spec (c := .slight)
  obtain ⟨u, hu, -, -, hselect⟩ :=
    (hmoves t Seam.horizontalShift "equator").1 (increases_horizontalShift hcos hcheck)
  have hsize : 0 + 1 < t.boundaries.size := by
    have hsize := t.boundaries_size
    have hpos := t.meridians_pos
    omega
  refine ⟨t, ht, (hrecipes _).1.mp ⟨t, ht⟩, ⟨u, hu, fun x hx => ?_⟩,
    (hmoves t (fun _ => 0.0) "point").2 ⟨0, hsize, hflat⟩⟩
  obtain ⟨i, hi⟩ := exists_of_mapM hlobes x hx
  obtain ⟨i, j, hti, huj, hji, -⟩ := hselect x (t.within_of_owns (t.select_eq_ok_iff.mp hi)) fun _ => hzeros
  exact ⟨i, j, hti, huj, hji⟩

/-- The identity, but for the negative zero. -/
def lowerNegativeZero {c : Circular} (x : Double c) : Double c :=
  if Meets x 0.0 ∧ copySign 1.0 x < 0.0 then -1.0 else x

theorem increases_lowerNegativeZero {t : LobeTable (Double .native)} (hwest : t.west = 0.0) :
    t.Increases lowerNegativeZero := by
  have heast := t.finite_right ⟨t.meridians.size - 1, Nat.sub_one_lt_of_lt t.meridians_pos⟩
  have hlow : isFinite (-1.0 : Double .native) = true ∧ (-1.0 : Double .native) ≤ 0.0 := by decide +kernel
  refine ⟨fun {x} hx => ?_, fun {x y} hx _ hxy => ?_⟩
  · unfold lowerNegativeZero
    split_ifs
    · exact hlow.1
    · exact Double.isFinite_iff.mpr (Double.below_of_between
        (Double.isFinite_iff.mp (t.finite_left ⟨0, t.meridians_pos⟩)) (Double.isFinite_iff.mp heast) hx.1 hx.2)
  · have hzero : (0.0 : Double .native) ≤ x := hwest ▸ hx.1
    have hy : ¬ (Meets y 0.0 ∧ copySign 1.0 y < 0.0) := fun h =>
      LawfulOrder.not_lt_of_le (LawfulOrder.le_trans h.1.1 hzero) hxy
    rw [lowerNegativeZero, lowerNegativeZero, if_neg hy]
    split_ifs
    · by_contra hnot
      have hle := LawfulOrder.le_of_not_lt (LawfulOrder.placed_left hlow.2)
        (LawfulOrder.placed_right (LawfulOrder.le_of_lt hxy)) hnot
      exact LawfulOrder.not_lt_of_le (LawfulOrder.le_trans hle (LawfulOrder.le_trans hlow.2 hzero)) hxy
    · exact hxy

/-- A function that is finite and strictly increasing on the range, but not the same number at the two zeros, takes the
negative zero from its lobe. -/
theorem not_select_lowerNegativeZero : ∃ t u : LobeTable (Double .native), t.boundaries = #[0.0, 1.0] ∧
    t.Increases lowerNegativeZero ∧ t.mapped lowerNegativeZero "u" = .ok u ∧ Within t.west t.east (-0.0) ∧
    (∃ i, t.select (-0.0) = .ok i) ∧ ∃ e, u.select (lowerNegativeZero (-0.0)) = .error e := by
  obtain ⟨t, ht⟩ := Homolosine.exists_of_isOk
    (r := LobeTable.build "t" #[(0.0 : Double .native), 1.0] #[0.5]) (by decide +kernel)
  obtain ⟨-, hboundaries, hmeridians⟩ := LobeTable.build_eq_ok ht
  have hwest : t.west = 0.0 := by simp [west, left, hboundaries]
  have heast : t.east = 1.0 := by simp [east, right, hboundaries, hmeridians]
  have hf := increases_lowerNegativeZero hwest
  obtain ⟨u, hu⟩ := exists_mapped hf "u"
  obtain ⟨-, hmoved, -⟩ := LobeTable.build_eq_ok hu
  have hx : Within t.west t.east (-0.0) := by
    rw [hwest, heast]
    decide +kernel
  obtain ⟨i, hi, -⟩ := t.exists_select hx
  have huwest : u.west = lowerNegativeZero 0.0 := by simp [west, left, hmoved, hboundaries]
  have hlow : ¬ lowerNegativeZero (0.0 : Double .native) ≤ lowerNegativeZero (-0.0) := by decide +kernel
  exact ⟨t, u, hboundaries, hf, hu, hx, ⟨i, hi⟩, _, if_neg fun h => hlow (huwest ▸ h.1)⟩

end LobeTable
end GoodeMap
