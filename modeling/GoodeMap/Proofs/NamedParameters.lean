import GoodeMap.Wording
import GoodeMap.Proofs.Coverage
import GoodeMap.Proofs.Traversal
import GoodeMap.Proofs.UnitConversion

/-! Parameters by name. A mapping has no order, so neither acceptance nor the accepted set may depend on the order
in which the names come; and no accepted set has a radius that something cannot be divided by. -/
namespace GoodeMap
open Scalar

class FiniteOrder (α : Type) [Scalar α] : Prop extends LawfulOrder α where
  placed_zero : (0.0 : α) ≤ 0.0
  placed_of_isFinite {x : α} : isFinite x = true → x ≤ x

instance : FiniteOrder ℝ where
  placed_zero := le_rfl
  placed_of_isFinite _ := le_rfl

instance {c : Binary64.Circular} : FiniteOrder (Double c) where
  placed_zero := by
    have hnative : (0.0 : Double .native) ≤ 0.0 := by decide +kernel
    exact hnative
  placed_of_isFinite := Double.placed_of_isFinite

section
variable {β : Type}

theorem mem_of_lookup {l : List (String × β)} {name : String} {value : β} (h : l.lookup name = some value) :
    (name, value) ∈ l := by
  obtain ⟨before, after, rfl, -⟩ := List.lookup_eq_some_iff.mp h
  exact List.mem_append_right before List.mem_cons_self

theorem lookup_eq_none_iff_not_mem {l : List (String × β)} {name : String} :
    l.lookup name = none ↔ name ∉ l.map (·.1) := by
  rw [List.lookup_eq_none_iff]
  simp only [List.mem_map, not_exists, not_and, bne_iff_ne, ne_eq]
  exact ⟨fun h e he heq => h e he heq.symm, fun h e he heq => h e he heq.symm⟩

end

namespace Parameters
section
variable {α : Type} {p q : Parameters α}

theorem lookup_semiMajor (p : Parameters α) : p.fields.lookup "semi_major" = some p.semiMajor := rfl

theorem lookup_semiMinor (p : Parameters α) : p.fields.lookup "semi_minor" = some p.semiMinor := rfl

theorem ext_fields (h : ∀ name ∈ names, p.fields.lookup name = q.fields.lookup name) : p = q := by
  obtain ⟨a, b, m, x, y⟩ := p
  obtain ⟨a', b', m', x', y'⟩ := q
  have hmajor : some a = some a' := h "semi_major" (by decide)
  have hminor : some b = some b' := h "semi_minor" (by decide)
  have hmeridian : some m = some m' := h "central_meridian" (by decide)
  have heasting : some x = some x' := h "false_easting" (by decide)
  have hnorthing : some y = some y' := h "false_northing" (by decide)
  cases hmajor
  cases hminor
  cases hmeridian
  cases heasting
  cases hnorthing
  rfl

theorem exists_set (p : Parameters α) {name : String} (hname : name ∈ names) (value : α) :
    ∃ q, p.set? name value = some q ∧ q.fields.lookup name = some value ∧
      ∀ other, other ≠ name → q.fields.lookup other = p.fields.lookup other := by
  simp only [names, List.mem_cons, List.not_mem_nil, or_false] at hname
  rcases hname with rfl | rfl | rfl | rfl | rfl <;> refine ⟨_, rfl, rfl, fun other hother => ?_⟩ <;>
    simp only [fields, names, values, List.zip_cons_cons, List.lookup_cons, beq_eq_false_iff_ne.mpr hother]

/-- Values with different names do not get into each other's way. -/
theorem exists_assign {l : List (String × α)} (hknown : ∀ e ∈ l, e.1 ∈ names) (hl : (l.map (·.1)).Nodup)
    (p : Parameters α) : ∃ q, assign p l = .ok q ∧ (∀ e ∈ l, q.fields.lookup e.1 = some e.2) ∧
      ∀ name, name ∉ l.map (·.1) → q.fields.lookup name = p.fields.lookup name := by
  induction l generalizing p with
  | nil => exact ⟨p, rfl, nofun, fun _ _ => rfl⟩
  | cons d l ih =>
    obtain ⟨name, value⟩ := d
    rw [List.map_cons, List.nodup_cons] at hl
    obtain ⟨r, hr, hvalue, hothers⟩ := exists_set p (hknown _ List.mem_cons_self) value
    obtain ⟨q, hq, hentries, hrest⟩ := ih (fun e he => hknown e (List.mem_cons_of_mem _ he)) hl.2 r
    refine ⟨q, ?_, ?_, fun other hother => ?_⟩
    · rw [assign, hr]
      exact hq
    · exact List.forall_mem_cons.mpr ⟨(hrest name hl.1).trans hvalue, hentries⟩
    · rw [List.map_cons, List.mem_cons, not_or] at hother
      exact (hrest other hother.2).trans (hothers other hother.1)

variable {U : Type} {given : List (String × Given U α)}

theorem mem_unknownNames {name : String} : name ∈ unknownNames given ↔ name ∈ given.map (·.1) ∧ name ∉ names := by
  rw [unknownNames, List.mem_mergeSort, List.mem_filter, decide_eq_true_iff]

theorem pairwise_unknownNames (hkeys : (given.map (·.1)).Nodup) : (unknownNames given).Pairwise (· < ·) := by
  have htrans (a b c : String) : decide (a ≤ b) = true → decide (b ≤ c) = true → decide (a ≤ c) = true := by
    simpa using le_trans
  have htotal (a b : String) : (decide (a ≤ b) || decide (b ≤ a)) = true := by
    simpa using le_total a b
  have hsorted : (unknownNames given).Pairwise fun a b => decide (a ≤ b) = true :=
    List.pairwise_mergeSort htrans htotal _
  have hnodup : (unknownNames given).Nodup := (List.mergeSort_perm _ _).nodup_iff.mpr (hkeys.filter _)
  exact (hsorted.and hnodup).imp fun h => lt_of_le_of_ne (of_decide_eq_true h.1) h.2

/-- One value is added at most. -/
theorem complete_cases (l : List (String × α)) :
    (∃ a, ("semi_major", a) ∈ l ∧ "semi_minor" ∉ l.map (·.1) ∧ complete l = l ++ [("semi_minor", a)]) ∨
      ("semi_major" ∈ l.map (·.1) → "semi_minor" ∈ l.map (·.1)) ∧ complete l = l := by
  unfold complete
  cases hmajor : l.lookup "semi_major" with
  | none => exact .inr ⟨fun h => absurd h (lookup_eq_none_iff_not_mem.mp hmajor), rfl⟩
  | some a =>
    cases hminor : l.lookup "semi_minor" with
    | none => exact .inl ⟨a, mem_of_lookup hmajor, lookup_eq_none_iff_not_mem.mp hminor, rfl⟩
    | some b =>
      refine .inr ⟨fun _ => ?_, rfl⟩
      by_contra h
      cases hminor.symm.trans (lookup_eq_none_iff_not_mem.mpr h)

end

variable {α : Type} [Scalar α]

structure Proper (p : Parameters α) : Prop where
  finite : ∀ v ∈ p.values, isFinite v = true
  semiMinor_pos : 0.0 < p.semiMinor
  semiMinor_le : p.semiMinor ≤ p.semiMajor

variable {U D : Type} {registry : UnitRegistry U α} {dimension : U → D} {factor : U → U → α}

/-- What named values stand for: the values in their own units, a lone semi-major axis as a radius, and the earth's
parameters in place of the others. -/
structure Completes (registry : UnitRegistry U α) (dimension : U → D) (factor : U → U → α)
    (given : List (String × Given U α)) (p : Parameters α) : Prop where
  given_eq : ∀ e ∈ given, ∃ y, Amounts registry dimension factor e.1 e.2 y ∧ p.fields.lookup e.1 = some y
  radius_eq : "semi_major" ∈ given.map (·.1) → "semi_minor" ∉ given.map (·.1) → p.semiMinor = p.semiMajor
  default_eq : ∀ name ∈ names, name ∉ given.map (·.1) →
    (name = "semi_minor" → "semi_major" ∉ given.map (·.1)) → p.fields.lookup name = earth.fields.lookup name

section
variable [FiniteOrder α] {p q : Parameters α}

theorem Proper.semiMajor_pos (h : p.Proper) : 0.0 < p.semiMajor :=
  LawfulOrder.lt_of_lt_of_le h.semiMinor_pos h.semiMinor_le

/-- The three checks together. -/
theorem check_eq_ok_iff : p.check = .ok q ↔ q = p ∧ p.Proper := by
  constructor
  · intro h
    unfold check at h
    split_ifs at h with hfinite haxes horder
    cases h
    have hmajor := FiniteOrder.placed_of_isFinite (hfinite p.semiMajor (by simp [values]))
    have hminor := FiniteOrder.placed_of_isFinite (hfinite p.semiMinor (by simp [values]))
    refine ⟨rfl, hfinite, ?_, LawfulOrder.le_of_not_lt hmajor hminor horder⟩
    by_contra hpos
    exact haxes (.inr (LawfulOrder.le_of_not_lt FiniteOrder.placed_zero hminor hpos))
  · rintro ⟨rfl, h⟩
    have haxes : ¬ (q.semiMajor ≤ 0.0 ∨ q.semiMinor ≤ 0.0) := by
      rintro (hmajor | hminor)
      · exact LawfulOrder.not_lt_of_le hmajor h.semiMajor_pos
      · exact LawfulOrder.not_lt_of_le hminor h.semiMinor_pos
    rw [check, if_neg (not_not.mpr h.finite), if_neg haxes, if_neg (LawfulOrder.not_lt_of_le h.semiMinor_le)]

theorem not_meets_semiMajor (h : p.Proper) : ¬ Meets p.semiMajor 0.0 :=
  fun hzero => LawfulOrder.not_lt_of_le hzero.1 h.semiMajor_pos

theorem exists_ellipsoid (h : p.Proper) : ∃ e, p.ellipsoid = .ok e ∧ e.semiMajor = p.semiMajor ∧
    e.flattening = (p.semiMajor - p.semiMinor) / p.semiMajor :=
  ⟨_, if_neg (not_meets_semiMajor h), rfl, rfl⟩

end

section
variable {given given' : List (String × Given U α)} {p q : Parameters α}

theorem ofMapping_of_unknown (h : ∃ e ∈ given, e.1 ∉ names) :
    ofMapping registry given = .error (.unknownParameters (unknownNames given) names) := by
  obtain ⟨e, he, hname⟩ := h
  have hmem : e.1 ∈ unknownNames given := mem_unknownNames.mpr ⟨List.mem_map_of_mem he, hname⟩
  unfold ofMapping
  split
  · next hnil =>
    rw [hnil] at hmem
    cases hmem
  · rfl

theorem ofMapping_of_known (h : ∀ e ∈ given, e.1 ∈ names) : ofMapping registry given =
    (given.mapM fun e => do return (e.1, ← convert registry e.1 e.2)) >>= fun converted =>
      ofFields (complete converted) := by
  have hnil : unknownNames given = [] := by
    refine List.eq_nil_iff_forall_not_mem.mpr fun name hname => ?_
    obtain ⟨hmem, hunknown⟩ := mem_unknownNames.mp hname
    obtain ⟨e, he, rfl⟩ := List.mem_map.mp hmem
    exact hunknown (h e he)
  rw [ofMapping, hnil]

/-- The set that named values stand for is the only one. -/
theorem Completes.unique (hunits : registry.Multiplies dimension factor)
    (hp : Completes registry dimension factor given p) (hq : Completes registry dimension factor given q) :
    p = q := by
  have hmem {name : String} (hname : name ∈ given.map (·.1)) : p.fields.lookup name = q.fields.lookup name := by
    obtain ⟨e, he, rfl⟩ := List.mem_map.mp hname
    obtain ⟨x, hx, hpx⟩ := hp.given_eq e he
    obtain ⟨y, hy, hqy⟩ := hq.given_eq e he
    rw [hpx, hqy, hx.unique hunits hy]
  refine ext_fields fun name hname => ?_
  by_cases hgiven : name ∈ given.map (·.1)
  · exact hmem hgiven
  · by_cases hradius : name = "semi_minor" ∧ "semi_major" ∈ given.map (·.1)
    · obtain ⟨rfl, hmajor⟩ := hradius
      have heq := hmem hmajor
      rw [lookup_semiMajor, lookup_semiMajor] at heq
      rw [lookup_semiMinor, lookup_semiMinor, hp.radius_eq hmajor hgiven, hq.radius_eq hmajor hgiven, heq]
    · have hlone : name = "semi_minor" → "semi_major" ∉ given.map (·.1) := fun h hmajor => hradius ⟨h, hmajor⟩
      exact (hp.default_eq name hname hgiven hlone).trans (hq.default_eq name hname hgiven hlone).symm

theorem Completes.perm (hperm : given'.Perm given) (h : Completes registry dimension factor given p) :
    Completes registry dimension factor given' p where
  given_eq e he := h.given_eq e (hperm.mem_iff.mp he)
  radius_eq hmajor hminor := h.radius_eq ((hperm.map _).mem_iff.mp hmajor) (mt (hperm.map _).mem_iff.mpr hminor)
  default_eq name hname hgiven hlone := h.default_eq name hname (mt (hperm.map _).mem_iff.mpr hgiven)
    fun heq hmajor => hlone heq ((hperm.map _).mem_iff.mpr hmajor)

def Converted (registry : UnitRegistry U α) (given : List (String × Given U α)) (l : List (String × α)) : Prop :=
  List.Forall₂ (fun e d => d.1 = e.1 ∧ convert registry e.1 e.2 = .ok d.2) given l

variable {l : List (String × α)}

theorem mapM_convert_iff :
    (given.mapM fun e => do return (e.1, ← convert registry e.1 e.2)) = .ok l ↔ Converted registry given l := by
  have hstep (e : String × Given U α) (d : String × α) :
      (do return (e.1, ← convert registry e.1 e.2)) = (.ok d : Except (Failure α) _) ↔
        d.1 = e.1 ∧ convert registry e.1 e.2 = .ok d.2 := by
    obtain ⟨name, x⟩ := d
    cases convert registry e.1 e.2 <;> simp [bind, Except.bind, pure, Except.pure, eq_comm]
  simp only [mapM_eq_ok_iff, Converted, hstep]

theorem Converted.keys_eq (h : Converted registry given l) : l.map (·.1) = given.map (·.1) := by
  induction h with
  | nil => rfl
  | cons hd _ ih => exact congrArg₂ List.cons hd.1 ih

theorem Converted.exists_mem (h : Converted registry given l) {e : String × Given U α} (he : e ∈ given) :
    ∃ x, convert registry e.1 e.2 = .ok x ∧ (e.1, x) ∈ l := by
  induction h with
  | nil => cases he
  | cons hd _ ih =>
    rcases List.mem_cons.mp he with rfl | he
    · exact ⟨_, hd.2, List.mem_cons.mpr (.inl (Prod.ext hd.1.symm rfl))⟩
    · obtain ⟨x, hx, hmem⟩ := ih he
      exact ⟨x, hx, List.mem_cons_of_mem _ hmem⟩

theorem exists_converted (h : ∀ e ∈ given, ∃ x, convert registry e.1 e.2 = .ok x) :
    ∃ l, Converted registry given l := by
  induction given with
  | nil => exact ⟨[], .nil⟩
  | cons e given ih =>
    obtain ⟨⟨x, hx⟩, hrest⟩ := List.forall_mem_cons.mp h
    obtain ⟨l, hl⟩ := ih hrest
    exact ⟨(e.1, x) :: l, .cons ⟨rfl, hx⟩ hl⟩

theorem Converted.exists_completes (hunits : registry.Multiplies dimension factor) (h : Converted registry given l)
    (hknown : ∀ e ∈ given, e.1 ∈ names) (hkeys : (given.map (·.1)).Nodup) :
    ∃ p, assign earth (complete l) = .ok p ∧ Completes registry dimension factor given p := by
  have hl : (l.map (·.1)).Nodup := h.keys_eq ▸ hkeys
  have hnames : ∀ d ∈ l, d.1 ∈ names := by
    intro d hd
    have hmem : d.1 ∈ given.map (·.1) := h.keys_eq ▸ List.mem_map_of_mem hd
    obtain ⟨e, he, heq⟩ := List.mem_map.mp hmem
    exact heq ▸ hknown e he
  rcases complete_cases l with ⟨a, hmajor, hminor, hcomplete⟩ | ⟨hminor, hcomplete⟩
  · have hkeys' : ((l ++ [("semi_minor", a)]).map (·.1)).Nodup := by
      rw [List.map_append]
      exact hl.append (List.nodup_singleton _) (List.disjoint_singleton.mpr hminor)
    have hnames' : ∀ d ∈ l ++ [("semi_minor", a)], d.1 ∈ names := by
      simpa [or_imp, forall_and, names] using hnames
    obtain ⟨p, hp, hentries, hrest⟩ := exists_assign hnames' hkeys' earth
    rw [hcomplete]
    refine ⟨p, hp, ⟨fun e he => ?_, fun _ _ => ?_, fun name _ hname hlone => ?_⟩⟩
    · obtain ⟨x, hx, hmem⟩ := h.exists_mem he
      exact ⟨x, (convert_eq_ok_iff hunits).mp hx, hentries _ (List.mem_append_left _ hmem)⟩
    · have hvalue := hentries _ (List.mem_append_left _ hmajor)
      have hcopy := hentries _ (List.mem_append_right _ (List.mem_singleton_self _))
      rw [lookup_semiMajor] at hvalue
      rw [lookup_semiMinor] at hcopy
      exact Option.some.inj (hcopy.trans hvalue.symm)
    · refine hrest name ?_
      rw [List.map_append, List.mem_append, h.keys_eq, List.map_singleton, List.mem_singleton, not_or]
      refine ⟨hname, fun hlast => hlone hlast ?_⟩
      exact h.keys_eq ▸ List.mem_map_of_mem hmajor
  · obtain ⟨p, hp, hentries, hrest⟩ := exists_assign hnames hl earth
    rw [hcomplete]
    refine ⟨p, hp, ⟨fun e he => ?_, fun hgiven hnot => ?_, fun name _ hname _ => ?_⟩⟩
    · obtain ⟨x, hx, hmem⟩ := h.exists_mem he
      exact ⟨x, (convert_eq_ok_iff hunits).mp hx, hentries _ hmem⟩
    · rw [← h.keys_eq] at hgiven hnot
      exact absurd (hminor hgiven) hnot
    · exact hrest name (h.keys_eq ▸ hname)

section
variable (hunits : registry.Multiplies dimension factor)
include hunits

theorem Completes.converts (h : Completes registry dimension factor given p) :
    ∀ e ∈ given, ∃ x, convert registry e.1 e.2 = .ok x := by
  intro e he
  obtain ⟨x, hx, -⟩ := h.given_eq e he
  exact ⟨x, (convert_eq_ok_iff hunits).mpr hx⟩

/-- What known names with all their values come to. -/
theorem exists_completes (hknown : ∀ e ∈ given, e.1 ∈ names) (hkeys : (given.map (·.1)).Nodup)
    (h : ∀ e ∈ given, ∃ x, convert registry e.1 e.2 = .ok x) :
    ∃ p, Completes registry dimension factor given p ∧ ofMapping registry given = p.check := by
  obtain ⟨l, hl⟩ := exists_converted h
  obtain ⟨p, hp, hcompletes⟩ := hl.exists_completes hunits hknown hkeys
  refine ⟨p, hcompletes, ?_⟩
  rw [ofMapping_of_known hknown, mapM_convert_iff.mpr hl]
  change (assign earth (complete l) >>= check) = p.check
  rw [hp]
  rfl

theorem exists_completes_iff (hknown : ∀ e ∈ given, e.1 ∈ names) (hkeys : (given.map (·.1)).Nodup) :
    (∃ p, Completes registry dimension factor given p) ↔
      ∀ e ∈ given, ∃ y, Amounts registry dimension factor e.1 e.2 y := by
  constructor
  · rintro ⟨p, hp⟩ e he
    obtain ⟨y, hy, -⟩ := hp.given_eq e he
    exact ⟨y, hy⟩
  · intro h
    obtain ⟨p, hp, -⟩ := exists_completes hunits hknown hkeys fun e he =>
      (h e he).imp fun _ => (convert_eq_ok_iff hunits).mpr
    exact ⟨p, hp⟩

theorem ofMapping_eq_ok_iff [FiniteOrder α] (hknown : ∀ e ∈ given, e.1 ∈ names)
    (hkeys : (given.map (·.1)).Nodup) :
    ofMapping registry given = .ok p ↔ Completes registry dimension factor given p ∧ p.Proper := by
  constructor
  · intro h
    have hconverts : ∀ e ∈ given, ∃ x, convert registry e.1 e.2 = .ok x := by
      rw [ofMapping_of_known hknown] at h
      obtain ⟨l, hl, -⟩ := bind_eq_ok_iff.mp h
      intro e he
      obtain ⟨x, hx, -⟩ := (mapM_convert_iff.mp hl).exists_mem he
      exact ⟨x, hx⟩
    obtain ⟨q, hq, hcheck⟩ := exists_completes hunits hknown hkeys hconverts
    obtain ⟨rfl, hproper⟩ := check_eq_ok_iff.mp (hcheck.symm.trans h)
    exact ⟨hq, hproper⟩
  · rintro ⟨hp, hproper⟩
    obtain ⟨q, hq, hcheck⟩ := exists_completes hunits hknown hkeys (hp.converts hunits)
    exact hcheck.trans (check_eq_ok_iff.mpr ⟨hp.unique hunits hq, hp.unique hunits hq ▸ hproper⟩)

theorem ofMapping_perm [FiniteOrder α] (hkeys : (given.map (·.1)).Nodup) (hperm : given'.Perm given) :
    ofMapping registry given' = .ok p ↔ ofMapping registry given = .ok p := by
  by_cases hknown : ∀ e ∈ given, e.1 ∈ names
  · have hknown' : ∀ e ∈ given', e.1 ∈ names := fun e he => hknown e (hperm.mem_iff.mp he)
    rw [ofMapping_eq_ok_iff hunits hknown hkeys,
      ofMapping_eq_ok_iff hunits hknown' ((hperm.map _).nodup_iff.mpr hkeys)]
    exact and_congr_left' ⟨Completes.perm hperm.symm, Completes.perm hperm⟩
  · push Not at hknown
    obtain ⟨e, he, hname⟩ := hknown
    rw [ofMapping_of_unknown ⟨e, he, hname⟩, ofMapping_of_unknown ⟨e, hperm.mem_iff.mpr he, hname⟩]
    exact iff_of_false nofun nofun

end

theorem proper_of_ofMapping [FiniteOrder α] (h : ofMapping registry given = .ok p) : p.Proper := by
  unfold ofMapping at h
  split at h
  · obtain ⟨l, -, h⟩ := bind_eq_ok_iff.mp h
    obtain ⟨q, -, h⟩ := bind_eq_ok_iff.mp h
    obtain ⟨rfl, hproper⟩ := check_eq_ok_iff.mp h
    exact hproper
  · cases h

end

/-- Over the real numbers a flattening gives the axes back. -/
theorem exists_ellipsoid_real {p : Parameters ℝ} (h : p.Proper) : ∃ e, p.ellipsoid = .ok e ∧
    e.semiMinor = p.semiMinor ∧ (e.IsSphere ↔ p.semiMajor = p.semiMinor) := by
  obtain ⟨e, he, hmajor, hflattening⟩ := exists_ellipsoid h
  have hone : (1.0 : ℝ) = 1 := by norm_num
  have hzero : (0.0 : ℝ) = 0 := by norm_num
  have hne : p.semiMajor ≠ 0 := fun heq => not_meets_semiMajor h (meets_iff.mpr (heq.trans hzero.symm))
  refine ⟨e, he, ?_, ?_⟩
  · rw [Ellipsoid.semiMinor, hmajor, hflattening, hone]
    field_simp
    ring
  · rw [Ellipsoid.IsSphere, meets_iff, hflattening, hzero, div_eq_zero_iff, sub_eq_zero]
    exact or_iff_left hne

section
variable {c : Binary64.Circular}

end

end Parameters
end GoodeMap
