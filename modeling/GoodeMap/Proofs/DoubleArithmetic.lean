import GoodeMap.Proofs.Doubles

/-! Arithmetic of doubles: what is no number stays none, numbers give numbers, and how far out results
can be. -/
namespace GoodeMap.Double
open Binary64
open Float.Model (Format UnpackedFloat)
open Float.Model.UnpackedFloat (Sign Accuracy)
variable {c : Circular}

theorem view_add (x y : Double c) : view (x + y) = stored (UnpackedFloat.add Format.binary64 (view x) (view y)) :=
  rfl

theorem view_sub (x y : Double c) : view (x - y) = stored (UnpackedFloat.sub Format.binary64 (view x) (view y)) :=
  rfl

theorem view_mul (x y : Double c) : view (x * y) = stored (UnpackedFloat.mul Format.binary64 (view x) (view y)) :=
  rfl

theorem view_div (x y : Double c) : view (x / y) = stored (UnpackedFloat.div Format.binary64 (view x) (view y)) :=
  rfl

theorem view_zero : view (0.0 : Double c) = .zero .positive :=
  (rfl : (Float.toModel 0.0).unpack = .zero .positive)

theorem view_one : view (1.0 : Double c) = .finite .positive (2 ^ 52) (-52) (Nat.two_pow_pos 52) :=
  (rfl : (Float.toModel 1.0).unpack = .finite .positive (2 ^ 52) (-52) (Nat.two_pow_pos 52))

theorem view_two : view (2.0 : Double c) = .finite .positive (2 ^ 52) (-51) (Nat.two_pow_pos 52) :=
  (rfl : (Float.toModel 2.0).unpack = .finite .positive (2 ^ 52) (-51) (Nat.two_pow_pos 52))

theorem copySign_eq (x y : Double c) :
    Scalar.copySign x y = if Reading.negativeBit y then -Scalar.abs x else Scalar.abs x := rfl

theorem representable_view (x : Double c) : Representable (view x) := ⟨_, rfl⟩

theorem view_neg (x : Double c) : view (-x) = UnpackedFloat.neg (view x) :=
  (representable_view x).withSign.2.stored

theorem view_abs (x : Double c) : view (Scalar.abs x) = UnpackedFloat.abs (view x) :=
  (representable_view x).withSign.1.stored

theorem roundWithAccuracy_ne (s : Sign) (m : Nat) (e : Int) (a : Accuracy) :
    UnpackedFloat.roundWithAccuracy Format.binary64 s m e a ≠ .notANumber := by
  simp only [UnpackedFloat.roundWithAccuracy, shiftToTarget_eq]
  split <;> simp only [ne_eq, reduceCtorEq, not_false_eq_true]

theorem normalize_ne (m e : Int) (z : Sign) :
    UnpackedFloat.normalize Format.binary64 m e z ≠ .notANumber := by
  unfold UnpackedFloat.normalize
  split
  · exact roundWithAccuracy_ne _ _ _ _
  · nofun
  · exact roundWithAccuracy_ne _ _ _ _

section
variable {x y : Double c}

theorem placed_of_isFinite (h : Scalar.isFinite x = true) : x ≤ x := by
  rw [placed_iff]
  intro hnan
  rw [isFinite_iff, hnan] at h
  exact h

/-- What is no number stays none in every operation. -/
theorem placed_of_operation {op : UnpackedFloat → UnpackedFloat → UnpackedFloat}
    (hleft : ∀ v, op .notANumber v = .notANumber) (hright : ∀ u, op u .notANumber = .notANumber)
    {z : Double c} (hz : view z = stored (op (view x) (view y))) (h : z ≤ z) : x ≤ x ∧ y ≤ y := by
  rw [placed_iff, hz, ne_eq, stored_eq_notANumber_iff] at h
  rw [placed_iff, placed_iff]
  refine ⟨fun hx => h ?_, fun hy => h ?_⟩
  · rw [hx, hleft]
  · rw [hy, hright]

theorem placed_of_add (h : x + y ≤ x + y) : x ≤ x ∧ y ≤ y :=
  placed_of_operation (fun _ => rfl) (fun u => by cases u <;> rfl) (view_add x y) h

theorem placed_of_sub (h : x - y ≤ x - y) : x ≤ x ∧ y ≤ y :=
  placed_of_operation (fun _ => rfl) (fun u => by cases u <;> rfl) (view_sub x y) h

theorem placed_of_mul (h : x * y ≤ x * y) : x ≤ x ∧ y ≤ y :=
  placed_of_operation (fun _ => rfl) (fun u => by cases u <;> rfl) (view_mul x y) h

theorem placed_of_div (h : x / y ≤ x / y) : x ≤ x ∧ y ≤ y :=
  placed_of_operation (fun _ => rfl) (fun u => by cases u <;> rfl) (view_div x y) h

/-- A sum or a difference is a number if both terms are and one of them is finite. -/
theorem placed_add_and_sub (hx : x ≤ x) (hy : y ≤ y) (h : Scalar.isFinite x = true ∨ Scalar.isFinite y = true) :
    x + y ≤ x + y ∧ x - y ≤ x - y := by
  rw [isFinite_iff, isFinite_iff] at h
  rw [placed_iff, ne_eq] at hx hy
  rw [placed_iff, placed_iff, view_add, view_sub, ne_eq, ne_eq, stored_eq_notANumber_iff,
    stored_eq_notANumber_iff]
  cases hu : view x with
  | notANumber => exact absurd hu hx
  | infinity s =>
    cases hv : view y with
    | notANumber => exact absurd hv hy
    | infinity t =>
      rw [hu, hv] at h
      exact (h.elim id id).elim
    | zero t => exact ⟨nofun, nofun⟩
    | finite t n f hn => exact ⟨nofun, nofun⟩
  | zero s =>
    cases hv : view y with
    | notANumber => exact absurd hv hy
    | infinity t => exact ⟨nofun, nofun⟩
    | zero t => cases s <;> cases t <;> exact ⟨nofun, nofun⟩
    | finite t n f hn => exact ⟨nofun, nofun⟩
  | finite s m e hm =>
    cases hv : view y with
    | notANumber => exact absurd hv hy
    | infinity t => exact ⟨nofun, nofun⟩
    | zero t => exact ⟨nofun, nofun⟩
    | finite t n f hn => exact ⟨normalize_ne _ _ _, normalize_ne _ _ _⟩

theorem not_below_stored_notANumber {k : Int} : ¬ Below k (stored .notANumber) := by
  rw [stored_notANumber]
  exact id

theorem not_below_stored_infinity {k : Int} (s : Sign) : ¬ Below k (stored (.infinity s)) := by
  rw [stored_infinity]
  exact id

/-- Finite terms do not bring back what is not finite. -/
theorem isFinite_of_add_or_sub (hy : Scalar.isFinite y = true)
    (h : Scalar.isFinite (x + y) = true ∨ Scalar.isFinite (x - y) = true) : Scalar.isFinite x = true := by
  rw [isFinite_iff, view_add, isFinite_iff, view_sub] at h
  rw [isFinite_iff] at hy ⊢
  rcases below_view x with hx | ⟨s, hx⟩ | hx
  · rw [hx] at h
    exact absurd h (not_or.mpr ⟨not_below_stored_notANumber, not_below_stored_notANumber⟩)
  · rw [hx] at h
    have hinfinity : ¬ (Below 971 (stored (.infinity s)) ∨ Below 971 (stored (.infinity s))) :=
      not_or.mpr ⟨not_below_stored_infinity s, not_below_stored_infinity s⟩
    cases hv : view y with
    | notANumber => rw [hv] at hy; exact hy.elim
    | infinity t => rw [hv] at hy; exact hy.elim
    | zero t =>
      rw [hv] at h
      cases s <;> exact absurd h hinfinity
    | finite t n f hn =>
      rw [hv] at h
      cases s <;> exact absurd h hinfinity
  · exact hx

/-- A product is a number if both factors are and none of them is infinite while the other is zero. -/
theorem placed_mul (hx : Scalar.isFinite x = true) (hy : y ≤ y) (h : Scalar.isFinite y = true ∨ 0.0 < x) :
    x * y ≤ x * y := by
  rw [isFinite_iff] at hx h
  rw [placed_iff, ne_eq] at hy
  rw [placed_iff, view_mul, ne_eq, stored_eq_notANumber_iff]
  cases hu : view x with
  | notANumber => rw [hu] at hx; exact hx.elim
  | infinity s => rw [hu] at hx; exact hx.elim
  | zero s =>
    cases hv : view y with
    | notANumber => exact absurd hv hy
    | infinity t =>
      rw [hv, lt_iff_view, view_zero, hu] at h
      cases s <;> exact (h.elim id nofun).elim
    | zero t => nofun
    | finite t n f hn => nofun
  | finite s m e hm =>
    cases hv : view y with
    | notANumber => exact absurd hv hy
    | infinity t => nofun
    | zero t => nofun
    | finite t n f hn => exact roundWithAccuracy_ne _ _ _ _

theorem placed_div (hx : x ≤ x) (hy : Scalar.isFinite y = true) (h : 0.0 < y) : x / y ≤ x / y := by
  rw [isFinite_iff] at hy
  rw [placed_iff, ne_eq] at hx
  rw [placed_iff, view_div, ne_eq, stored_eq_notANumber_iff]
  cases hv : view y with
  | notANumber => rw [hv] at hy; exact hy.elim
  | infinity s => rw [hv] at hy; exact hy.elim
  | zero t =>
    rw [lt_iff_view, view_zero, hv] at h
    cases t <;> cases h
  | finite t n f hn =>
    cases hu : view x with
    | notANumber => exact absurd hu hx
    | infinity s => nofun
    | zero s => nofun
    | finite s m e hm => exact roundWithAccuracy_ne _ _ _ _

end

section
variable {x y : Double c} {j k : Int}

theorem below_add_sub (hx : Below j (view x)) (hy : Below k (view y)) (hlow : -1074 ≤ max j k)
    (hhigh : max j k + 2 ≤ 971) :
    Below (max j k + 2) (view (x + y)) ∧ Below (max j k + 2) (view (x - y)) := by
  have h := below_add_and_sub (l := max j k + 2) hx hy (by omega) (by omega)
    fun h₁ he₁ h₂ he₂ hm => below_total hlow h₁ he₁ h₂ he₂ hm
  exact ⟨h.1.stored (by omega) hhigh, h.2.stored (by omega) hhigh⟩

/-- A double far below the largest one does not make a sum overflow. -/
theorem isFinite_add_sub (hx : Scalar.isFinite x = true) (hy : Below 900 (view y)) :
    Scalar.isFinite (x + y) = true ∧ Scalar.isFinite (x - y) = true := by
  rw [isFinite_iff] at hx
  rw [isFinite_iff, isFinite_iff]
  have h := below_add_and_sub (l := 971) hx hy (by omega) (by omega)
    fun h₁ he₁ h₂ he₂ hm => below_total_modest h₁ he₁ h₂ he₂ hm
  exact ⟨h.1.stored (by omega) le_rfl, h.2.stored (by omega) le_rfl⟩

theorem isFinite_add_of_below (hx : Below 900 (view x)) (hy : Scalar.isFinite y = true) :
    Scalar.isFinite (x + y) = true := by
  rw [isFinite_iff] at hy ⊢
  refine (below_add_and_sub (l := 971) hx hy (by omega) (by omega) ?_).1.stored (by omega) le_rfl
  intro m₁ m₂ e₁ e₂ m h₁ he₁ h₂ he₂ hm z
  rw [min_comm, Nat.add_comm] at *
  exact below_total_modest h₂ he₂ h₁ he₁ hm z

theorem below_mul (hx : Below j (view x)) (hy : Below k (view y)) (hlow : -1074 ≤ j + k)
    (hhigh : j + k + 54 ≤ 971) : Below (j + k + 54) (view (x * y)) :=
  (hx.mul hy hlow).stored (by omega) hhigh

theorem below_half (hx : Below k (view x)) (hlow : -1074 < k) (hhigh : k ≤ 971) :
    Below k (view (x / 2.0)) := by
  rw [view_div, view_two]
  exact (hx.half hlow).stored hlow.le hhigh

theorem isFinite_half (hx : Scalar.isFinite x = true) : Scalar.isFinite (x / 2.0) = true :=
  isFinite_iff.mpr (below_half (isFinite_iff.mp hx) (by omega) le_rfl)

end

section
variable {x y : Double c} {k : Int}

theorem le_abs_iff {u v : UnpackedFloat} : UnpackedFloat.le (UnpackedFloat.abs u) v = true ↔
    UnpackedFloat.le (UnpackedFloat.neg v) u = true ∧ UnpackedFloat.le u v = true := by
  rcases u with (_ | _) | _ | _ | ⟨_ | _, m, e, hm⟩ <;> rcases v with (_ | _) | _ | _ | ⟨_ | _, n, f, hn⟩ <;>
    simp [UnpackedFloat.le, UnpackedFloat.compare, UnpackedFloat.abs, UnpackedFloat.neg,
      Ordering.isLE_iff_ne_gt, Ordering.isGE_iff_ne_lt, compare_then]
  · decide
  · exact fun _ => ⟨fun h heq => h heq.symm, fun h heq => h heq.symm⟩

theorem abs_le_iff : Scalar.abs x ≤ y ↔ -y ≤ x ∧ x ≤ y := by
  rw [le_iff_view, le_iff_view, le_iff_view, view_abs, view_neg, le_abs_iff]

theorem below_abs : Below k (view (Scalar.abs x)) ↔ Below k (view x) := by
  rw [view_abs]
  cases view x <;> rfl

theorem below_neg : Below k (view (-x)) ↔ Below k (view x) := by
  rw [view_neg]
  cases view x <;> rfl

theorem placed_abs : Scalar.abs x ≤ Scalar.abs x ↔ x ≤ x := by
  rw [placed_iff, placed_iff, view_abs]
  cases view x <;> simp [UnpackedFloat.abs]

theorem below_of_abs_le (hx : Scalar.abs x ≤ y) (hy : Below k (view y)) : Below k (view x) := by
  obtain ⟨hlow, hhigh⟩ := abs_le_iff.mp hx
  exact below_of_between (below_neg.mpr hy) hy hlow hhigh

theorem below_copySign : Below k (view (Scalar.copySign x y)) ↔ Below k (view x) := by
  rw [copySign_eq]
  split_ifs
  · rw [below_neg, below_abs]
  · rw [below_abs]

end

end GoodeMap.Double
