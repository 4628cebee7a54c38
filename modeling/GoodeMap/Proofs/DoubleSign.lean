import GoodeMap.Proofs.NearestDouble

/-! Doubles and their opposites. Rounding does not look at the sign, so an operation on opposite numbers gives
opposite numbers; only a sum that cancels comes out as the same zero both times. -/
namespace GoodeMap

def Scalar.Opposed {α : Type} [Scalar α] (x y : α) : Prop := y = -x ∨ Meets x 0.0 ∧ Meets y 0.0

namespace Binary64
open Float.Model (Format UnpackedFloat)
open Float.Model.UnpackedFloat (Sign Accuracy)

theorem sign_neg_neg (s : Sign) : - -s = s := by
  cases s <;> rfl

theorem neg_apply (s : Sign) (n : Int) : (-s).apply n = -s.apply n := by
  cases s with
  | positive => rfl
  | negative => exact (Int.neg_neg n).symm

protected theorem neg_neg (u : UnpackedFloat) : u.neg.neg = u := by
  cases u with
  | notANumber => rfl
  | infinity s => exact congrArg UnpackedFloat.infinity (sign_neg_neg s)
  | zero s => exact congrArg UnpackedFloat.zero (sign_neg_neg s)
  | finite s m e hm => exact congrArg (UnpackedFloat.finite · m e hm) (sign_neg_neg s)

protected theorem abs_neg (u : UnpackedFloat) : u.neg.abs = u.abs := by
  cases u <;> rfl

theorem roundWithAccuracy_neg (s : Sign) (m : Nat) (e : Int) (a : Accuracy) :
    UnpackedFloat.roundWithAccuracy Format.binary64 (-s) m e a =
      (UnpackedFloat.roundWithAccuracy Format.binary64 s m e a).neg := by
  simp only [UnpackedFloat.roundWithAccuracy]
  split <;> rfl

theorem normalize_neg {m : Int} (hm : m ≠ 0) (e : Int) (z : Sign) :
    UnpackedFloat.normalize Format.binary64 (-m) e z = (UnpackedFloat.normalize Format.binary64 m e z).neg := by
  rcases lt_or_gt_of_ne hm with h | h
  · have hneg : compare (-m) 0 = .gt := Int.compare_eq_gt.mpr (by omega)
    simp only [UnpackedFloat.normalize, Int.compare_eq_lt.mpr h, hneg, UnpackedFloat.round]
    exact roundWithAccuracy_neg .negative _ _ _
  · have hneg : compare (-m) 0 = .lt := Int.compare_eq_lt.mpr (by omega)
    simp only [UnpackedFloat.normalize, Int.compare_eq_gt.mpr h, hneg, Int.neg_neg, UnpackedFloat.round]
    exact roundWithAccuracy_neg .positive _ _ _

protected theorem mul_neg (u v : UnpackedFloat) : UnpackedFloat.mul Format.binary64 u v.neg =
    (UnpackedFloat.mul Format.binary64 u v).neg := by
  have hsign (s t : Sign) : s * -t = -(s * t) := by
    cases s <;> cases t <;> rfl
  cases u <;> cases v <;> try rfl
  all_goals simp only [UnpackedFloat.mul, UnpackedFloat.neg, hsign]
  exact roundWithAccuracy_neg _ _ _ _

protected theorem mul_comm (u v : UnpackedFloat) : UnpackedFloat.mul Format.binary64 u v =
    UnpackedFloat.mul Format.binary64 v u := by
  have hsign (s t : Sign) : s * t = t * s := by
    cases s <;> cases t <;> rfl
  cases u <;> cases v <;> try rfl
  all_goals simp only [UnpackedFloat.mul, hsign, Nat.mul_comm, Int.add_comm]

protected theorem neg_div (u v : UnpackedFloat) : UnpackedFloat.div Format.binary64 u.neg v =
    (UnpackedFloat.div Format.binary64 u v).neg := by
  have hsign (s t : Sign) : -s / t = -(s / t) := by
    cases s <;> cases t <;> rfl
  cases u <;> cases v <;> try rfl
  all_goals simp only [UnpackedFloat.div, UnpackedFloat.neg, hsign]
  exact roundWithAccuracy_neg _ _ _ _

theorem unpack_components_neg (s : Sign) (b : BitVec 11) (d : BitVec 52) :
    UnpackedFloat.unpack Format.binary64 (UnpackedFloat.packComponents Format.binary64 (-s) b d) =
      (UnpackedFloat.unpack Format.binary64 (UnpackedFloat.packComponents Format.binary64 s b d)).neg := by
  simp only [UnpackedFloat.unpack, UnpackedFloat.unpackExponent_packComponents,
    UnpackedFloat.unpackMantissa_packComponents, UnpackedFloat.unpackSign_packComponents, Sign.ofBitVec_toBitVec]
  split_ifs <;> rfl

theorem stored_neg (u : UnpackedFloat) : stored u.neg = (stored u).neg := by
  cases u with
  | notANumber => rfl
  | infinity s => cases s <;> rfl
  | zero s => cases s <;> rfl
  | finite s m e hm =>
    change UnpackedFloat.unpack _ (UnpackedFloat.pack _ _) = (UnpackedFloat.unpack _ (UnpackedFloat.pack _ _)).neg
    simp only [UnpackedFloat.pack, UnpackedFloat.neg]
    split_ifs
    · exact unpack_components_neg s _ _
    · exact unpack_components_neg s _ _
    · exact unpack_components_neg s _ _

def IsZero (u : UnpackedFloat) : Prop := ∃ s, u = .zero s

def Counter (u v : UnpackedFloat) : Prop := v = u.neg ∨ IsZero u ∧ IsZero v

section
variable {u v u' v' : UnpackedFloat}

theorem isZero_neg : IsZero u.neg ↔ IsZero u := by
  constructor
  · rintro ⟨s, h⟩
    exact ⟨-s, by rw [← Binary64.neg_neg u, h]; rfl⟩
  · rintro ⟨s, rfl⟩
    exact ⟨-s, rfl⟩

theorem isZero_stored (h : IsZero u) : IsZero (stored u) := by
  obtain ⟨s, rfl⟩ := h
  exact ⟨s, stored_zero s⟩

theorem Counter.isZero_iff (h : Counter u v) : IsZero v ↔ IsZero u := by
  rcases h with rfl | ⟨hu, hv⟩
  · exact isZero_neg
  · exact iff_of_true hv hu

theorem Counter.neg (h : Counter u v) : Counter u.neg v.neg := by
  rcases h with rfl | ⟨hu, hv⟩
  · exact .inl rfl
  · exact .inr ⟨isZero_neg.mpr hu, isZero_neg.mpr hv⟩

theorem Counter.stored (h : Counter u v) : Counter (stored u) (stored v) := by
  rcases h with rfl | ⟨hu, hv⟩
  · exact .inl (stored_neg u)
  · exact .inr ⟨isZero_stored hu, isZero_stored hv⟩

theorem isZero_add (hu : IsZero u) (hv : IsZero v) : IsZero (UnpackedFloat.add Format.binary64 u v) := by
  obtain ⟨s, rfl⟩ := hu
  obtain ⟨t, rfl⟩ := hv
  cases s <;> cases t <;> exact ⟨_, rfl⟩

protected theorem zero_add (hu : IsZero u) (hv : ¬ IsZero v) : UnpackedFloat.add Format.binary64 u v = v := by
  obtain ⟨s, rfl⟩ := hu
  cases v with
  | zero t => exact absurd ⟨t, rfl⟩ hv
  | notANumber => rfl
  | infinity t => rfl
  | finite t n f hn => rfl

protected theorem add_comm (u v : UnpackedFloat) : UnpackedFloat.add Format.binary64 u v =
    UnpackedFloat.add Format.binary64 v u := by
  rcases u with (_ | _) | _ | (_ | _) | ⟨s, m, e, hm⟩ <;> rcases v with (_ | _) | _ | (_ | _) | ⟨t, n, f, hn⟩ <;>
    try rfl
  simp only [UnpackedFloat.add, min_comm e f, Int.add_comm]

/-- The sums of opposite terms are opposite; they are both the positive zero where the terms cancel. -/
theorem counter_add_neg (u v : UnpackedFloat) :
    Counter (UnpackedFloat.add Format.binary64 u v) (UnpackedFloat.add Format.binary64 u.neg v.neg) := by
  rcases u with (_ | _) | _ | (_ | _) | ⟨s, m, e, hm⟩ <;> rcases v with (_ | _) | _ | (_ | _) | ⟨t, n, f, hn⟩
  case finite.finite =>
    simp only [UnpackedFloat.add, UnpackedFloat.neg, neg_apply, ← Int.neg_add]
    generalize s.apply _ + t.apply _ = k
    rcases eq_or_ne k 0 with rfl | hk
    · exact .inr ⟨⟨.positive, rfl⟩, .positive, rfl⟩
    · exact .inl (normalize_neg hk _ _)
  all_goals first | exact .inl rfl | exact .inr ⟨⟨_, rfl⟩, _, rfl⟩

/-- A zero changes no other term. -/
theorem Counter.zero_add (h : Counter v v') (hu : IsZero u) (hu' : IsZero u') :
    Counter (UnpackedFloat.add Format.binary64 u v) (UnpackedFloat.add Format.binary64 u' v') := by
  by_cases hv : IsZero v
  · exact .inr ⟨isZero_add hu hv, isZero_add hu' (h.isZero_iff.mpr hv)⟩
  · rw [Binary64.zero_add hu hv, Binary64.zero_add hu' (mt h.isZero_iff.mp hv)]
    exact h

theorem Counter.add (hu : Counter u u') (hv : Counter v v') :
    Counter (UnpackedFloat.add Format.binary64 u v) (UnpackedFloat.add Format.binary64 u' v') := by
  rcases hu with rfl | ⟨hzero, hzero'⟩
  · rcases hv with rfl | ⟨hzero, hzero'⟩
    · exact counter_add_neg u v
    · rw [Binary64.add_comm u, Binary64.add_comm u.neg]
      exact Counter.zero_add (.inl rfl) hzero hzero'
  · exact hv.zero_add hzero hzero'

/-- A zero times a number is a zero, and times an infinity it is no number. -/
theorem Counter.mul_left (h : Counter v v') (u : UnpackedFloat) :
    Counter (UnpackedFloat.mul Format.binary64 u v) (UnpackedFloat.mul Format.binary64 u v') := by
  rcases h with rfl | ⟨⟨s, rfl⟩, t, rfl⟩
  · exact .inl (Binary64.mul_neg u v)
  · cases u with
    | notANumber => exact .inl rfl
    | infinity r => exact .inl rfl
    | zero r => exact .inr ⟨⟨_, rfl⟩, _, rfl⟩
    | finite r m e hm => exact .inr ⟨⟨_, rfl⟩, _, rfl⟩

theorem Counter.div_right (h : Counter u u') (v : UnpackedFloat) :
    Counter (UnpackedFloat.div Format.binary64 u v) (UnpackedFloat.div Format.binary64 u' v) := by
  rcases h with rfl | ⟨⟨s, rfl⟩, t, rfl⟩
  · exact .inl (Binary64.neg_div u v)
  · cases v with
    | notANumber => exact .inl rfl
    | zero r => exact .inl rfl
    | infinity r => exact .inr ⟨⟨_, rfl⟩, _, rfl⟩
    | finite r m e hm => exact .inr ⟨⟨_, rfl⟩, _, rfl⟩

end

theorem lt_neg_iff {u v : UnpackedFloat} :
    UnpackedFloat.lt u.neg v.neg = true ↔ UnpackedFloat.lt v u = true := by
  rcases u with (_ | _) | _ | _ | ⟨_ | _, m, e, hm⟩ <;> rcases v with (_ | _) | _ | _ | ⟨_ | _, n, f, hn⟩ <;>
    simp [UnpackedFloat.lt, UnpackedFloat.compare, UnpackedFloat.neg, compare_then]
  · decide
  · exact or_congr_right (and_congr_left' eq_comm)
  · exact or_congr_right (and_congr_left' eq_comm)

/-- Every reading is that of one double only. -/
theorem pack_unpack (m : Float.Model) : Float.Model.pack m.unpack = m := by
  obtain ⟨bits, hvalid⟩ := m
  have hbits : UnpackedFloat.pack Format.binary64 (UnpackedFloat.unpack Format.binary64 bits.toBitVec) =
      bits.toBitVec := by
    rw [@UnpackedFloat.pack_unpack Format.binary64 bits.toBitVec (by decide)]
    split_ifs with hnan
    · simp only [UnpackedFloat.isNaNBits, decide_eq_true_eq] at hnan
      exact (hvalid.eq_packedNaN hnan.1 hnan.2).symm
    · rfl
  simp only [Float.Model.pack, Float.Model.unpack, hbits]

def isNegative : UnpackedFloat → Bool
  | .infinity .negative | .zero .negative | .finite .negative .. => true
  | _ => false

theorem shift_eq_one_iff (bits : UInt64) : (bits >>> 63 == 1) = true ↔
    @UnpackedFloat.unpackSign Format.binary64 bits.toBitVec ≠ 0#1 := by
  have hlt := bits.toNat_lt
  have hsign : (@UnpackedFloat.unpackSign Format.binary64 bits.toBitVec).toNat = bits.toNat / 2 ^ 63 := by
    change (BitVec.extractLsb 63 63 bits.toBitVec).toNat = _
    rw [BitVec.extractLsb_toNat, Nat.shiftRight_eq_div_pow]
    change bits.toNat / 2 ^ 63 % 2 ^ 1 = _
    omega
  have hshift : (bits >>> 63).toNat = bits.toNat / 2 ^ 63 := by
    rw [UInt64.toNat_shiftRight, Nat.shiftRight_eq_div_pow]
    rfl
  rw [beq_iff_eq, ← UInt64.toNat_inj, hshift, ne_eq, ← BitVec.toNat_inj, hsign]
  change bits.toNat / 2 ^ 63 = 1 ↔ ¬ bits.toNat / 2 ^ 63 = 0
  omega

theorem isNegative_neg {u : UnpackedFloat} (h : u ≠ .notANumber) : isNegative u.neg = !isNegative u := by
  rcases u with (_ | _) | _ | (_ | _) | ⟨_ | _, m, e, hm⟩ <;> first | exact absurd rfl h | rfl

/-- Two readings of one rank are one reading, or they are zeros. -/
theorem eq_or_isZero_of_rank {u v : UnpackedFloat} (hu : u ≠ .notANumber)
    (h : rank u = rank v) : u = v ∨ IsZero u ∧ IsZero v := by
  rcases u with (_ | _) | _ | s | ⟨_ | _, m, e, hm⟩ <;> rcases v with (_ | _) | _ | t | ⟨_ | _, n, f, hn⟩ <;>
    simp_all [rank, IsZero]

end Binary64

namespace Double
open Binary64 Scalar
open Float.Model (Format UnpackedFloat)
open Float.Model.UnpackedFloat (Sign)
variable {c : Circular} {x y x' y' : Double c}

theorem eq_of_view (h : view x = view y) : x = y := by
  have hmodel : Float.toModel x = Float.toModel y :=
    (pack_unpack _).symm.trans ((congrArg Float.Model.pack h).trans (pack_unpack _))
  exact congrArg Float.ofModel hmodel

protected theorem neg_neg (x : Double c) : - -x = x := by
  refine eq_of_view ?_
  rw [view_neg, view_neg, Binary64.neg_neg]

protected theorem abs_neg (x : Double c) : Scalar.abs (-x) = Scalar.abs x := by
  refine eq_of_view ?_
  rw [view_abs, view_abs, view_neg, Binary64.abs_neg]

protected theorem neg_mul (x y : Double c) : -x * y = -(x * y) := by
  refine eq_of_view ?_
  rw [view_mul, view_neg, view_neg, view_mul, Binary64.mul_comm, Binary64.mul_neg, stored_neg, Binary64.mul_comm]

protected theorem neg_lt_neg_iff : -x < -y ↔ y < x := by
  rw [lt_iff_view, lt_iff_view, view_neg, view_neg, lt_neg_iff]

theorem negativeBit_eq (h : x ≤ x) : Reading.negativeBit x = isNegative (view x) := by
  rw [placed_iff] at h
  obtain ⟨⟨bits, hvalid⟩⟩ := x
  rw [Bool.eq_iff_iff]
  refine (shift_eq_one_iff bits).trans ?_
  change ¬ UnpackedFloat.unpack Format.binary64 bits.toBitVec = .notANumber at h
  change _ ↔ isNegative (UnpackedFloat.unpack Format.binary64 bits.toBitVec) = true
  simp only [UnpackedFloat.unpack, Sign.ofBitVec] at h ⊢
  split_ifs at h ⊢ <;> simp_all [isNegative]

theorem placed_neg (h : x ≤ x) : -x ≤ -x := by
  rw [placed_iff, view_neg]
  rw [placed_iff] at h
  cases hx : view x with
  | notANumber => exact absurd hx h
  | infinity s => nofun
  | zero s => nofun
  | finite s m e hm => nofun

/-- The sign that a number gives away is the other one for its opposite. -/
theorem copySign_neg (h : y ≤ y) (x : Double c) : Scalar.copySign x (-y) = -Scalar.copySign x y := by
  rw [copySign_eq, copySign_eq, negativeBit_eq h, negativeBit_eq (placed_neg h), view_neg,
    isNegative_neg (placed_iff.mp h)]
  cases isNegative (view y) with
  | true => exact (Double.neg_neg _).symm
  | false => rfl

theorem meets_zero_iff : Meets x 0.0 ↔ IsZero (view x) := by
  rw [Meets, le_iff_view, le_iff_view, view_zero]
  cases view x with
  | notANumber => exact iff_of_false nofun nofun
  | zero s => exact iff_of_true (by cases s <;> exact ⟨rfl, rfl⟩) ⟨s, rfl⟩
  | infinity s => exact iff_of_false (by cases s <;> rintro ⟨⟨⟩, ⟨⟩⟩) nofun
  | finite s m e hm => exact iff_of_false (by cases s <;> rintro ⟨⟨⟩, ⟨⟩⟩) nofun

/-- Numbers that meet are one number, unless they are zeros. -/
theorem eq_or_zero_of_meets (h : Meets x y) : x = y ∨ Meets x 0.0 ∧ Meets y 0.0 := by
  obtain ⟨a, b, ha, hb, hab⟩ := le_iff.mp h.1
  obtain ⟨b', a', hb', ha', hba⟩ := le_iff.mp h.2
  cases ha.symm.trans ha'
  cases hb.symm.trans hb'
  have hrank : rank (view x) = rank (view y) := by rw [ha, hb, le_antisymm hab hba]
  have hplaced := placed_iff.mp (LawfulOrder.placed_left h.1)
  rw [meets_zero_iff, meets_zero_iff]
  exact (eq_or_isZero_of_rank hplaced hrank).imp_left eq_of_view

theorem zero_le_iff (h : x ≤ x) : 0.0 ≤ x ↔ IsZero (view x) ∨ isNegative (view x) = false := by
  rw [placed_iff] at h
  rw [le_iff_view, view_zero]
  revert h
  rcases view x with (_ | _) | _ | (_ | _) | ⟨_ | _, m, e, hm⟩
  case notANumber => exact fun h => absurd rfl h
  all_goals simp [UnpackedFloat.le, UnpackedFloat.compare, IsZero, isNegative]

theorem opposed_iff_view : Opposed x y ↔ Counter (view x) (view y) := by
  rw [Opposed, Counter, meets_zero_iff, meets_zero_iff, ← view_neg]
  exact or_congr_left ⟨fun h => congrArg view h, eq_of_view⟩

theorem opposed_neg (x : Double c) : Opposed x (-x) := .inl rfl

end Double

namespace Scalar.Opposed
open Binary64 Double
variable {c : Circular} {x y x' y' : Double c}

/-- There are two zeros only. -/
theorem eq_or_eq_neg (h : Opposed x y) : y = x ∨ y = -x := by
  rcases h with h | ⟨hx, hy⟩
  · exact .inr h
  · obtain ⟨s, hs⟩ := meets_zero_iff.mp hx
    obtain ⟨t, ht⟩ := meets_zero_iff.mp hy
    by_cases hst : t = s
    · exact .inl (eq_of_view (by rw [hs, ht, hst]))
    · refine .inr (eq_of_view ?_)
      rw [view_neg, hs, ht]
      cases s <;> cases t <;> first | rfl | exact absurd rfl hst

theorem add (hx : Opposed x x') (hy : Opposed y y') : Opposed (x + y) (x' + y') := by
  rw [opposed_iff_view] at *
  exact (hx.add hy).stored

theorem sub (hx : Opposed x x') (hy : Opposed y y') : Opposed (x - y) (x' - y') := by
  rw [opposed_iff_view] at *
  rw [view_sub, view_sub, sub_eq_add, sub_eq_add]
  exact (hx.add hy.neg).stored

theorem mul_left (h : Opposed y y') (x : Double c) : Opposed (x * y) (x * y') := by
  rw [opposed_iff_view] at *
  exact (h.mul_left _).stored

theorem div_right (h : Opposed x x') (y : Double c) : Opposed (x / y) (x' / y) := by
  rw [opposed_iff_view] at *
  exact (h.div_right _).stored

theorem abs_eq (h : Opposed x y) : Scalar.abs y = Scalar.abs x := by
  rcases h.eq_or_eq_neg with rfl | rfl
  · rfl
  · exact Double.abs_neg x

end Scalar.Opposed

theorem Double.eq_zero_or_neg_zero {c : Binary64.Circular} {x : Double c} (h : Scalar.Meets x 0.0) :
    x = 0.0 ∨ x = -0.0 :=
  Scalar.Opposed.eq_or_eq_neg (.inr ⟨meets_zero_iff.mpr ⟨.positive, view_zero⟩, h⟩)

end GoodeMap
