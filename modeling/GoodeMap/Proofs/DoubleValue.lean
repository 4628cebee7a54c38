import GoodeMap.Proofs.DoubleArithmetic

/-! Finite doubles as rational numbers. Their order is that of the numbers, and what is stored without
overflow is kept. -/
namespace GoodeMap
namespace Binary64
open Float.Model (Format UnpackedFloat)
open Float.Model.UnpackedFloat (Sign)

def value : UnpackedFloat → ℚ
  | .finite s m e _ => s.apply m * 2 ^ e
  | _ => 0

def Normal : UnpackedFloat → Prop
  | .zero _ => True
  | .finite _ m e _ => m < 2 ^ 53 ∧ -1074 ≤ e ∧ (2 ^ 52 ≤ m ∨ e = -1074)
  | _ => False

theorem zpow_two_pos (e : ℤ) : (0 : ℚ) < 2 ^ e := zpow_pos two_pos e

theorem zpow_two_mono {e f : ℤ} (h : e ≤ f) : (2 : ℚ) ^ e ≤ 2 ^ f := zpow_le_zpow_right₀ one_le_two h

theorem zpow_two_eq {e f : ℤ} (n : ℕ) (h : f = e + n) : (2 : ℚ) ^ f = 2 ^ n * 2 ^ e := by
  rw [h, zpow_add₀ two_ne_zero, zpow_natCast, mul_comm]

theorem abs_apply (s : Sign) (m : ℕ) : |((s.apply m : ℤ) : ℚ)| = m := by
  cases s with
  | positive => exact abs_of_nonneg (Nat.cast_nonneg m)
  | negative =>
    simp only [Sign.apply, Int.cast_neg, Int.cast_natCast, abs_neg]
    exact abs_of_nonneg (Nat.cast_nonneg m)

theorem toNat_one_append (d : BitVec 52) : (1#1 ++ d).toNat = 2 ^ 52 + d.toNat := by
  rw [BitVec.toNat_append, ← Nat.shiftLeft_add_eq_or_of_lt d.isLt]
  rfl

theorem normal_unpack {b : BitVec 64} (h : Below 971 (UnpackedFloat.unpack Format.binary64 b)) :
    Normal (UnpackedFloat.unpack Format.binary64 b) := by
  have hd := (@UnpackedFloat.unpackMantissa Format.binary64 b).isLt
  by_cases hfull : @UnpackedFloat.unpackExponent Format.binary64 b = -1#11
  · simp only [UnpackedFloat.unpack, if_pos hfull] at h
    split_ifs at h
    · exact h.elim
    · exact h.elim
  · simp only [UnpackedFloat.unpack, if_neg hfull]
    split_ifs with hlow hzero
    · trivial
    · refine ⟨hd.trans (by decide), ?_, .inr ?_⟩
      · rw [hlow]
        decide
      · rw [hlow]
        rfl
    · have hlow' : (@UnpackedFloat.unpackExponent Format.binary64 b).toNat ≠ 0 :=
        fun h => hlow (BitVec.eq_of_toNat_eq h)
      refine ⟨BitVec.isLt _, ?_, .inl ?_⟩
      · change -1074 ≤ (_ : ℤ) - (1023 + 52)
        omega
      · rw [toNat_one_append]
        exact Nat.le_add_right _ _

section
variable {s : Sign} {m : ℕ} {e : ℤ} (hm : 0 < m) (hlt : m < 2 ^ 53)
include hm hlt

theorem log2_succ_eq_iff : m.log2 + 1 = Format.binary64.mantissaBits ↔ 2 ^ 52 ≤ m := by
  change m.log2 + 1 = 53 ↔ _
  rw [← Nat.le_log2 hm.ne']
  have := log2_le_of_lt (k := 52) hlt
  omega

/-- The exponent is stored with its bias, the digits without the first. -/
theorem stored_of_full (hfull : 2 ^ 52 ≤ m) (hlow : -1074 ≤ e) (hhigh : e ≤ 971) :
    stored (.finite s m e hm) = .finite s m e hm := by
  have hbias : (e + Format.binary64.exponentBias + Format.binary64.mantissaBitsWithoutImplicit).toNat =
      (e + 1075).toNat := by
    change (e + 1023 + 52).toNat = _
    omega
  have hb : (BitVec.ofNat 11 (e + 1075).toNat).toNat = (e + 1075).toNat :=
    Nat.mod_eq_of_lt (show _ < 2048 by omega)
  have hne {n : ℕ} (hn : n < 2 ^ 11) (h : (e + 1075).toNat ≠ n) :
      BitVec.ofNat 11 (e + 1075).toNat ≠ BitVec.ofNat 11 n := fun heq => by
    have heq' := congrArg BitVec.toNat heq
    rw [hb, BitVec.toNat_ofNat, Nat.mod_eq_of_lt hn] at heq'
    exact h heq'
  have hover : BitVec.ofNat 11 (e + 1075).toNat ≠ -1#11 := hne (n := 2047) (by norm_num) (by omega)
  have hzero : BitVec.ofNat 11 (e + 1075).toNat ≠ 0#11 := hne (n := 0) (by norm_num) (by omega)
  change UnpackedFloat.unpack _ (UnpackedFloat.pack _ _) = _
  simp only [UnpackedFloat.pack, hbias, log2_succ_eq_iff hm hlt]
  rw [if_neg (show ¬ 2 ^ 11 ≤ (e + 1075).toNat + 1 by omega), if_pos hfull]
  simp only [UnpackedFloat.unpack, UnpackedFloat.unpackExponent_packComponents,
    UnpackedFloat.unpackMantissa_packComponents, UnpackedFloat.unpackSign_packComponents,
    Sign.ofBitVec_toBitVec, if_neg hover, if_neg hzero, toNat_one_append, hb, UnpackedFloat.finite.injEq,
    true_and]
  constructor
  · change 2 ^ 52 + m % 2 ^ 52 = m
    omega
  · change ((e + 1075).toNat : ℤ) - (1023 + 52) = e
    omega

/-- Fewer digits are stored with the exponent zero. -/
theorem stored_of_lowest (hshort : ¬ 2 ^ 52 ≤ m) :
    stored (.finite s m (-1074) hm) = .finite s m (-1074) hm := by
  have hd : (BitVec.ofNat 52 m).toNat = m := Nat.mod_eq_of_lt (not_le.mp hshort)
  have hzero : BitVec.ofNat 52 m ≠ 0#52 := fun h => by
    rw [h] at hd
    exact hm.ne hd
  have hfull : 0#11 ≠ -1#11 := by decide
  change UnpackedFloat.unpack _ (UnpackedFloat.pack _ _) = _
  simp only [UnpackedFloat.pack, log2_succ_eq_iff hm hlt]
  rw [if_neg (by decide), if_neg hshort]
  simp only [UnpackedFloat.unpack, UnpackedFloat.unpackExponent_packComponents,
    UnpackedFloat.unpackMantissa_packComponents, UnpackedFloat.unpackSign_packComponents,
    Sign.ofBitVec_toBitVec, if_neg hfull, dif_neg hzero, hd]
  rfl

end

/-- A number in the range of doubles is stored as it is. -/
theorem Normal.stored {u : UnpackedFloat} (h : Normal u) (hsmall : Below 971 u) : stored u = u := by
  cases u with
  | notANumber => exact h.elim
  | infinity s => exact h.elim
  | zero s => exact stored_zero s
  | finite s m e hm =>
    obtain ⟨hlt, hlow, hdigits⟩ := h
    by_cases hfull : 2 ^ 52 ≤ m
    · exact stored_of_full hm hlt hfull hlow hsmall.2
    · obtain rfl := hdigits.resolve_left hfull
      exact stored_of_lowest hm hlt hfull

/-- What is stored as a number was in the range of doubles. -/
theorem Normal.below_of_stored {u : UnpackedFloat} (h : Normal u) (hstored : Below 971 (Binary64.stored u)) :
    Below 971 u := by
  cases u with
  | notANumber => exact h.elim
  | infinity s => exact h.elim
  | zero s => trivial
  | finite s m e hm =>
    refine ⟨h.1, not_lt.mp fun he => ?_⟩
    have hover : 2 ^ 11 ≤ (e + Format.binary64.exponentBias + Format.binary64.mantissaBitsWithoutImplicit).toNat +
        1 := by
      change 2 ^ 11 ≤ (e + 1023 + 52).toNat + 1
      omega
    have hinfinity : Binary64.stored (.finite s m e hm) = Binary64.stored (.infinity s) := by
      change UnpackedFloat.unpack _ (UnpackedFloat.pack _ _) = UnpackedFloat.unpack _ (UnpackedFloat.pack _ _)
      simp only [UnpackedFloat.pack, if_pos hover]
    rw [hinfinity, stored_infinity] at hstored
    exact hstored

theorem size_lt {m n : ℕ} {e f : ℤ} (hm : m < 2 ^ 53) (hlow : -1074 ≤ e) (hn : 2 ^ 52 ≤ n ∨ f = -1074)
    (h : e < f ∨ e = f ∧ m < n) : (m : ℚ) * 2 ^ e < n * 2 ^ f := by
  rcases h with hef | ⟨rfl, hmn⟩
  · have hn' : (2 ^ 52 : ℚ) ≤ n := by exact_mod_cast hn.resolve_right (by omega)
    have hm' : (m : ℚ) < 2 ^ 53 := by exact_mod_cast hm
    calc (m : ℚ) * 2 ^ e < 2 ^ 53 * 2 ^ e := mul_lt_mul_of_pos_right hm' (zpow_two_pos e)
      _ = 2 ^ 52 * 2 ^ (e + 1) := by rw [zpow_add_one₀ two_ne_zero]; ring
      _ ≤ 2 ^ 52 * 2 ^ f := mul_le_mul_of_nonneg_left (zpow_two_mono hef) (by positivity)
      _ ≤ n * 2 ^ f := by gcongr
  · exact mul_lt_mul_of_pos_right (by exact_mod_cast hmn) (zpow_two_pos e)

theorem size_pos {m : ℕ} (hm : 0 < m) (e : ℤ) : (0 : ℚ) < m * 2 ^ e :=
  mul_pos (Nat.cast_pos.mpr hm) (zpow_two_pos e)

theorem Normal.value_lt {u v : UnpackedFloat} (hu : Normal u) (hv : Normal v)
    (h : UnpackedFloat.lt u v = true) : value u < value v := by
  rcases u with (_ | _) | _ | _ | ⟨_ | _, m, e, hm⟩ <;> rcases v with (_ | _) | _ | _ | ⟨_ | _, n, f, hn⟩ <;>
    simp [UnpackedFloat.lt, UnpackedFloat.compare, compare_then, Normal, value, Sign.apply] at *
  · exact size_pos hn f
  · exact size_pos hm e
  · exact size_lt hv.1 hv.2.1 hu.2.2 (h.imp_right (.imp_left Eq.symm))
  · exact (neg_neg_of_pos (size_pos hm e)).trans (size_pos hn f)
  · exact size_lt hu.1 hu.2.1 hv.2.2 h

theorem value_eq_of_rank {u v : UnpackedFloat} (h : rank u = rank v) : value u = value v := by
  rcases u with (_ | _) | _ | _ | ⟨_ | _, m, e, hm⟩ <;> rcases v with (_ | _) | _ | _ | ⟨_ | _, n, f, hn⟩ <;>
    simp [rank, value] at *
  all_goals
    obtain ⟨rfl, rfl⟩ := h
    rfl

theorem Normal.rank {u : UnpackedFloat} (h : Normal u) : ∃ a, rank u = some a := by
  rcases u with (_ | _) | _ | _ | ⟨_ | _, m, e, hm⟩
  all_goals first | exact h.elim | exact ⟨_, rfl⟩

theorem Normal.le_iff {u v : UnpackedFloat} (hu : Normal u) (hv : Normal v) :
    UnpackedFloat.le u v = true ↔ value u ≤ value v := by
  obtain ⟨a, ha⟩ := hu.rank
  obtain ⟨b, hb⟩ := hv.rank
  rcases lt_trichotomy a b with h | rfl | h
  · exact iff_of_true (le_iff_rank.mpr ⟨a, b, ha, hb, h.le⟩)
      (hu.value_lt hv (lt_iff_rank.mpr ⟨a, b, ha, hb, h⟩)).le
  · exact iff_of_true (le_iff_rank.mpr ⟨a, a, ha, hb, le_rfl⟩) (value_eq_of_rank (ha.trans hb.symm)).le
  · refine iff_of_false (fun hle => ?_) (hv.value_lt hu (lt_iff_rank.mpr ⟨b, a, hb, ha, h⟩)).not_ge
    obtain ⟨a', b', ha', hb', hab⟩ := le_iff_rank.mp hle
    cases ha.symm.trans ha'
    cases hb.symm.trans hb'
    exact h.not_ge hab

/-- A number is a multiple of the unit, unless the unit is too large for it to have 53 digits. -/
theorem Normal.multiple_or_small {u : UnpackedFloat} (h : Normal u) (e : ℤ) :
    (∃ k : ℤ, value u = k * 2 ^ e) ∨ -1074 < e ∧ |value u| < 2 ^ 52 * 2 ^ e := by
  cases u with
  | notANumber => exact h.elim
  | infinity s => exact h.elim
  | zero s => exact .inl ⟨0, by simp only [value, Int.cast_zero, zero_mul]⟩
  | finite s m f hm =>
    rcases le_or_gt e f with hef | hfe
    · refine .inl ⟨s.apply m * 2 ^ (f - e).toNat, ?_⟩
      rw [value, zpow_two_eq (f - e).toNat (by omega : f = e + (f - e).toNat)]
      push_cast
      ring
    · refine .inr ⟨lt_of_le_of_lt h.2.1 hfe, ?_⟩
      rw [value, abs_mul, abs_apply, abs_of_pos (zpow_two_pos f)]
      have hm' : (m : ℚ) < 2 ^ 53 := by exact_mod_cast h.1
      calc (m : ℚ) * 2 ^ f < 2 ^ 53 * 2 ^ f := mul_lt_mul_of_pos_right hm' (zpow_two_pos f)
        _ = 2 ^ 52 * 2 ^ (f + 1) := by rw [zpow_add_one₀ two_ne_zero]; ring
        _ ≤ 2 ^ 52 * 2 ^ e := mul_le_mul_of_nonneg_left (zpow_two_mono hfe) (by positivity)

theorem Below.abs_value_lt {u : UnpackedFloat} {k : ℤ} (h : Below k u) : |value u| < 2 ^ 53 * 2 ^ k := by
  cases u with
  | notANumber => exact h.elim
  | infinity s => exact h.elim
  | zero s =>
    change |(0 : ℚ)| < _
    rw [abs_zero]
    exact mul_pos (by norm_num) (zpow_two_pos k)
  | finite s m f hm =>
    rw [value, abs_mul, abs_apply, abs_of_pos (zpow_two_pos f)]
    have hm' : (m : ℚ) < 2 ^ 53 := by exact_mod_cast h.1
    exact mul_lt_mul hm' (zpow_two_mono h.2) (zpow_two_pos f) (by positivity)

theorem value_neg (u : UnpackedFloat) : value u.neg = -value u := by
  rcases u with _ | _ | _ | ⟨_ | _, m, e, hm⟩ <;> simp [UnpackedFloat.neg, value, Sign.apply]

theorem value_abs (u : UnpackedFloat) : value u.abs = |value u| := by
  rcases u with _ | _ | _ | ⟨s, m, e, hm⟩
  all_goals try exact abs_zero.symm
  rw [value, abs_mul, abs_apply, abs_of_pos (zpow_two_pos e)]
  rfl

end Binary64

namespace Double
open Binary64
variable {c : Circular} {x y : Double c}

def value (x : Double c) : ℚ := Binary64.value (view x)

theorem normal_view (hx : Scalar.isFinite x = true) : Normal (view x) := normal_unpack (isFinite_iff.mp hx)

theorem le_iff_value (hx : Scalar.isFinite x = true) (hy : Scalar.isFinite y = true) :
    x ≤ y ↔ x.value ≤ y.value := le_iff_view.trans ((normal_view hx).le_iff (normal_view hy))

theorem lt_iff_value (hx : Scalar.isFinite x = true) (hy : Scalar.isFinite y = true) :
    x < y ↔ x.value < y.value := by
  have hxx := placed_of_isFinite hx
  have hyy := placed_of_isFinite hy
  rw [← not_le, ← le_iff_value hy hx]
  exact ⟨fun h hle => LawfulOrder.not_lt_of_le hle h, fun h => by_contra fun hlt =>
    h (LawfulOrder.le_of_not_lt hxx hyy hlt)⟩

theorem value_zero : value (0.0 : Double c) = 0 := by
  rw [value, view_zero]
  rfl

theorem value_abs (x : Double c) : (Scalar.abs x).value = |x.value| := by
  rw [value, view_abs, Binary64.value_abs]
  rfl

/-- Doubles that are not small lie at least one unit of their last digit apart. -/
theorem unit_le_sub {e : ℤ} (hx : Scalar.isFinite x = true) (hy : Scalar.isFinite y = true)
    (hsize : 2 ^ 52 * 2 ^ e ≤ x.value) (h : x.value < y.value) : 2 ^ e ≤ y.value - x.value := by
  have hmultiple {z : Double c} (hz : Scalar.isFinite z = true) (hle : 2 ^ 52 * 2 ^ e ≤ z.value) :
      ∃ k : ℤ, z.value = k * 2 ^ e := by
    refine ((normal_view hz).multiple_or_small e).resolve_right fun hsmall => ?_
    exact (hle.trans (le_abs_self _)).not_gt hsmall.2
  obtain ⟨k, hk⟩ := hmultiple hx hsize
  obtain ⟨l, hl⟩ := hmultiple hy (hsize.trans h.le)
  rw [hk, hl] at h ⊢
  have hkl : k < l := by exact_mod_cast lt_of_mul_lt_mul_right h (zpow_two_pos e).le
  rw [← sub_mul]
  exact le_mul_of_one_le_left (zpow_two_pos e).le (by exact_mod_cast (by omega : 1 ≤ l - k))

end Double
end GoodeMap
