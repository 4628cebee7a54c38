import GoodeMap.Proofs.DoubleValue

/-! The doubles next to a number. An operation gives one of the two next to its exact result, so it passes no
double that the exact result does not pass and is off by less than a unit of the last digit. -/
namespace GoodeMap
namespace Binary64
open Float.Model (Format UnpackedFloat totalExponent)
open Float.Model.UnpackedFloat (Sign Accuracy ExtendedMantissa)

/-- The number and `q` are less than a unit apart, in a unit that both are read in with no digit to spare. -/
structure Rounds (q : ℚ) (u : UnpackedFloat) : Prop where
  normal : Normal u
  exists_unit : ∃ (n e : ℤ), value u = n * 2 ^ e ∧ |value u - q| < 2 ^ e ∧
    (e = -1074 ∨ 2 ^ 52 * 2 ^ e ≤ |q|)

theorem Normal.neg {u : UnpackedFloat} (h : Normal u) : Normal u.neg := by
  cases u with
  | notANumber => exact h.elim
  | infinity s => exact h.elim
  | zero s => trivial
  | finite s m e hm => exact h

section
variable {q : ℚ} {u v : UnpackedFloat}

theorem Rounds.neg (h : Rounds q u) : Rounds (-q) u.neg := by
  obtain ⟨hu, n, e, hn, hq, hunit⟩ := h
  refine ⟨hu.neg, -n, e, ?_, ?_, ?_⟩
  · rw [value_neg, hn, Int.cast_neg, neg_mul]
  · rwa [value_neg, neg_sub_neg, abs_sub_comm]
  · rwa [abs_neg]

theorem Rounds.le_of_le (h : Rounds q u) (hv : Normal v) (hle : q ≤ value v) : value u ≤ value v := by
  obtain ⟨-, n, e, hn, hq, hunit⟩ := h
  have hpos := zpow_two_pos e
  have hlt := (abs_lt.mp hq).2
  -- Of two multiples of the unit, one less than a unit above the other is none above it.
  have hmultiple {k : ℤ} (hk : q ≤ k * 2 ^ e) : value u ≤ k * 2 ^ e := by
    rw [hn] at hlt ⊢
    have hnk : (n : ℚ) < k + 1 := by
      refine lt_of_mul_lt_mul_right ?_ hpos.le
      rw [add_mul, one_mul]
      linarith
    exact mul_le_mul_of_nonneg_right (by exact_mod_cast Int.lt_add_one_iff.mp (by exact_mod_cast hnk)) hpos.le
  rcases hv.multiple_or_small e with ⟨k, hk⟩ | ⟨he, hsmall⟩
  · rw [hk] at hle ⊢
    exact hmultiple hle
  · -- The unit is too large for `v`, so `q` is on its far side.
    have hsize := hunit.resolve_left he.ne'
    have hv' := abs_lt.mp hsmall
    have hneg : q ≤ -(2 ^ 52 * 2 ^ e) := by
      rcases le_abs.mp hsize with h | h
      · linarith
      · linarith
    have hu := hmultiple (k := -2 ^ 52) (by push_cast; linarith)
    push_cast at hu
    linarith

theorem Rounds.ge_of_ge (h : Rounds q u) (hv : Normal v) (hle : value v ≤ q) : value v ≤ value u := by
  have hneg := h.neg.le_of_le hv.neg (by rw [value_neg]; exact neg_le_neg hle)
  rw [value_neg, value_neg] at hneg
  exact neg_le_neg_iff.mp hneg

/-- The error in units of the exact result, and of the smallest double. -/
theorem Rounds.abs_sub_le (h : Rounds q u) : |value u - q| ≤ |q| / 2 ^ 52 + 2 ^ (-1074 : ℤ) := by
  obtain ⟨-, n, e, -, hq, hunit⟩ := h
  have hsize : 0 ≤ |q| / 2 ^ 52 := by positivity
  refine hq.le.trans ?_
  rcases hunit with rfl | hunit
  · exact le_add_of_nonneg_left hsize
  · have hle : (2 : ℚ) ^ e ≤ |q| / 2 ^ 52 := by
      rw [le_div_iff₀ (by positivity), mul_comm]
      exact hunit
    exact hle.trans (le_add_of_nonneg_right (zpow_two_pos _).le)

theorem Normal.rounds (h : Normal u) : Rounds (value u) u := by
  refine ⟨h, ?_⟩
  cases u with
  | notANumber => exact h.elim
  | infinity s => exact h.elim
  | zero s =>
    refine ⟨0, -1074, ?_, ?_, .inl rfl⟩
    · rw [Int.cast_zero, zero_mul]
      rfl
    · rw [sub_self, abs_zero]
      exact zpow_two_pos _
  | finite s m e hm =>
    obtain ⟨-, -, hdigits⟩ := h
    refine ⟨s.apply m, e, rfl, ?_, ?_⟩
    · rw [sub_self, abs_zero]
      exact zpow_two_pos e
    · refine hdigits.symm.imp_right fun hdigits => ?_
      rw [value, abs_mul, abs_apply, abs_of_pos (zpow_two_pos e)]
      exact mul_le_mul_of_nonneg_right (by exact_mod_cast hdigits) (zpow_two_pos e).le

theorem rounds_zero (s : Sign) : Rounds 0 (.zero s) := Normal.rounds (u := .zero s) trivial

/-- A number below a bound that is far below the largest double is in the range of doubles. -/
theorem Rounds.below (h : Rounds q u) (hq : |q| ≤ 2 ^ 200) : Below 971 u := by
  have herror := h.abs_sub_le
  have hsize : |value u| ≤ |q| + |value u - q| := by
    calc |value u| = |q + (value u - q)| := by rw [add_sub_cancel]
      _ ≤ |q| + |value u - q| := abs_add_le _ _
  have hnormal := h.normal
  cases u with
  | notANumber => exact hnormal.elim
  | infinity s => exact hnormal.elim
  | zero s => trivial
  | finite s m e hm =>
    refine ⟨hnormal.1, not_lt.mp fun he => ?_⟩
    have hm' : (2 : ℚ) ^ 52 ≤ m := by exact_mod_cast hnormal.2.2.resolve_right (by omega)
    have hvalue : |value (.finite s m e hm)| = m * 2 ^ e := by
      rw [value, abs_mul, abs_apply, abs_of_pos (zpow_two_pos e)]
    have hlarge : (2 : ℚ) ^ 52 * 2 ^ (200 : ℤ) ≤ m * 2 ^ e :=
      mul_le_mul hm' (zpow_two_mono (by omega)) (zpow_two_pos _).le (Nat.cast_nonneg m)
    have hlow : (2 : ℚ) ^ (-1074 : ℤ) ≤ 1 := zpow_le_one_of_nonpos₀ one_le_two (by norm_num)
    have htop : (2 : ℚ) ^ 200 + 2 ^ 200 / 2 ^ 52 + 1 < 2 ^ 52 * 2 ^ (200 : ℤ) := by norm_num
    have hq' : |q| / 2 ^ 52 ≤ 2 ^ 200 / 2 ^ 52 := by gcongr
    linarith

end

theorem le_roundedMantissa (em : ExtendedMantissa) : em.mantissa ≤ em.roundedMantissa := by
  obtain ⟨m, r, s⟩ := em
  cases r <;> cases s <;> simp only [ExtendedMantissa.roundedMantissa, ExtendedMantissa.accuracy,
    Accuracy.roundToNearestEven] <;> omega

/-- Digits that are cut off keep a trace in the round bit: it is clear if nothing was cut off. -/
theorem abs_roundedMantissa_sub_lt {em : ExtendedMantissa} {x : ℚ} (hlow : em.mantissa ≤ x)
    (hhigh : x < em.mantissa + 1) (hexact : x = em.mantissa → em.roundBit = false) :
    |(em.roundedMantissa : ℚ) - x| < 1 := by
  cases hbit : em.roundBit with
  | false =>
    rw [roundedMantissa_of_roundBit hbit, abs_sub_lt_iff]
    constructor <;> linarith
  | true =>
    have hne : (em.mantissa : ℚ) ≠ x := fun h => by simp [hexact h.symm] at hbit
    have hlt := lt_of_le_of_ne hlow hne
    have hlo : (em.mantissa : ℚ) ≤ em.roundedMantissa := by exact_mod_cast le_roundedMantissa em
    have hhi : (em.roundedMantissa : ℚ) ≤ em.mantissa + 1 := by exact_mod_cast roundedMantissa_le em
    rw [abs_sub_lt_iff]
    constructor <;> linarith

/-- The digits kept and the digits shifted out are those of the number that was read. -/
theorem abs_shiftRight_sub_lt {m : ℕ} {a : Accuracy} {x : ℚ} (hlow : m ≤ x) (hhigh : x < m + 1)
    (hexact : x = m → a = .exact) (k : ℕ) :
    |((ExtendedMantissa.ofMantissaAndAccuracy m a >>> k).roundedMantissa : ℚ) - x / 2 ^ k| < 1 := by
  have hpos : (0 : ℚ) < 2 ^ k := by positivity
  have hmantissa : (ExtendedMantissa.ofMantissaAndAccuracy m a >>> k).mantissa = m / 2 ^ k := by
    rw [shiftRight_mantissa, mantissa_ofMantissaAndAccuracy]
  have hfloor : ((m / 2 ^ k : ℕ) : ℚ) * 2 ^ k ≤ m := by exact_mod_cast Nat.div_mul_le_self m (2 ^ k)
  have hceil : (m : ℚ) + 1 ≤ ((m / 2 ^ k : ℕ) + 1) * 2 ^ k := by
    exact_mod_cast Nat.lt_mul_of_div_lt (Nat.lt_succ_self _) (Nat.two_pow_pos k)
  refine abs_roundedMantissa_sub_lt ?_ ?_ fun h => ?_
  · rw [hmantissa, le_div_iff₀ hpos]
    linarith
  · rw [hmantissa, div_lt_iff₀ hpos]
    linarith
  · rw [hmantissa, div_eq_iff hpos.ne'] at h
    cases k with
    | zero =>
      rw [hexact (by simpa using h)]
      rfl
    | succ k =>
      have hm : m = m / 2 ^ (k + 1) * 2 * 2 ^ k := by
        have hle : (m : ℚ) ≤ (m / 2 ^ (k + 1) : ℕ) * 2 ^ (k + 1) := by linarith
        rw [mul_assoc, ← Nat.pow_succ']
        exact Nat.le_antisymm (by exact_mod_cast hle) (Nat.div_mul_le_self _ _)
      rw [shiftRight_roundBit, mantissa_ofMantissaAndAccuracy]
      have heven : m / 2 ^ k = m / 2 ^ (k + 1) * 2 := Nat.div_eq_of_eq_mul_left (Nat.two_pow_pos k) hm
      rw [heven, Nat.mul_mod_left]
      rfl

def carried (s : Sign) (r : ℕ) (e : ℤ) : UnpackedFloat :=
  if h : r / 2 ^ surplus r e = 0 then .zero s
  else .finite s (r / 2 ^ surplus r e) (e + surplus r e) (Nat.pos_of_ne_zero h)

theorem roundWithAccuracy_eq (s : Sign) (m : ℕ) (e : ℤ) (a : Accuracy) :
    UnpackedFloat.roundWithAccuracy Format.binary64 s m e a =
      carried s (ExtendedMantissa.ofMantissaAndAccuracy m a >>> surplus m e).roundedMantissa (e + surplus m e) := by
  simp only [UnpackedFloat.roundWithAccuracy, shiftToTarget_eq, shiftRight_mantissa,
    mantissa_ofMantissaAndAccuracy, carried]

theorem carried_spec (s : Sign) {r : ℕ} {e : ℤ} (hr : r ≤ 2 ^ 53) (he : -1074 ≤ e)
    (hdigits : 2 ^ 52 ≤ r ∨ e = -1074) :
    Normal (carried s r e) ∧ value (carried s r e) = s.apply r * 2 ^ e := by
  rcases hr.lt_or_eq with hlt | rfl
  · have hlog := log2_le_of_lt (k := 52) hlt
    have hsurplus : surplus r e = 0 := by
      unfold surplus
      omega
    simp only [carried, hsurplus, pow_zero, Nat.div_one, Nat.cast_zero, add_zero]
    split_ifs with hzero
    · refine ⟨trivial, ?_⟩
      rw [hzero]
      cases s <;> simp [value, Sign.apply]
    · exact ⟨⟨hlt, he, hdigits⟩, rfl⟩
  · have hsurplus : surplus (2 ^ 53) e = 1 := by
      unfold surplus
      rw [Nat.log2_two_pow]
      omega
    have hhalf : 2 ^ 53 / 2 ^ 1 = 2 ^ 52 := by norm_num
    simp only [carried, hsurplus, hhalf, Nat.cast_one]
    rw [dif_neg (by norm_num)]
    refine ⟨⟨by norm_num, by omega, .inl le_rfl⟩, ?_⟩
    rw [value, zpow_add_one₀ two_ne_zero]
    cases s <;> simp only [Sign.apply] <;> push_cast <;> ring

section
variable {s t : Sign} {m n : ℕ} {e f : ℤ}

theorem apply_eq (s : Sign) (m : ℕ) : ((s.apply m : ℤ) : ℚ) = s.apply 1 * m := by
  cases s <;> simp [Sign.apply]

theorem abs_apply_one_mul (s : Sign) (x : ℚ) : |((s.apply 1 : ℤ) : ℚ) * x| = |x| := by
  cases s <;> simp [Sign.apply]

theorem apply_mul (s t : Sign) : (s * t).apply 1 = s.apply 1 * t.apply 1 := by
  cases s <;> cases t <;> rfl

theorem apply_div (s t : Sign) : (s / t).apply 1 = s.apply 1 * t.apply 1 := by
  cases s <;> cases t <;> rfl

theorem apply_mul_self (s : Sign) : ((s.apply 1 : ℤ) : ℚ) * s.apply 1 = 1 := by
  cases s <;> norm_num [Sign.apply]

/-- What is left after the surplus digits are cut off has 53 digits, unless the exponent is the lowest. -/
theorem digits_of_surplus {k : ℕ} (hk : surplus m e = k) (hdigits : 52 ≤ m.log2 ∨ e ≤ -1074) :
    -1074 ≤ e + k ∧ (e + k = -1074 ∨ 2 ^ 52 ≤ m / 2 ^ k) := by
  have hunit : e + k = -1074 ∨ -1074 ≤ e + k ∧ m.log2 = 52 + k := by
    rw [← hk]
    unfold surplus
    omega
  refine ⟨by omega, hunit.imp_right fun h => (Nat.le_div_iff_mul_le (Nat.two_pow_pos k)).mpr ?_⟩
  rw [← Nat.pow_add, ← h.2]
  refine Nat.log2_self_le fun hm => ?_
  rw [hm, Nat.log2_zero] at h
  omega

/-- The number `x` is rounded by what was read of it, if enough digits were read. -/
theorem rounds_roundWithAccuracy {a : Accuracy} {x : ℚ} (hlow : m ≤ x) (hhigh : x < m + 1)
    (hexact : x = m → a = .exact) (hdigits : 52 ≤ m.log2 ∨ e ≤ -1074) :
    Rounds (s.apply 1 * (x * 2 ^ e)) (UnpackedFloat.roundWithAccuracy Format.binary64 s m e a) := by
  obtain ⟨k, hk⟩ : ∃ k, surplus m e = k := ⟨_, rfl⟩
  obtain ⟨hlowest, hkept⟩ := digits_of_surplus hk hdigits
  have hround := abs_shiftRight_sub_lt hlow hhigh hexact k
  rw [roundWithAccuracy_eq, hk]
  have hlt := div_surplus_lt m e
  rw [hk] at hlt
  generalize hem : ExtendedMantissa.ofMantissaAndAccuracy m a >>> k = em at hround ⊢
  have hmantissa : em.mantissa = m / 2 ^ k := by rw [← hem, shiftRight_mantissa, mantissa_ofMantissaAndAccuracy]
  have hle := le_roundedMantissa em
  have hge := roundedMantissa_le em
  generalize em.roundedMantissa = r at hround hle hge ⊢
  obtain ⟨hnormal, hvalue⟩ := carried_spec s (r := r) (e := e + k) (by omega) hlowest (by omega)
  have hpos := zpow_two_pos (e + k)
  have hscale : x * 2 ^ e = x / 2 ^ k * 2 ^ (e + k) := by
    rw [zpow_two_eq k rfl]
    field_simp
  refine ⟨hnormal, s.apply r, e + k, hvalue, ?_, ?_⟩
  · rw [hvalue, apply_eq, hscale, mul_assoc, ← mul_sub, abs_apply_one_mul, ← sub_mul, abs_mul, abs_of_pos hpos]
    exact mul_lt_of_lt_one_left hpos hround
  · refine hkept.imp_right fun h => ?_
    rw [abs_apply_one_mul, hscale, abs_mul, abs_of_pos hpos]
    refine mul_le_mul_of_nonneg_right ?_ hpos.le
    have hkept' : ((2 ^ 52 : ℕ) : ℚ) * 2 ^ k ≤ m := by
      exact_mod_cast (Nat.le_div_iff_mul_le (Nat.two_pow_pos k)).mp h
    refine le_trans ?_ (le_abs_self _)
    rw [le_div_iff₀ (by positivity)]
    push_cast at hkept'
    linarith

theorem shiftLeft_value (m : ℕ) {k : ℕ} (h : e = f + k) : ((m <<< k : ℕ) : ℚ) * 2 ^ f = m * 2 ^ e := by
  rw [Nat.shiftLeft_eq, zpow_two_eq k h]
  push_cast
  ring

theorem rounds_round (hm : 0 < m) :
    Rounds (s.apply 1 * (m * 2 ^ e)) (UnpackedFloat.round Format.binary64 s m e) := by
  simp only [UnpackedFloat.round, UnpackedFloat.decreaseExponent, targetExponent_eq]
  generalize hk : (e - max (m.log2 + e - 52 : ℤ) (-1074)).toNat = k
  rw [← shiftLeft_value m (k := k) (f := e - k) (by omega)]
  refine rounds_roundWithAccuracy le_rfl (lt_add_one _) (fun _ => rfl) ?_
  rw [log2_shiftLeft hm]
  omega

theorem rounds_normalize {m : ℤ} (z : Sign) :
    Rounds (m * 2 ^ e) (UnpackedFloat.normalize Format.binary64 m e z) := by
  unfold UnpackedFloat.normalize
  split
  · next h =>
    obtain ⟨n, rfl⟩ := Int.eq_negSucc_of_lt_zero (Int.compare_eq_lt.mp h)
    have hround := rounds_round (s := .negative) (e := e) (Nat.succ_pos n)
    rw [← mul_assoc, ← apply_eq] at hround
    exact hround
  · next h =>
    rw [Int.compare_eq_eq.mp h, Int.cast_zero, zero_mul]
    exact rounds_zero z
  · next h =>
    obtain ⟨n, rfl⟩ := Int.eq_ofNat_of_zero_le (Int.compare_eq_gt.mp h).le
    have hround := rounds_round (s := .positive) (e := e) (Int.natCast_pos.mp (Int.compare_eq_gt.mp h))
    rw [← mul_assoc, ← apply_eq] at hround
    exact hround

end

section
variable {u v : UnpackedFloat}

theorem rounds_add (hu : Normal u) (hv : Normal v) :
    Rounds (value u + value v) (UnpackedFloat.add Format.binary64 u v) := by
  cases u with
  | notANumber => exact hu.elim
  | infinity s => exact hu.elim
  | zero s =>
    cases v with
    | notANumber => exact hv.elim
    | infinity t => exact hv.elim
    | zero t =>
      have hzero : value (.zero s) + value (.zero t) = 0 := add_zero 0
      rw [hzero]
      cases s <;> cases t <;> exact rounds_zero _
    | finite t n f hn => exact (zero_add (value (.finite t n f hn))).symm ▸ hv.rounds
  | finite s m e hm =>
    cases v with
    | notANumber => exact hv.elim
    | infinity t => exact hv.elim
    | zero t => exact (add_zero (value (.finite s m e hm))).symm ▸ hu.rounds
    | finite t n f hn =>
      have hsum : value (.finite s m e hm) + value (.finite t n f hn) =
          ((s.apply (m <<< (e - min e f).toNat : ℕ) + t.apply (n <<< (f - min e f).toNat : ℕ) : ℤ) : ℚ) *
            2 ^ min e f := by
        rw [Int.cast_add, add_mul, apply_eq, apply_eq t, mul_assoc, mul_assoc,
          shiftLeft_value m (e := e) (by omega), shiftLeft_value n (e := f) (by omega), value, value, apply_eq,
          apply_eq t n, mul_assoc, mul_assoc]
      rw [hsum]
      exact rounds_normalize _

theorem sub_eq_add (u v : UnpackedFloat) :
    UnpackedFloat.sub Format.binary64 u v = UnpackedFloat.add Format.binary64 u v.neg := by
  rcases u with (_ | _) | _ | (_ | _) | ⟨_ | _, m, e, hm⟩ <;>
    rcases v with (_ | _) | _ | (_ | _) | ⟨_ | _, n, f, hn⟩ <;> try rfl
  all_goals exact congrArg (UnpackedFloat.normalize _ · _ _) (sub_neg_eq_add _ _)

theorem rounds_sub (hu : Normal u) (hv : Normal v) :
    Rounds (value u - value v) (UnpackedFloat.sub Format.binary64 u v) := by
  rw [sub_eq_add, sub_eq_add_neg, ← value_neg]
  exact rounds_add hu hv.neg

theorem rounds_mul (hu : Normal u) (hv : Normal v) :
    Rounds (value u * value v) (UnpackedFloat.mul Format.binary64 u v) := by
  cases u with
  | notANumber => exact hu.elim
  | infinity s => exact hu.elim
  | zero s =>
    cases v with
    | notANumber => exact hv.elim
    | infinity t => exact hv.elim
    | zero t => exact (zero_mul (0 : ℚ)).symm ▸ rounds_zero _
    | finite t n f hn => exact (zero_mul (value (.finite t n f hn))).symm ▸ rounds_zero _
  | finite s m e hm =>
    cases v with
    | notANumber => exact hv.elim
    | infinity t => exact hv.elim
    | zero t => exact (mul_zero (value (.finite s m e hm))).symm ▸ rounds_zero _
    | finite t n f hn =>
      have hdigits : 52 ≤ (m * n).log2 ∨ e + f ≤ -1074 := by
        rw [Nat.le_log2 (Nat.mul_pos hm hn).ne']
        rcases hu.2.2 with h | h
        · exact .inl (h.trans (Nat.le_mul_of_pos_right m hn))
        · refine hv.2.2.imp (fun h' => h'.trans (Nat.le_mul_of_pos_left n hm)) fun h' => by omega
      have hproduct : value (.finite s m e hm) * value (.finite t n f hn) =
          (s * t).apply 1 * ((m * n : ℕ) * 2 ^ (e + f)) := by
        rw [value, value, apply_eq, apply_eq t, apply_mul, zpow_add₀ two_ne_zero]
        push_cast
        ring
      rw [hproduct]
      exact rounds_roundWithAccuracy le_rfl (lt_add_one _) (fun _ => rfl) hdigits

/-- The quotient is taken to 53 digits at least, or to the lowest exponent. -/
theorem divCore_digits {m n : ℕ} {e f d : ℤ} (hm : 0 < m) (hn : 0 < n)
    (hd : min (e - f) (Format.binary64.targetExponent (totalExponent m e - totalExponent n f)) = d) :
    52 ≤ (m <<< (e - f - d).toNat / n).log2 ∨ d ≤ -1074 := by
  have htarget : Format.binary64.targetExponent (totalExponent m e - totalExponent n f) =
      max ((m.log2 : ℤ) - n.log2 + e - f - 53) (-1074) := by
    simp only [Format.targetExponent, totalExponent, Format.mantissaBits, Format.minExponent]
    norm_num
    omega
  rw [htarget] at hd
  obtain ⟨k, hk⟩ : ∃ k, (e - f - d).toNat = k := ⟨_, rfl⟩
  rw [hk, or_iff_not_imp_right]
  intro hlow
  have hlength : 53 + n.log2 ≤ m.log2 + k := by omega
  have hquotient : 2 ^ 52 ≤ m <<< k / n := by
    rw [Nat.le_div_iff_mul_le hn, Nat.shiftLeft_eq]
    calc 2 ^ 52 * n ≤ 2 ^ 52 * 2 ^ (n.log2 + 1) := Nat.mul_le_mul_left _ Nat.lt_log2_self.le
      _ = 2 ^ (53 + n.log2) := by rw [← Nat.pow_add]; congr 1; omega
      _ ≤ 2 ^ (m.log2 + k) := Nat.pow_le_pow_right two_pos hlength
      _ = 2 ^ m.log2 * 2 ^ k := Nat.pow_add _ _ _
      _ ≤ m * 2 ^ k := Nat.mul_le_mul_right _ (Nat.log2_self_le hm.ne')
  exact (Nat.le_log2 (by omega)).mpr hquotient

theorem rounds_div (hu : Normal u) (hv : Normal v) (hne : value v ≠ 0) :
    Rounds (value u / value v) (UnpackedFloat.div Format.binary64 u v) := by
  cases v with
  | notANumber => exact hv.elim
  | infinity t => exact hv.elim
  | zero t => exact absurd rfl hne
  | finite t n f hn =>
    cases u with
    | notANumber => exact hu.elim
    | infinity s => exact hu.elim
    | zero s => exact (zero_div (value (.finite t n f hn))).symm ▸ rounds_zero _
    | finite s m e hm =>
      simp only [UnpackedFloat.div, UnpackedFloat.divCore]
      generalize hd : min (e - f) _ = d
      generalize hk : (e - f - d).toNat = k
      have hdigits := divCore_digits hm hn hd
      rw [hk] at hdigits
      have hn' : (0 : ℚ) < n := Nat.cast_pos.mpr hn
      have hquotient : value (.finite s m e hm) / value (.finite t n f hn) =
          (s / t).apply 1 * (((m <<< k : ℕ) : ℚ) / n * 2 ^ d) := by
        rw [div_eq_iff hne, value, value, apply_eq, apply_eq t, apply_div, mul_assoc,
          ← shiftLeft_value m (k := k) (f := d + f) (by omega), zpow_add₀ two_ne_zero]
        push_cast
        field_simp
        linear_combination -(s.apply 1 : ℚ) * (m <<< k : ℕ) * apply_mul_self t
      rw [hquotient]
      refine rounds_roundWithAccuracy ?_ ?_ ?_ hdigits
      · exact Nat.cast_div_le
      · rw [div_lt_iff₀ hn']
        exact_mod_cast Nat.lt_mul_of_div_lt (Nat.lt_succ_self (m <<< k / n)) hn
      · intro h
        rw [div_eq_iff hn'.ne'] at h
        have hexact : m <<< k = m <<< k / n * n := by exact_mod_cast h
        have hrest : m <<< k % n = 0 := Nat.mod_eq_zero_of_dvd (Dvd.intro_left _ hexact.symm)
        rw [hrest]
        rfl

theorem rounds_natCast (n : ℕ) : Rounds n (UnpackedFloat.normalize Format.binary64 n 0 .positive) := by
  have h := rounds_normalize (m := n) (e := 0) .positive
  rwa [zpow_zero, mul_one, Int.cast_natCast] at h

theorem Rounds.eq_natCast {n : ℕ} (h : Rounds n u) (hn : n < 2 ^ 53) : value u = n := by
  obtain ⟨-, k, e, hk, hlt, hunit⟩ := h
  have hpos := zpow_two_pos e
  have he : e ≤ 0 := by
    refine not_lt.mp fun he => ?_
    have hsize := hunit.resolve_left (by omega)
    have hn' : |(n : ℚ)| < 2 ^ 53 := by
      rw [Nat.abs_cast]
      exact_mod_cast hn
    have htwo : (2 : ℚ) ^ (1 : ℤ) ≤ 2 ^ e := zpow_two_mono he
    rw [zpow_one] at htwo
    linarith
  have hmultiple : (n : ℚ) = (n * 2 ^ (-e).toNat : ℤ) * 2 ^ e := by
    have hone := zpow_two_eq (e := e) (f := 0) (-e).toNat (by omega)
    rw [zpow_zero] at hone
    push_cast
    rw [mul_assoc, ← hone, mul_one]
  rw [hk, hmultiple, ← sub_mul, abs_mul, abs_of_pos hpos, ← Int.cast_sub, ← Int.cast_abs] at hlt
  have hzero : |k - n * 2 ^ (-e).toNat| < 1 := by
    have := lt_of_mul_lt_mul_right (hlt.trans_eq (one_mul _).symm) hpos.le
    exact_mod_cast this
  rw [hk, hmultiple, sub_eq_zero.mp (Int.abs_lt_one_iff.mp hzero)]

end

end Binary64
end GoodeMap
