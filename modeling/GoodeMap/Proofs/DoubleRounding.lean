import GoodeMap.Binary64
import Mathlib

/-! Sizes of the numbers that operations on doubles give before they are stored. A number has at most 53
digits, so the exponent of its last one says how large it is; rounding raises that by one at most. -/
namespace GoodeMap.Binary64
open Float.Model (Format UnpackedFloat totalExponent)
open Float.Model.UnpackedFloat (Sign Accuracy ExtendedMantissa)

/-- A number of at most 53 binary digits, the last of them no higher than the exponent. -/
def Below (k : Int) : UnpackedFloat → Prop
  | .zero _ => True
  | .finite _ m e _ => m < 2 ^ 53 ∧ e ≤ k
  | _ => False

instance (k : Int) : (u : UnpackedFloat) → Decidable (Below k u)
  | .zero _ => .isTrue trivial
  | .finite _ m e _ => inferInstanceAs (Decidable (m < 2 ^ 53 ∧ e ≤ k))
  | .infinity _ => .isFalse id
  | .notANumber => .isFalse id

theorem Below.mono {j k : Int} {u : UnpackedFloat} (h : Below j u) (hjk : j ≤ k) : Below k u := by
  cases u with
  | zero s => trivial
  | finite s m e hm => exact ⟨h.1, h.2.trans hjk⟩
  | infinity s => exact h
  | notANumber => exact h

theorem log2_le_of_lt {m k : Nat} (h : m < 2 ^ (k + 1)) : m.log2 ≤ k := by
  cases Nat.eq_zero_or_pos m with
  | inl hzero => simp [hzero]
  | inr hpos => exact Nat.lt_succ_iff.mp ((Nat.log2_lt hpos.ne').mpr h)

theorem targetExponent_eq (m : Nat) (e : Int) :
    Format.binary64.targetExponent (totalExponent m e) = max (m.log2 + e - 52) (-1074) := by
  simp only [Format.targetExponent, totalExponent, Format.mantissaBits, Format.minExponent]
  norm_num
  omega

theorem shiftRight_mantissa (em : ExtendedMantissa) (n : Nat) :
    (em >>> n).mantissa = em.mantissa / 2 ^ n := by
  induction n with
  | zero => exact (Nat.div_one _).symm
  | succ n ih =>
    change (em >>> n).mantissa / 2 = _
    rw [ih, Nat.div_div_eq_div_mul, Nat.pow_succ]

theorem shiftRight_roundBit (em : ExtendedMantissa) (n : Nat) :
    (em >>> (n + 1)).roundBit = (em.mantissa / 2 ^ n % 2 != 0) := by
  change ((em >>> n).mantissa % 2 != 0) = _
  rw [shiftRight_mantissa]

theorem roundedMantissa_le (em : ExtendedMantissa) : em.roundedMantissa ≤ em.mantissa + 1 := by
  obtain ⟨m, r, s⟩ := em
  cases r <;> cases s <;> simp only [ExtendedMantissa.roundedMantissa, ExtendedMantissa.accuracy,
    Accuracy.roundToNearestEven] <;> omega

theorem roundedMantissa_of_roundBit {em : ExtendedMantissa} (h : em.roundBit = false) :
    em.roundedMantissa = em.mantissa := by
  obtain ⟨m, r, s⟩ := em
  cases h
  cases s <;> rfl

theorem mantissa_ofMantissaAndAccuracy (m : Nat) (a : Accuracy) :
    (ExtendedMantissa.ofMantissaAndAccuracy m a).mantissa = m := by
  cases a with
  | exact => rfl
  | inexact o => cases o <;> rfl

def surplus (m : Nat) (e : Int) : Nat := (max (m.log2 + e - 52) (-1074) - e).toNat

theorem shiftToTarget_eq (m : Nat) (e : Int) (a : Accuracy) :
    UnpackedFloat.shiftToTargetExponent Format.binary64 m e a =
      (ExtendedMantissa.ofMantissaAndAccuracy m a >>> surplus m e, e + surplus m e) := by
  rw [UnpackedFloat.shiftToTargetExponent, targetExponent_eq]
  rfl

theorem div_surplus_lt (m : Nat) (e : Int) : m / 2 ^ surplus m e < 2 ^ 53 := by
  refine (Nat.div_lt_iff_lt_mul (Nat.two_pow_pos _)).mpr (Nat.lt_log2_self.trans_le ?_)
  rw [← Nat.pow_add]
  refine Nat.pow_le_pow_right two_pos ?_
  unfold surplus
  omega

theorem add_surplus_le {m : Nat} {e k : Int} (he : e ≤ k) (hm : m.log2 + e ≤ k + 52) (hk : -1074 ≤ k) :
    e + surplus m e ≤ k := by
  unfold surplus
  omega

theorem below_roundWithAccuracy {s : Sign} {m : Nat} {e k : Int} {a : Accuracy} {r : Nat}
    (hr : (ExtendedMantissa.ofMantissaAndAccuracy m a >>> surplus m e).roundedMantissa = r)
    (hk : -1074 ≤ k) (he : e + surplus m e ≤ k) (htotal : r.log2 + (e + surplus m e) ≤ k + 52) :
    Below k (UnpackedFloat.roundWithAccuracy Format.binary64 s m e a) := by
  simp only [UnpackedFloat.roundWithAccuracy, shiftToTarget_eq, hr]
  split
  · trivial
  · refine ⟨?_, add_surplus_le he htotal hk⟩
    rw [shiftRight_mantissa, mantissa_ofMantissaAndAccuracy]
    exact div_surplus_lt _ _

/-- Rounding lengthens a number by one digit at most. -/
theorem below_round {s : Sign} {m : Nat} {e k : Int} {a : Accuracy} (hk : -1074 ≤ k) (he : e ≤ k)
    (hm : m.log2 + e ≤ k + 52) : Below (k + 1) (UnpackedFloat.roundWithAccuracy Format.binary64 s m e a) := by
  have hfirst := add_surplus_le he hm hk
  have hlt := div_surplus_lt m e
  have hr := roundedMantissa_le (ExtendedMantissa.ofMantissaAndAccuracy m a >>> surplus m e)
  rw [shiftRight_mantissa, mantissa_ofMantissaAndAccuracy] at hr
  refine below_roundWithAccuracy rfl (by omega) (by omega) ?_
  have hlog := log2_le_of_lt (k := 53) (hr.trans_lt (by omega))
  omega

/-- Short of the middle between the largest double and the next power of two nothing overflows. -/
theorem below_round_of_lt {s : Sign} {m : Nat} {e : Int} (he : e ≤ 970)
    (hm : m < (2 ^ 54 - 1) * 2 ^ (970 - e).toNat) :
    Below 971 (UnpackedFloat.roundWithAccuracy Format.binary64 s m e .exact) := by
  obtain ⟨n, hn⟩ : ∃ n, (970 - e).toNat = n := ⟨_, rfl⟩
  rw [hn] at hm
  have hlog : m.log2 ≤ 53 + n := by
    refine log2_le_of_lt (hm.trans_le ?_)
    calc (2 ^ 54 - 1) * 2 ^ n ≤ 2 ^ 54 * 2 ^ n := Nat.mul_le_mul_right _ (Nat.sub_le _ _)
      _ = 2 ^ (53 + n + 1) := by rw [← Nat.pow_add]; congr 1; omega
  by_cases htop : m.log2 = 53 + n
  · -- The surplus digits are those below the last one of the largest double.
    have hsurplus : surplus m e = n + 1 := by
      unfold surplus
      omega
    have hshort : m / 2 ^ n < 2 ^ 54 - 1 := (Nat.div_lt_iff_lt_mul (Nat.two_pow_pos n)).mpr hm
    have hhalf : m / 2 ^ (n + 1) = m / 2 ^ n / 2 := by rw [Nat.div_div_eq_div_mul, Nat.pow_succ]
    obtain ⟨em, hem⟩ : ∃ em, ExtendedMantissa.ofMantissaAndAccuracy m .exact >>> (n + 1) = em := ⟨_, rfl⟩
    have hmantissa : em.mantissa = m / 2 ^ (n + 1) := by
      rw [← hem, shiftRight_mantissa, mantissa_ofMantissaAndAccuracy]
    have hbit : em.roundBit = (m / 2 ^ n % 2 != 0) := by
      rw [← hem, shiftRight_roundBit, mantissa_ofMantissaAndAccuracy]
    have hr : em.roundedMantissa < 2 ^ 53 := by
      cases hodd : em.roundBit with
      | true =>
        have hle := roundedMantissa_le em
        rw [hbit, bne_iff_ne] at hodd
        omega
      | false =>
        rw [roundedMantissa_of_roundBit hodd]
        omega
    refine below_roundWithAccuracy (hsurplus ▸ congrArg _ hem) (by omega) (by omega) ?_
    have := log2_le_of_lt (k := 52) hr
    omega
  · exact below_round (k := 970) (by omega) he (by omega)

theorem log2_shiftLeft {m : Nat} (hm : 0 < m) (n : Nat) : (m <<< n).log2 = m.log2 + n := by
  rw [Nat.shiftLeft_eq]
  refine (Nat.log2_eq_iff (Nat.mul_pos hm (Nat.two_pow_pos n)).ne').mpr ⟨?_, ?_⟩
  · rw [Nat.pow_add]
    exact Nat.mul_le_mul_right _ (Nat.log2_self_le hm.ne')
  · have h := Nat.mul_lt_mul_of_pos_right (Nat.lt_log2_self (n := m)) (Nat.two_pow_pos n)
    rw [← Nat.pow_add] at h
    exact h.trans_eq (congrArg _ (by omega))

theorem below_round_exact {s : Sign} {m : Nat} {e k : Int} (hm : 0 < m) (hk : -1074 ≤ k) (he : e ≤ k)
    (hlog : m.log2 + e ≤ k + 52) : Below (k + 1) (UnpackedFloat.round Format.binary64 s m e) := by
  simp only [UnpackedFloat.round, UnpackedFloat.decreaseExponent]
  refine below_round hk (by omega) ?_
  rw [log2_shiftLeft hm]
  omega

theorem below_round_exact_of_lt {s : Sign} {m : Nat} {e : Int} (he : e ≤ 970)
    (hm : m < (2 ^ 54 - 1) * 2 ^ (970 - e).toNat) : Below 971 (UnpackedFloat.round Format.binary64 s m e) := by
  simp only [UnpackedFloat.round, UnpackedFloat.decreaseExponent]
  obtain ⟨n, hn⟩ : ∃ n, (e - Format.binary64.targetExponent (totalExponent m e)).toNat = n := ⟨_, rfl⟩
  rw [hn, Nat.shiftLeft_eq]
  refine below_round_of_lt (by omega) ?_
  have hsplit : (970 - (e - n)).toNat = (970 - e).toNat + n := by omega
  rw [hsplit, Nat.pow_add, ← Nat.mul_assoc]
  exact Nat.mul_lt_mul_of_pos_right hm (Nat.two_pow_pos n)

theorem below_normalize {m e k : Int} {z : Sign}
    (h : 0 < m.natAbs → ∀ s, Below k (UnpackedFloat.round Format.binary64 s m.natAbs e)) :
    Below k (UnpackedFloat.normalize Format.binary64 m e z) := by
  unfold UnpackedFloat.normalize
  split
  · next hlt =>
    have hneg := Int.compare_eq_lt.mp hlt
    have hsize : (-m).toNat = m.natAbs := by omega
    rw [hsize]
    exact h (by omega) _
  · trivial
  · next hgt =>
    have hpos := Int.compare_eq_gt.mp hgt
    have hsize : m.toNat = m.natAbs := by omega
    rw [hsize]
    exact h (by omega) _

theorem natAbs_apply (s : Sign) (m : Nat) : (s.apply (m : Int)).natAbs = m := by
  cases s with
  | positive => rfl
  | negative => exact Int.natAbs_neg _

section
variable {j k : Int} {m₁ m₂ : Nat} {e₁ e₂ : Int} (s₁ s₂ : Sign)

theorem below_total {m : Int} (hk : -1074 ≤ max j k) (h₁ : m₁ < 2 ^ 53) (he₁ : e₁ ≤ j)
    (h₂ : m₂ < 2 ^ 53) (he₂ : e₂ ≤ k)
    (hm : m.natAbs ≤ m₁ <<< (e₁ - min e₁ e₂).toNat + m₂ <<< (e₂ - min e₁ e₂).toNat) (z : Sign) :
    Below (max j k + 2) (UnpackedFloat.normalize Format.binary64 m (min e₁ e₂) z) := by
  refine below_normalize fun hpos s => ?_
  have hlog : m.natAbs.log2 ≤ 53 + (max e₁ e₂ - min e₁ e₂).toNat := by
    refine log2_le_of_lt (hm.trans_lt ?_)
    have hterm {a : Nat} {e : Int} (ha : a < 2 ^ 53) (he : e ≤ max e₁ e₂) :
        a <<< (e - min e₁ e₂).toNat < 2 ^ (53 + (max e₁ e₂ - min e₁ e₂).toNat) := by
      rw [Nat.shiftLeft_eq, Nat.pow_add]
      exact Nat.mul_lt_mul_of_lt_of_le ha (Nat.pow_le_pow_right two_pos (by omega)) (Nat.two_pow_pos _)
    have h₁' := hterm h₁ (le_max_left e₁ e₂)
    have h₂' := hterm h₂ (le_max_right e₁ e₂)
    rw [Nat.pow_succ]
    omega
  have hround := below_round_exact (s := s) (k := max j k + 1) hpos (by omega) (by omega)
    (show (m.natAbs.log2 : Int) + min e₁ e₂ ≤ max j k + 1 + 52 by omega)
  exact hround.mono (by omega)

/-- A number far below the largest double does not carry another double past it. -/
theorem below_total_modest {m : Int} (h₁ : m₁ < 2 ^ 53) (he₁ : e₁ ≤ 971) (h₂ : m₂ < 2 ^ 53)
    (he₂ : e₂ ≤ 900)
    (hm : m.natAbs ≤ m₁ <<< (e₁ - min e₁ e₂).toNat + m₂ <<< (e₂ - min e₁ e₂).toNat) (z : Sign) :
    Below 971 (UnpackedFloat.normalize Format.binary64 m (min e₁ e₂) z) := by
  refine below_normalize fun _ s => below_round_exact_of_lt (by omega) (hm.trans_lt ?_)
  obtain ⟨n, hn⟩ : ∃ n, (970 - min e₁ e₂).toNat = n := ⟨_, rfl⟩
  have hlarge : m₁ <<< (e₁ - min e₁ e₂).toNat ≤ (2 ^ 53 - 1) * 2 ^ (n + 1) := by
    rw [Nat.shiftLeft_eq]
    exact Nat.mul_le_mul (by omega) (Nat.pow_le_pow_right two_pos (by omega))
  have hsmall : m₂ <<< (e₂ - min e₁ e₂).toNat < 2 ^ n := by
    rw [Nat.shiftLeft_eq]
    calc m₂ * 2 ^ (e₂ - min e₁ e₂).toNat < 2 ^ 53 * 2 ^ (e₂ - min e₁ e₂).toNat :=
          Nat.mul_lt_mul_of_pos_right h₂ (Nat.two_pow_pos _)
      _ = 2 ^ (53 + (e₂ - min e₁ e₂).toNat) := (Nat.pow_add _ _ _).symm
      _ ≤ 2 ^ n := Nat.pow_le_pow_right two_pos (by omega)
  rw [hn]
  rw [Nat.pow_succ] at hlarge
  omega

end

section
variable {j k : Int} {u v : UnpackedFloat}

/-- A bound for sums of two finite numbers is one for sums with zeros too. -/
theorem below_add_and_sub {l : Int} (hu : Below j u) (hv : Below k v) (hj : j ≤ l) (hk : k ≤ l)
    (h : ∀ {m₁ m₂ : Nat} {e₁ e₂ m : Int}, m₁ < 2 ^ 53 → e₁ ≤ j → m₂ < 2 ^ 53 → e₂ ≤ k →
      m.natAbs ≤ m₁ <<< (e₁ - min e₁ e₂).toNat + m₂ <<< (e₂ - min e₁ e₂).toNat →
        ∀ z, Below l (UnpackedFloat.normalize Format.binary64 m (min e₁ e₂) z)) :
    Below l (UnpackedFloat.add Format.binary64 u v) ∧ Below l (UnpackedFloat.sub Format.binary64 u v) := by
  cases u with
  | notANumber => exact hu.elim
  | infinity s => exact hu.elim
  | zero s =>
    cases v with
    | notANumber => exact hv.elim
    | infinity t => exact hv.elim
    | zero t => cases s <;> cases t <;> exact ⟨trivial, trivial⟩
    | finite t m e hm => exact ⟨hv.mono hk, hv.1, hv.2.trans hk⟩
  | finite s m e hm =>
    cases v with
    | notANumber => exact hv.elim
    | infinity t => exact hv.elim
    | zero t => exact ⟨hu.mono hj, hu.mono hj⟩
    | finite t n f hn =>
      refine ⟨h hu.1 hu.2 hv.1 hv.2 ((Int.natAbs_add_le _ _).trans_eq ?_) _,
        h hu.1 hu.2 hv.1 hv.2 ((Int.natAbs_sub_le _ _).trans_eq ?_) _⟩ <;>
      rw [natAbs_apply, natAbs_apply]

theorem Below.mul (hu : Below j u) (hv : Below k v) (hk : -1074 ≤ j + k) :
    Below (j + k + 54) (UnpackedFloat.mul Format.binary64 u v) := by
  cases u with
  | notANumber => exact hu.elim
  | infinity s => exact hu.elim
  | zero s =>
    cases v with
    | notANumber => exact hv.elim
    | infinity t => exact hv.elim
    | zero t => trivial
    | finite t m e hm => trivial
  | finite s m e hm =>
    cases v with
    | notANumber => exact hv.elim
    | infinity t => exact hv.elim
    | zero t => trivial
    | finite t n f hn =>
      have hlog : (m * n).log2 ≤ 105 := by
        refine log2_le_of_lt ?_
        calc m * n < 2 ^ 53 * 2 ^ 53 := Nat.mul_lt_mul'' hu.1 hv.1
          _ = 2 ^ 106 := (Nat.pow_add 2 53 53).symm
      have he := hu.2
      have hf := hv.2
      have hround : Below (j + k + 53 + 1) (UnpackedFloat.roundWithAccuracy Format.binary64 (s * t) (m * n) (e + f)
          .exact) := below_round (by omega) (by omega) (by omega)
      exact hround.mono (by omega)

theorem Below.half {s : Sign} (hu : Below k u) (hk : -1074 < k) :
    Below k (UnpackedFloat.div Format.binary64 u (.finite s (2 ^ 52) (-51) (Nat.two_pow_pos 52))) := by
  cases u with
  | notANumber => exact hu.elim
  | infinity s => exact hu.elim
  | zero s => trivial
  | finite t m e hm =>
    obtain ⟨hlt, he⟩ := hu
    have hm52 := log2_le_of_lt (k := 52) hlt
    have htwo : (2 ^ 52 : Nat).log2 = 52 := Nat.log2_two_pow
    simp only [UnpackedFloat.div, UnpackedFloat.divCore, Format.targetExponent, totalExponent,
      Format.mantissaBits, Format.minExponent, htwo]
    generalize hd : min (e - -51) _ = d
    have hshift : (m <<< (e - -51 - d).toNat / 2 ^ 52).log2 ≤ (e - -51 - d).toNat := by
      refine log2_le_of_lt ((Nat.div_lt_iff_lt_mul (Nat.two_pow_pos 52)).mpr ?_)
      rw [Nat.shiftLeft_eq, ← Nat.pow_add]
      calc m * 2 ^ (e - -51 - d).toNat < 2 ^ 53 * 2 ^ (e - -51 - d).toNat :=
            Nat.mul_lt_mul_of_pos_right hlt (Nat.two_pow_pos _)
        _ = 2 ^ ((e - -51 - d).toNat + 1 + 52) := by rw [← Nat.pow_add]; congr 1; omega
    norm_num at hd
    have hround := below_round (s := t / s) (m := m <<< (e - -51 - d).toNat / 2 ^ 52) (e := d)
      (k := k - 1) (a := UnpackedFloat.accuracyOfFraction (m <<< (e - -51 - d).toNat % 2 ^ 52) (2 ^ 52))
      (by omega) (by omega) (by omega)
    exact hround.mono (by omega)

end

end GoodeMap.Binary64
