import GoodeMap.Longitude
import GoodeMap.Proofs.DoubleArithmetic

/-! Longitudes of doubles. Wrapping gives a number near the principal range for every finite longitude and
no number for any other. -/
namespace GoodeMap.Double
open Binary64 Scalar
open Float.Model (Format UnpackedFloat)
variable {c : Circular}

theorem significand_lt (bits : UInt64) : (Binary.ofBits bits).significand < 2 ^ 53 := by
  have hfraction : (bits &&& 0xFFFFFFFFFFFFF).toNat < 2 ^ 52 := by
    rw [UInt64.toNat_and]
    exact Nat.lt_of_le_of_lt Nat.and_le_right (by decide)
  unfold Binary.ofBits
  dsimp only
  split_ifs
  · dsimp only
    omega
  · dsimp only
    omega

theorem below_repeat_half (n : Nat) :
    Below (-52) (view (Nat.repeat (fun x : Double c => x / 2.0) n 1.0)) := by
  induction n with
  | zero =>
    change Below (-52) (view (1.0 : Double c))
    rw [view_one]
    exact ⟨by decide, le_rfl⟩
  | succ n ih => exact below_half ih (by omega) (by omega)

theorem below_twoPow {e : Int} (he : e < 0) : Below (-52) (@view c (twoPow e)) := by
  have hhalves : twoPow e = Nat.repeat (· / 2.0) (-e).toNat 1.0 := if_neg (by omega)
  rw [hhalves]
  exact below_repeat_half _

theorem below_toFloat {n : UInt64} (h : n.toNat < 2 ^ 53) : Below 1 (@view c n.toFloat) := by
  have hnormalize : Below 1 (UnpackedFloat.normalize Format.binary64 n.toNat 0 .positive) := by
    have hlog := log2_le_of_lt (k := 52) h
    refine below_normalize fun hpos s => below_round_exact (k := 0) hpos (by omega) le_rfl ?_
    rw [Int.natAbs_natCast]
    omega
  exact hnormalize.stored (by omega) (by omega)

/-- A remainder is no longer than the dividend or the divisor. -/
theorem mod_lt_of_scaled {m n d e : Nat} (hm : m < 2 ^ 53) (hn : n < 2 ^ 53) (hpos : 0 < n)
    (h : d = 0 ∨ e = 0) : m * Nat.pow 2 d % (n * Nat.pow 2 e) < 2 ^ 53 := by
  rcases h with rfl | rfl
  · exact (Nat.mod_le _ _).trans_lt ((Nat.mul_one m).trans_lt hm)
  · exact (Nat.mod_lt _ (Nat.mul_pos hpos (Nat.two_pow_pos 0))).trans ((Nat.mul_one n).trans_lt hn)

theorem below_sizeMod {a b : Binary} (ha : a.significand < 2 ^ 53) (hb : b.significand < 2 ^ 53)
    (hpos : 0 < b.significand) (he : b.exponent < 0) : Below 3 (@view c (sizeMod a b)) := by
  have hmod := mod_lt_of_scaled (d := (a.exponent - min a.exponent b.exponent).toNat)
    (e := (b.exponent - min a.exponent b.exponent).toNat) ha hb hpos (by omega)
  have hsize : (UInt64.ofNat (a.significand * Nat.pow 2 (a.exponent - min a.exponent b.exponent).toNat %
      (b.significand * Nat.pow 2 (b.exponent - min a.exponent b.exponent).toNat))).toNat < 2 ^ 53 := by
    rw [UInt64.toNat_ofNat']
    exact (Nat.mod_le _ _).trans_lt hmod
  exact below_mul (c := c) (below_toFloat hsize) (below_twoPow (by omega)) (by omega) (by omega)

/-- The reading of a whole turn. -/
theorem ofFloat_twoPi : Reading.ofFloat (twoPi : Float) = .finite false ⟨7074237752028440, -50, false⟩ := by
  decide +kernel

theorem below_twoPi : Below (-50) (view (twoPi : Double c)) := by
  have hnative : Below (-50) (view (twoPi : Double .native)) := by decide +kernel
  exact hnative

theorem below_pi : Below (-51) (view (pi : Double c)) := by
  have hnative : Below (-51) (view (pi : Double .native)) := by decide +kernel
  exact hnative

theorem isNaN_iff {x : Double c} : Float.isNaN x = true ↔ ¬ x ≤ x := by
  rw [placed_iff, not_not]
  exact UnpackedFloat.isNaN_iff

def turnRest (x : Float) : Float := sizeMod (Binary.ofBits x.toBits) ⟨7074237752028440, -50, false⟩

/-- The three answers of the remainder by a whole turn. -/
theorem floorMod_twoPi {x : Float} (hx : x.isFinite = true) (hnan : ¬ x.isNaN = true) :
    Binary64.floorMod x twoPi = Binary64.copySign 0.0 twoPi ∨
      Binary64.floorMod x twoPi = Binary64.copySign (turnRest x) twoPi ∨
        Binary64.floorMod x twoPi = Binary64.copySign (turnRest x) x + twoPi := by
  have hread : Reading.ofFloat x = .finite (Reading.negativeBit x) (Binary.ofBits x.toBits) := by
    rw [Reading.ofFloat, if_neg hnan, if_pos hx]
  simp only [Binary64.floorMod, hread, ofFloat_twoPi]
  rw [if_neg (by norm_num)]
  split_ifs
  · exact .inl rfl
  · exact .inr (.inl rfl)
  · exact .inr (.inr rfl)

theorem floorMod_twoPi_of_not_isFinite {x : Float} (hx : ¬ x.isFinite = true) :
    Binary64.floorMod x twoPi = 0.0 / 0.0 := by
  have hread : Reading.ofFloat x = .undefined ∨ ∃ negative, Reading.ofFloat x = .infinite negative := by
    unfold Reading.ofFloat
    split_ifs
    · exact .inl rfl
    · exact .inr ⟨_, rfl⟩
  rcases hread with h | ⟨negative, h⟩ <;> simp only [Binary64.floorMod, h, ofFloat_twoPi]

theorem below_floorMod {x : Double c} (hx : isFinite x = true) :
    Below 5 (view (Scalar.floorMod x twoPi)) := by
  have hrest : Below 3 (@view c (turnRest x)) :=
    below_sizeMod (significand_lt _) (by norm_num) (by norm_num) (by norm_num)
  rcases floorMod_twoPi hx (mt isNaN_iff.mp (not_not.mpr (placed_of_isFinite hx))) with h | h | h
  · have hview : view (Scalar.floorMod x twoPi) = view (Scalar.copySign (0.0 : Double c) twoPi) :=
      congrArg (@view c) h
    rw [hview, below_copySign, view_zero]
    trivial
  · have hview : view (Scalar.floorMod x twoPi) = view (@Scalar.copySign (Double c) _ (turnRest x) twoPi) :=
      congrArg (@view c) h
    rw [hview]
    exact (below_copySign.mpr hrest).mono (by omega)
  · have hview : view (Scalar.floorMod x twoPi) =
        view (@Scalar.copySign (Double c) _ (turnRest x) x + twoPi) := congrArg (@view c) h
    rw [hview]
    exact (below_add_sub (below_copySign.mpr hrest) below_twoPi (by omega) (by omega)).1

theorem not_placed_undefined : ¬ (0.0 / 0.0 : Double c) ≤ 0.0 / 0.0 := by
  rw [placed_iff, view_div, view_zero, not_not]
  rfl

theorem not_placed_floorMod {x : Double c} (hx : ¬ isFinite x = true) :
    ¬ Scalar.floorMod x twoPi ≤ Scalar.floorMod x twoPi := by
  have h : Scalar.floorMod x twoPi = (0.0 / 0.0 : Double c) := floorMod_twoPi_of_not_isFinite hx
  rw [h]
  exact not_placed_undefined

section
variable {lon : Double c}

theorem below_of_within_pi (h : Within (-pi) pi lon) : Below (-51) (view lon) :=
  below_of_between (below_neg.mpr below_pi) below_pi h.1 h.2

/-- A finite longitude is wrapped to a number no longer than a few turns. -/
theorem below_normalize_longitude (h : isFinite lon = true) : Below 7 (view (Longitude.normalize lon)) := by
  unfold Longitude.normalize
  split_ifs with hrange
  · exact (below_of_within_pi hrange).mono (by omega)
  · have hsum : isFinite (lon + pi) = true := (isFinite_add_sub h (below_pi.mono (by omega))).1
    exact (below_add_sub (below_floorMod hsum) below_pi (by omega) (by omega)).2

theorem placed_normalize_iff :
    Longitude.normalize lon ≤ Longitude.normalize lon ↔ isFinite lon = true := by
  constructor
  · intro h
    unfold Longitude.normalize at h
    split_ifs at h with hrange
    · exact isFinite_iff.mpr ((below_of_within_pi hrange).mono (by omega))
    · by_contra hlon
      have hsum : ¬ isFinite (lon + pi) = true := fun hsum =>
        hlon (isFinite_of_add_or_sub (isFinite_iff.mpr (below_pi.mono (by omega))) (.inl hsum))
      exact not_placed_floorMod hsum (placed_of_sub h).1
  · intro h
    exact placed_of_isFinite (isFinite_iff.mpr ((below_normalize_longitude h).mono (by omega)))

end

end GoodeMap.Double
