import GoodeMap.Longitude
import GoodeMap.Proofs.Reals

/-! Longitudes up to whole turns. Wrapping moves a longitude by whole turns into the principal range, so
two wraps in a row differ from none by whole turns. -/
namespace GoodeMap.Longitude
open Scalar

def Congruent (a b : ℝ) : Prop := ∃ k : ℤ, a = b + 2 * Real.pi * k

theorem wrap_real (lon : ℝ) :
    wrap lon = lon + Real.pi - ⌊(lon + Real.pi) / (2 * Real.pi)⌋ * (2 * Real.pi) - Real.pi := by
  rw [wrap, floorMod_real, twoPi_real, pi_real, mul_comm (2 * Real.pi)]

theorem within_wrap (lon : ℝ) : Within (-pi) pi (wrap lon) := by
  have hlow := Int.sub_floor_div_mul_nonneg (lon + Real.pi) Real.two_pi_pos
  have hhigh := Int.sub_floor_div_mul_lt (lon + Real.pi) Real.two_pi_pos
  rw [wrap_real, pi_real]
  constructor <;> linarith

theorem congruent_wrap (lon : ℝ) : Congruent (wrap lon) lon := by
  refine ⟨-⌊(lon + Real.pi) / (2 * Real.pi)⌋, ?_⟩
  rw [wrap_real]
  push_cast
  ring

theorem within_normalize (lon : ℝ) : Within (-pi) pi (normalize lon) := by
  unfold normalize
  split_ifs with h
  · exact h
  · exact within_wrap lon

theorem congruent_normalize (lon : ℝ) : Congruent (normalize lon) lon := by
  unfold normalize
  split_ifs with h
  · exact ⟨0, by simp⟩
  · exact congruent_wrap lon

theorem Congruent.symm {a b : ℝ} (h : Congruent a b) : Congruent b a := by
  obtain ⟨k, rfl⟩ := h
  refine ⟨-k, ?_⟩
  push_cast
  ring

theorem Congruent.trans {a b c : ℝ} (hab : Congruent a b) (hbc : Congruent b c) : Congruent a c := by
  obtain ⟨k, rfl⟩ := hab
  obtain ⟨l, rfl⟩ := hbc
  refine ⟨k + l, ?_⟩
  push_cast
  ring

theorem Congruent.add_right {a b : ℝ} (h : Congruent a b) (c : ℝ) : Congruent (a + c) (b + c) := by
  obtain ⟨k, rfl⟩ := h
  exact ⟨k, by ring⟩

/-- The range is closed at both ends, so only a longitude inside it is alone there. -/
theorem Congruent.eq_of_abs_lt {a b : ℝ} (h : Congruent a b) (ha : Within (-pi) pi a)
    (hb : |b| < Real.pi) : a = b := by
  obtain ⟨k, rfl⟩ := h
  obtain ⟨hlow, hhigh⟩ := ha
  obtain ⟨hb1, hb2⟩ := abs_lt.mp hb
  rw [pi_real] at hlow hhigh
  have hturn : |2 * Real.pi * k| < 2 * Real.pi := abs_lt.mpr ⟨by linarith, by linarith⟩
  have hk : k = 0 := by
    rw [abs_mul, abs_of_pos Real.two_pi_pos] at hturn
    have hone : |(k : ℝ)| < 1 := by
      by_contra hge
      have hmul := mul_le_mul_of_nonneg_left (not_lt.mp hge) Real.two_pi_pos.le
      linarith
    exact Int.abs_lt_one_iff.mp (by exact_mod_cast hone)
  simp [hk]

end GoodeMap.Longitude
