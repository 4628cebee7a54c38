import GoodeMap.Check
import GoodeMap.Proofs.NearestDouble

/-! Points between two doubles, at equal steps from the lower one. A point is the result of four operations; it
does not fall below the lower end, and with fewer than 2^44 steps not past the upper one, unless the ends are so
close that a step is near the smallest double. -/
namespace GoodeMap
namespace Double
open Binary64
open Float.Model (Format UnpackedFloat)
open Float.Model.UnpackedFloat (Sign)
variable {c : Circular} {x y z : Double c} {q : ℚ}

def NextTo (z : Double c) (q : ℚ) : Prop := Scalar.isFinite z = true ∧ Rounds q (view z)

theorem nextTo_of_isFinite {u : UnpackedFloat} (hz : view z = stored u) (h : Rounds q u)
    (hfinite : Scalar.isFinite z = true) : z.NextTo q := by
  have hbelow := isFinite_iff.mp hfinite
  rw [hz] at hbelow
  refine ⟨hfinite, ?_⟩
  rwa [hz, h.normal.stored (h.normal.below_of_stored hbelow)]

theorem nextTo_of_le {u : UnpackedFloat} (hz : view z = stored u) (h : Rounds q u)
    (hq : |q| ≤ 2 ^ 200) : z.NextTo q := by
  refine nextTo_of_isFinite hz h (isFinite_iff.mpr ?_)
  rw [hz, h.normal.stored (h.below hq)]
  exact h.below hq

section
variable (hx : Scalar.isFinite x = true) (hy : Scalar.isFinite y = true)
include hx hy

theorem nextTo_add (h : |x.value + y.value| ≤ 2 ^ 200) : (x + y).NextTo (x.value + y.value) :=
  nextTo_of_le (view_add x y) (rounds_add (normal_view hx) (normal_view hy)) h

theorem nextTo_sub (h : |x.value - y.value| ≤ 2 ^ 200) : (x - y).NextTo (x.value - y.value) :=
  nextTo_of_le (view_sub x y) (rounds_sub (normal_view hx) (normal_view hy)) h

theorem nextTo_mul (h : |x.value * y.value| ≤ 2 ^ 200) : (x * y).NextTo (x.value * y.value) :=
  nextTo_of_le (view_mul x y) (rounds_mul (normal_view hx) (normal_view hy)) h

theorem nextTo_div (hne : y.value ≠ 0) (h : |x.value / y.value| ≤ 2 ^ 200) : (x / y).NextTo (x.value / y.value) :=
  nextTo_of_le (view_div x y) (rounds_div (normal_view hx) (normal_view hy) hne) h

end

theorem NextTo.le_of_le (h : z.NextTo q) (hy : Scalar.isFinite y = true) (hq : q ≤ y.value) : z.value ≤ y.value :=
  h.2.le_of_le (normal_view hy) hq

theorem NextTo.ge_of_ge (h : z.NextTo q) (hy : Scalar.isFinite y = true) (hq : y.value ≤ q) : y.value ≤ z.value :=
  h.2.ge_of_ge (normal_view hy) hq

theorem NextTo.abs_sub_le (h : z.NextTo q) : |z.value - q| ≤ |q| / 2 ^ 52 + 2 ^ (-1074 : ℤ) := h.2.abs_sub_le

theorem zero_finite : Scalar.isFinite (0.0 : Double c) = true := by
  rw [isFinite_iff, view_zero]
  trivial

theorem one_spec : Scalar.isFinite (1.0 : Double c) = true ∧ (1.0 : Double c).value = 1 := by
  rw [isFinite_iff, value, view_one, Binary64.value]
  exact ⟨⟨by norm_num, by norm_num⟩, by norm_num [Sign.apply]⟩

theorem ofNat_eq {n : ℕ} (hn : n < 2 ^ 53) :
    ∃ z : Double c, view z = stored (UnpackedFloat.normalize Format.binary64 n 0 .positive) ∧
      Scalar.ofNat n = z * 1.0 := by
  have hword : n.toUInt64.toNat = n := Nat.mod_eq_of_lt (hn.trans (by norm_num))
  refine ⟨n.toUInt64.toFloat, ?_, ?_⟩
  · change stored (UnpackedFloat.normalize Format.binary64 n.toUInt64.toNat 0 .positive) = _
    rw [hword]
  · change Float.ofScientific n false 0 = _
    rw [Float.ofScientific, dif_pos ⟨hn, by norm_num⟩]
    rfl

/-- Counts of at most 53 binary digits are doubles. -/
theorem ofNat_spec {n : ℕ} (hn : n < 2 ^ 53) :
    Scalar.isFinite (Scalar.ofNat n : Double c) = true ∧ (Scalar.ofNat n : Double c).value = n := by
  have hsize : |(n : ℚ)| ≤ 2 ^ 200 := by
    rw [Nat.abs_cast]
    have hn' : (n : ℚ) < 2 ^ 53 := by exact_mod_cast hn
    exact hn'.le.trans (by norm_num)
  obtain ⟨z, hz, heq⟩ := ofNat_eq (c := c) hn
  have hcount := nextTo_of_le hz (rounds_natCast n) hsize
  have hvalue : z.value = n := hcount.2.eq_natCast hn
  have hproduct := nextTo_mul hcount.1 one_spec.1 (by rwa [hvalue, one_spec.2, mul_one])
  rw [hvalue, one_spec.2, mul_one] at hproduct
  rw [heq]
  exact ⟨hproduct.1, hproduct.2.eq_natCast hn⟩

theorem smallest_pos : (0 : ℚ) < 2 ^ (-1074 : ℤ) := zpow_two_pos _

theorem smallest_le : (2 : ℚ) ^ (-1074 : ℤ) ≤ 1 / 2 ^ 200 := by
  refine (zpow_two_mono (show (-1074 : ℤ) ≤ -200 by norm_num)).trans_eq ?_
  rw [zpow_neg, one_div]
  rfl

theorem NextTo.nonneg (h : z.NextTo q) (hq : 0 ≤ q) : 0 ≤ z.value := by
  have hzero := h.ge_of_ge zero_finite (by rwa [value_zero])
  rwa [value_zero] at hzero

theorem NextTo.le_add (h : z.NextTo q) (hq : 0 ≤ q) : z.value ≤ q + q / 2 ^ 52 + 2 ^ (-1074 : ℤ) := by
  have herror := (abs_le.mp h.abs_sub_le).2
  rw [abs_of_nonneg hq] at herror
  linarith

theorem NextTo.sub_le (h : z.NextTo q) (hq : 0 ≤ q) : q - q / 2 ^ 52 - 2 ^ (-1074 : ℤ) ≤ z.value := by
  have herror := (abs_le.mp h.abs_sub_le).1
  rw [abs_of_nonneg hq] at herror
  linarith

/-- Rounding three times takes a part that is short of the whole by one in 2^44 not past the whole, but for
what the smallest double adds. -/
theorem part_le {whole width step part k n tiny : ℚ} (hwidth : width ≤ whole + whole / 2 ^ 52 + tiny)
    (hstep : step ≤ width / n + width / n / 2 ^ 52 + tiny) (hpart : part ≤ k * step + k * step / 2 ^ 52 + tiny)
    (hk : 0 ≤ k) (hkn : k + 1 ≤ n) (hn : n ≤ 2 ^ 44) (hw : 0 ≤ width) (htiny : 0 ≤ tiny) :
    part ≤ (1 - 1 / 2 ^ 45) * whole + 2 ^ 50 * tiny := by
  have hpos : 0 < n := by linarith
  have hratio : k / n ≤ 1 - 1 / 2 ^ 44 := by
    rw [div_le_iff₀ hpos]
    linarith
  have hshare : k * (width / n) ≤ (1 - 1 / 2 ^ 44) * width := by
    rw [mul_div_left_comm, mul_comm]
    exact mul_le_mul_of_nonneg_right hratio hw
  have hsteps : k * step ≤ (1 + 1 / 2 ^ 52) * (k * (width / n)) + k * tiny := by
    calc k * step ≤ k * (width / n + width / n / 2 ^ 52 + tiny) := mul_le_mul_of_nonneg_left hstep hk
      _ = (1 + 1 / 2 ^ 52) * (k * (width / n)) + k * tiny := by ring
  have hcount : k * tiny ≤ 2 ^ 44 * tiny := mul_le_mul_of_nonneg_right (by linarith) htiny
  linarith

structure Ends (low high : Double c) : Prop where
  low_finite : Scalar.isFinite low = true
  high_finite : Scalar.isFinite high = true
  lt : low.value < high.value
  length_le : high.value - low.value ≤ 8

namespace Ends
variable {low high : Double c} (h : Ends low high)
include h

theorem length_nonneg : 0 ≤ high.value - low.value := (sub_pos.mpr h.lt).le

theorem width_spec : (high - low).NextTo (high.value - low.value) ∧
    0 ≤ (high - low).value ∧ (high - low).value ≤ 9 := by
  have hlength := h.length_le
  have hnext := nextTo_sub h.high_finite h.low_finite
    (by rw [abs_of_nonneg h.length_nonneg]; exact hlength.trans (by norm_num))
  have hle := hnext.le_add h.length_nonneg
  have hsmall := smallest_le
  exact ⟨hnext, hnext.nonneg h.length_nonneg, by linarith⟩

variable {part count : ℕ} (hpart : part < count) (hcount : count < 2 ^ 44)
include hpart hcount

theorem step_spec : ((high - low) / Scalar.ofNat count).NextTo ((high - low).value / count) := by
  obtain ⟨hwidth, hnonneg, hle⟩ := h.width_spec
  obtain ⟨hfinite, hvalue⟩ := ofNat_spec (c := c) (hcount.trans (by norm_num))
  have hone : (1 : ℚ) ≤ count := by exact_mod_cast (Nat.zero_lt_of_lt hpart : 0 < count)
  have hquotient : |(high - low).value / (count : ℚ)| ≤ 2 ^ 200 := by
    rw [abs_of_nonneg (by positivity)]
    exact ((div_le_self hnonneg hone).trans hle).trans (by norm_num)
  rw [← hvalue] at hquotient ⊢
  exact nextTo_div hwidth.1 hfinite (by rw [hvalue]; linarith) hquotient

/-- Steps from the lower end. -/
theorem steps_spec : Scalar.isFinite (Scalar.ofNat part * ((high - low) / Scalar.ofNat count)) = true ∧
    0 ≤ (Scalar.ofNat part * ((high - low) / Scalar.ofNat count)).value ∧
      (Scalar.ofNat part * ((high - low) / Scalar.ofNat count)).value ≤
        (1 - 1 / 2 ^ 45) * (high.value - low.value) + 2 ^ 50 * 2 ^ (-1074 : ℤ) := by
  obtain ⟨hwidth, hnonneg, hle⟩ := h.width_spec
  have hstep := h.step_spec hpart hcount
  obtain ⟨hfinite, hvalue⟩ := ofNat_spec (c := c) (hpart.trans (hcount.trans (by norm_num)))
  have hk : (0 : ℚ) ≤ part := Nat.cast_nonneg part
  have hkn : (part : ℚ) + 1 ≤ count := by exact_mod_cast hpart
  have hn : (count : ℚ) ≤ 2 ^ 44 := by exact_mod_cast hcount.le
  have hquotient : 0 ≤ (high - low).value / count := by positivity
  have hstepNonneg := hstep.nonneg hquotient
  have hstepLe := hstep.le_add hquotient
  have hproductNonneg : 0 ≤ (part : ℚ) * ((high - low) / Scalar.ofNat count).value := mul_nonneg hk hstepNonneg
  have hproductLe : (part : ℚ) * ((high - low) / Scalar.ofNat count).value ≤ 2 ^ 200 := by
    have hshare : (high - low).value / count ≤ 9 := (div_le_self hnonneg (by linarith)).trans hle
    have hsmall := smallest_le
    calc (part : ℚ) * ((high - low) / Scalar.ofNat count).value ≤ 2 ^ 44 * 20 := by
          refine mul_le_mul (by linarith) ?_ hstepNonneg (by norm_num)
          linarith
      _ ≤ 2 ^ 200 := by norm_num
  have hproduct := nextTo_mul hfinite hstep.1 (by rwa [hvalue, abs_of_nonneg hproductNonneg])
  rw [hvalue] at hproduct
  exact ⟨hproduct.1, hproduct.nonneg hproductNonneg, part_le (hwidth.le_add h.length_nonneg) hstepLe
    (hproduct.le_add hproductNonneg) hk hkn hn hnonneg smallest_pos.le⟩

/-- A fraction of the width, taken where the step is zero: the width is far less than a unit then. -/
theorem fraction_spec (hzero : Scalar.Meets ((high - low) / Scalar.ofNat count) 0.0) :
    Scalar.isFinite (Scalar.ofNat part / Scalar.ofNat count * (high - low)) = true ∧
      0 ≤ (Scalar.ofNat part / Scalar.ofNat count * (high - low)).value ∧
        (Scalar.ofNat part / Scalar.ofNat count * (high - low)).value ≤ (high - low).value ∧
          high.value - low.value < 1 / 2 ^ 52 := by
  obtain ⟨hwidth, hnonneg, hle⟩ := h.width_spec
  have hstep := h.step_spec hpart hcount
  obtain ⟨hpartFinite, hpartValue⟩ := ofNat_spec (c := c) (hpart.trans (hcount.trans (by norm_num)))
  obtain ⟨hcountFinite, hcountValue⟩ := ofNat_spec (c := c) (hcount.trans (by norm_num))
  have hk : (0 : ℚ) ≤ part := Nat.cast_nonneg part
  have hkn : (part : ℚ) + 1 ≤ count := by exact_mod_cast hpart
  have hn : (count : ℚ) ≤ 2 ^ 44 := by exact_mod_cast hcount.le
  have hpos : (0 : ℚ) < count := by linarith
  have hratio : 0 ≤ (part : ℚ) / count := by positivity
  have hratioLe : (part : ℚ) / count ≤ 1 := by
    rw [div_le_one hpos]
    linarith
  have hfraction := nextTo_div hpartFinite hcountFinite (by rw [hcountValue]; exact hpos.ne')
    (by rw [hpartValue, hcountValue, abs_of_nonneg hratio]; exact hratioLe.trans (by norm_num))
  rw [hpartValue, hcountValue] at hfraction
  have hfractionNonneg := hfraction.nonneg hratio
  have hfractionLe := hfraction.le_of_le one_spec.1 (by rwa [one_spec.2])
  rw [one_spec.2] at hfractionLe
  have hproductNonneg := mul_nonneg hfractionNonneg hnonneg
  have hproductLe := mul_le_of_le_one_left hnonneg hfractionLe
  have hproduct := nextTo_mul hfraction.1 hwidth.1
    (by rw [abs_of_nonneg hproductNonneg]; exact (hproductLe.trans hle).trans (by norm_num))
  refine ⟨hproduct.1, hproduct.nonneg hproductNonneg, hproduct.le_of_le hwidth.1 hproductLe, ?_⟩
  have hstepZero : ((high - low) / Scalar.ofNat count).value ≤ 0 := by
    rw [← value_zero (c := c)]
    exact (le_iff_value hstep.1 zero_finite).mp hzero.1
  have hstepLow := hstep.sub_le (by positivity)
  have hwidthLow := hwidth.sub_le h.length_nonneg
  have hsmall := smallest_le
  have htiny := smallest_pos
  have hshare : (high - low).value / count ≤ 2 * 2 ^ (-1074 : ℤ) := by linarith
  rw [div_le_iff₀ hpos] at hshare
  have hwidthLe : (high - low).value ≤ 2 * 2 ^ (-1074 : ℤ) * 2 ^ 44 :=
    hshare.trans (mul_le_mul_of_nonneg_left hn (by linarith))
  linarith

/-- A point is rounded from one that is not past the upper end, unless the ends are closer than a unit. -/
theorem pointBetween_spec (hbound : |low.value| ≤ 4) : ∃ p, 0 ≤ p ∧
    (p ≤ high.value - low.value ∨ high.value - low.value < 1 / 2 ^ 52 ∧ p ≤ 1) ∧
      NextTo (Checker.pointBetween low high part count) (p + low.value) := by
  obtain ⟨hwidth, -, hle⟩ := h.width_spec
  have hlength := h.length_nonneg
  have hsmall := smallest_le
  have hnext {z : Double c} (hz : Scalar.isFinite z = true) (hnonneg : 0 ≤ z.value) (hz' : z.value ≤ 9) :
      (z + low).NextTo (z.value + low.value) := by
    refine nextTo_add hz h.low_finite ((abs_add_le _ _).trans ?_)
    rw [abs_of_nonneg hnonneg]
    linarith
  by_cases hzero : Scalar.Meets ((high - low) / Scalar.ofNat count) 0.0
  · obtain ⟨hfinite, hnonneg, hle', hclose⟩ := h.fraction_spec hpart hcount hzero
    have hwidthLe := hwidth.le_add hlength
    refine ⟨_, hnonneg, .inr ⟨hclose, by linarith⟩, ?_⟩
    have heq : Checker.pointBetween low high part count =
        Scalar.ofNat part / Scalar.ofNat count * (high - low) + low := by
      rw [Checker.pointBetween, if_pos hzero]
    rw [heq]
    exact hnext hfinite hnonneg (hle'.trans hle)
  · obtain ⟨hfinite, hnonneg, hle'⟩ := h.steps_spec hpart hcount
    refine ⟨_, hnonneg, ?_, ?_⟩
    · rcases lt_or_ge (high.value - low.value) (1 / 2 ^ 52) with hclose | hapart
      · exact .inr ⟨hclose, by linarith⟩
      · exact .inl (by linarith)
    · have heq : Checker.pointBetween low high part count =
          Scalar.ofNat part * ((high - low) / Scalar.ofNat count) + low := by
        rw [Checker.pointBetween, if_neg hzero]
      rw [heq]
      exact hnext hfinite hnonneg (by linarith [h.length_le])

end Ends

/-- A point between two boundaries stays between the ends of the table. -/
theorem within_pointBetween {west east low high : Double c} {part count : ℕ} (hwest : Scalar.isFinite west = true)
    (heast : Scalar.isFinite east = true) (hlow : Scalar.isFinite low = true) (hhigh : Scalar.isFinite high = true)
    (hwestLow : west ≤ low) (hlt : low < high) (hhighEast : high ≤ east) (hwestSize : -4 ≤ west.value)
    (heastSize : 2 ≤ east.value ∧ east.value ≤ 4) (hpart : part < count) (hcount : count < 2 ^ 44) :
    Scalar.Within west east (Checker.pointBetween low high part count) := by
  rw [le_iff_value hwest hlow] at hwestLow
  rw [lt_iff_value hlow hhigh] at hlt
  rw [le_iff_value hhigh heast] at hhighEast
  have hends : Ends low high := ⟨hlow, hhigh, hlt, by linarith⟩
  obtain ⟨p, hp, hsize, hnext⟩ := hends.pointBetween_spec hpart hcount (abs_le.mpr ⟨by linarith, by linarith⟩)
  have hge := hnext.ge_of_ge hlow (le_add_of_nonneg_left hp)
  rw [Scalar.Within, le_iff_value hwest hnext.1, le_iff_value hnext.1 heast]
  refine ⟨hwestLow.trans hge, hnext.le_of_le heast ?_⟩
  rcases hsize with hsize | ⟨hclose, hsize⟩
  · linarith
  · have hunit : low.value < 1 := by
      refine not_le.mp fun hone => hclose.not_ge ?_
      have h := unit_le_sub (e := -52) hlow hhigh (by norm_num; exact hone) hlt
      norm_num at h ⊢
      exact h
    linarith

end Double
end GoodeMap
