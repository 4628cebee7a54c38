import GoodeMap.Lobe.Select
import GoodeMap.Proofs.Reals

/-! Lobes as a partition of their table's range: bisection finds the one lobe that owns a coordinate.
Only those laws of order are used that hold with unplaced members too, so doubles are no exception. -/
namespace GoodeMap

class LawfulOrder (α : Type) [Scalar α] : Prop where
  le_of_lt {a b : α} : a < b → a ≤ b
  le_trans {a b c : α} : a ≤ b → b ≤ c → a ≤ c
  lt_of_lt_of_le {a b c : α} : a < b → b ≤ c → a < c
  not_lt_of_le {a b : α} : a ≤ b → ¬ b < a
  placed_left {a b : α} : a ≤ b → a ≤ a
  placed_right {a b : α} : a ≤ b → b ≤ b
  le_of_not_lt {a b : α} : a ≤ a → b ≤ b → ¬ a < b → b ≤ a

instance : LawfulOrder ℝ where
  le_of_lt := le_of_lt
  le_trans := le_trans
  lt_of_lt_of_le := lt_of_lt_of_le
  not_lt_of_le := not_lt_of_ge
  placed_left _ := le_rfl
  placed_right _ := le_rfl
  le_of_not_lt _ _ := le_of_not_gt

namespace LobeTable
open Scalar
variable {α : Type} [Scalar α]

theorem entry_lt {entries : Array α} (hs : entries.toList.Pairwise (· < ·)) {i j : Nat}
    (hi : i < entries.size) (hj : j < entries.size) (hij : i < j) : entries[i] < entries[j] := by
  rw [← Array.getElem_toList, ← Array.getElem_toList]
  exact List.pairwise_iff_getElem.mp hs i j hi hj hij

theorem boundary_lt (t : LobeTable α) {i j : Nat} (hi : i < t.boundaries.size)
    (hj : j < t.boundaries.size) (hij : i < j) : t.boundaries[i] < t.boundaries[j] :=
  entry_lt t.increasing hi hj hij

theorem left_lt_right (t : LobeTable α) (i : t.Lobe) : t.left i < t.right i :=
  t.boundary_lt _ _ (Nat.lt_succ_self _)

theorem right_eq_east (t : LobeTable α) {i : t.Lobe} (h : i.val + 1 = t.meridians.size) :
    t.right i = t.east := by
  have hi : i = ⟨t.meridians.size - 1, Nat.sub_one_lt_of_lt t.meridians_pos⟩ := by
    apply Fin.ext
    simp only
    omega
  rw [hi]
  rfl

theorem select_of_within (t : LobeTable α) {c : α} (h : Within t.west t.east c) : t.select c = .ok (t.owner c) :=
  if_pos h

theorem select_eq_error_iff (t : LobeTable α) {c : α} {e : Failure α} :
    t.select c = .error e ↔ ¬ Within t.west t.east c ∧ e = .outsideTable t.name c t.west t.east := by
  unfold select
  split_ifs with h
  · simp only [h, not_true_eq_false, false_and]
  · simp only [h, not_false_eq_true, true_and, Except.error.injEq]
    exact eq_comm

theorem kind_of_select (t : LobeTable α) {c : α} {e : Failure α}
    (h : t.select c = .error e) : e.kind = .domain := by
  obtain ⟨-, rfl⟩ := t.select_eq_error_iff.mp h
  rfl

variable [LawfulOrder α]

theorem upperBound_spec {entries : Array α} (hs : entries.toList.Pairwise (· < ·)) (c : α)
    (lo hi : Nat) (h : hi ≤ entries.size) (hle : lo ≤ hi) :
    lo ≤ upperBound entries c lo hi h ∧ upperBound entries c lo hi h ≤ hi ∧
      (∀ j (hj : j < entries.size), lo ≤ j → j < upperBound entries c lo hi h → ¬ c < entries[j]) ∧
      ∀ j (hj : j < entries.size), upperBound entries c lo hi h ≤ j → j < hi → c < entries[j] := by
  fun_induction upperBound entries c lo hi h with
  | case1 lo hi h hlh mid hmid hc ih =>
    obtain ⟨h1, h2, hbelow, habove⟩ := ih (by omega)
    refine ⟨h1, by omega, hbelow, fun j hj hrj hjh => ?_⟩
    rcases Nat.lt_trichotomy j mid with hjm | rfl | hjm
    · exact habove j hj hrj hjm
    · exact hc
    · exact LawfulOrder.lt_of_lt_of_le hc (LawfulOrder.le_of_lt (entry_lt hs hmid hj hjm))
  | case2 lo hi h hlh mid hmid hc ih =>
    obtain ⟨h1, h2, hbelow, habove⟩ := ih (by omega)
    refine ⟨by omega, h2, fun j hj hlj hjr => ?_, habove⟩
    rcases Nat.lt_trichotomy j mid with hjm | rfl | hjm
    · intro hcj
      exact hc (LawfulOrder.lt_of_lt_of_le hcj (LawfulOrder.le_of_lt (entry_lt hs hj hmid hjm)))
    · exact hc
    · exact hbelow j hj hjm hjr
  | case3 lo hi h hlh =>
    exact ⟨by omega, by omega, fun j hj hlj hjr => by omega, fun j hj hrj hjh => by omega⟩

variable (t : LobeTable α)

/-- There are two boundaries at least, so each stands in an order with another. -/
theorem boundary_placed {i : Nat} (hi : i < t.boundaries.size) :
    t.boundaries[i] ≤ t.boundaries[i] := by
  have hsize := t.boundaries_size
  have hpos := t.meridians_pos
  cases Nat.eq_zero_or_pos i with
  | inl hzero =>
    subst hzero
    exact LawfulOrder.placed_left
      (LawfulOrder.le_of_lt (t.boundary_lt hi (show 1 < t.boundaries.size by omega) Nat.one_pos))
  | inr h => exact LawfulOrder.placed_right (LawfulOrder.le_of_lt (t.boundary_lt (by omega) hi h))

theorem boundary_le {i j : Nat} (hi : i < t.boundaries.size) (hj : j < t.boundaries.size)
    (hij : i ≤ j) : t.boundaries[i] ≤ t.boundaries[j] := by
  cases Nat.eq_or_lt_of_le hij with
  | inl heq =>
    subst heq
    exact t.boundary_placed hi
  | inr h => exact LawfulOrder.le_of_lt (t.boundary_lt hi hj h)

theorem west_le_left (i : t.Lobe) : t.west ≤ t.left i := t.boundary_le _ _ (Nat.zero_le _)

theorem right_le_east (i : t.Lobe) : t.right i ≤ t.east := by
  refine t.boundary_le _ _ ?_
  have hi := i.isLt
  simp only
  omega

theorem right_le_left {i j : t.Lobe} (h : i < j) : t.right i ≤ t.left j := t.boundary_le _ _ h

theorem within_of_owns {c : α} {i : t.Lobe} (h : t.Owns c i) : Within t.west t.east c := by
  rcases h with ⟨hleft, hright⟩ | ⟨_, hle, hge⟩
  · exact ⟨LawfulOrder.le_trans (t.west_le_left i) hleft,
      LawfulOrder.le_trans (LawfulOrder.le_of_lt hright) (t.right_le_east i)⟩
  · exact ⟨LawfulOrder.le_trans (t.boundary_le _ _ (Nat.zero_le _)) hge, hle⟩

/-- No coordinate has two owners. -/
theorem owns_unique {c : α} {i j : t.Lobe} (hi : t.Owns c i) (hj : t.Owns c j) : i = j := by
  have key : ∀ {i j : t.Lobe}, t.Owns c i → t.Owns c j → ¬ i < j := by
    intro i j hi hj hij
    have hlast : i.val + 1 ≠ t.meridians.size := by
      have hj := j.isLt
      have hlt : i.val < j.val := hij
      omega
    have hright : c < t.right i := by
      cases hi with
      | inl h => exact h.2
      | inr h => exact absurd h.1 hlast
    rcases hj with ⟨hleft, _⟩ | ⟨_, _, heast⟩
    · exact LawfulOrder.not_lt_of_le (LawfulOrder.le_trans (t.right_le_left hij) hleft) hright
    · exact LawfulOrder.not_lt_of_le (LawfulOrder.le_trans (t.right_le_east i) heast) hright
  exact Fin.le_antisymm (Fin.not_lt.mp (key hj hi)) (Fin.not_lt.mp (key hi hj))

theorem owns_owner {c : α} (h : Within t.west t.east c) : t.Owns c (t.owner c) := by
  have hsize := t.boundaries_size
  have hpos := t.meridians_pos
  obtain ⟨-, hr, hbelow, habove⟩ :=
    upperBound_spec t.increasing c 0 t.boundaries.size (Nat.le_refl _) (Nat.zero_le _)
  have hplaced : c ≤ c := LawfulOrder.placed_right h.1
  have hfirst : 0 < upperBound t.boundaries c 0 t.boundaries.size (Nat.le_refl _) := by
    by_contra hzero
    exact LawfulOrder.not_lt_of_le h.1 (habove 0 (by omega) (by omega) (by omega))
  -- The position is past the last boundary exactly when the coordinate is the inclusive end.
  by_cases hlast : upperBound t.boundaries c 0 t.boundaries.size (Nat.le_refl _) ≤ t.meridians.size
  · have hval : (t.owner c).val =
        upperBound t.boundaries c 0 t.boundaries.size (Nat.le_refl _) - 1 := by
      simp only [owner]
      omega
    left
    constructor
    · have hleft := hbelow (t.owner c).val (by omega) (Nat.zero_le _) (by omega)
      exact LawfulOrder.le_of_not_lt hplaced (t.boundary_placed _) hleft
    · exact habove ((t.owner c).val + 1) (by omega) (by omega) (by omega)
  · have hval : (t.owner c).val = t.meridians.size - 1 := by
      simp only [owner]
      omega
    right
    refine ⟨by omega, h.2, ?_⟩
    have heast := hbelow t.meridians.size (by omega) (Nat.zero_le _) (by omega)
    have hend : t.east = t.boundaries[t.meridians.size] := by
      simp only [east, right]
      congr 1
      omega
    rw [hend]
    exact LawfulOrder.le_of_not_lt hplaced (t.boundary_placed _) heast

theorem select_eq_ok_iff {c : α} {i : t.Lobe} : t.select c = .ok i ↔ t.Owns c i := by
  constructor
  · intro h
    by_cases hc : Within t.west t.east c
    · rw [select, if_pos hc] at h
      cases h
      exact t.owns_owner hc
    · rw [select, if_neg hc] at h
      cases h
  · intro h
    have hc := t.within_of_owns h
    rw [select, if_pos hc, t.owns_unique h (t.owns_owner hc)]

theorem exists_select {c : α} (h : Within t.west t.east c) : ∃ i, t.select c = .ok i ∧ t.Owns c i :=
  ⟨t.owner c, t.select_of_within h, t.owns_owner h⟩

theorem within_lobe {c : α} {i : t.Lobe} (h : t.Owns c i) : Within (t.left i) (t.right i) c := by
  rcases h with ⟨hleft, hright⟩ | ⟨hlast, hle, hge⟩
  · exact ⟨hleft, LawfulOrder.le_of_lt hright⟩
  · have heast := t.right_eq_east hlast
    exact ⟨LawfulOrder.le_trans (LawfulOrder.le_of_lt (t.left_lt_right i)) (heast ▸ hge),
      heast ▸ hle⟩

end LobeTable
end GoodeMap
