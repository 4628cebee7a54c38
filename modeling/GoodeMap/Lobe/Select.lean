import GoodeMap.Lobe.Table

/-!
The lobe that owns a coordinate, found by bisection and, beside it, by comparison with every lobe.
-/
namespace GoodeMap.LobeTable
variable {α : Type} [Scalar α]
open Scalar

/-- First position in `[lo, hi)` whose entry is beyond `c`, by bisection, or `hi` if there is none. -/
def upperBound (entries : Array α) (c : α) (lo hi : Nat) (h : hi ≤ entries.size) : Nat :=
  if hlt : lo < hi then
    let mid := lo + (hi - lo) / 2
    have hmid : mid < entries.size := by omega
    if c < entries[mid] then upperBound entries c lo mid (by omega)
    else upperBound entries c (mid + 1) hi h
  else lo
termination_by hi - lo

def owner (t : LobeTable α) (c : α) : t.Lobe :=
  ⟨min (upperBound t.boundaries c 0 t.boundaries.size (Nat.le_refl _)) t.meridians.size - 1, by
    have := t.meridians_pos
    omega⟩

def select (t : LobeTable α) (c : α) : Except (Failure α) t.Lobe :=
  if Within t.west t.east c then .ok (t.owner c)
  else .error (.outsideTable t.name c t.west t.east)

def Owns (t : LobeTable α) (c : α) (i : t.Lobe) : Prop :=
  (t.left i ≤ c ∧ c < t.right i) ∨ (i.val + 1 = t.meridians.size ∧ Meets c t.east)

instance (t : LobeTable α) (c : α) (i : t.Lobe) : Decidable (t.Owns c i) :=
  inferInstanceAs (Decidable ((_ ∧ _) ∨ (_ ∧ _)))

def owners (t : LobeTable α) (c : α) : List Nat :=
  ((List.finRange t.meridians.size).filter fun i => t.Owns c i).map (·.val)

end GoodeMap.LobeTable
