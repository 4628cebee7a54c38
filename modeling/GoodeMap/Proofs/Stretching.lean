import GoodeMap.Proofs.GridIndex
import Mathlib.Data.List.Forall2

/-! Arrays stretched against each other. At a position of the common shape stands what the array has where that
position falls in its own shape: leading axes are dropped, and an axis of length one has only one place. -/
namespace GoodeMap

namespace Shape
variable {m n : Nat} {s t : Shape}

def Fits (s t : Shape) : Prop := List.Forall₂ (fun m n => m = n ∨ m = 1) s t

def Stretches (s t : Shape) : Prop := Fits (padTo t.length s) t

def AxesAgree (m n : Nat) : Prop := m = n ∨ m = 1 ∨ n = 1

def Compatible (s t : Shape) : Prop := List.Forall₂ AxesAgree (padTo t.length s) (padTo s.length t)

def wider (m n : Nat) : Nat := if m = 1 then n else m

def broadcast (s t : Shape) : Shape := List.zipWith wider (padTo t.length s) (padTo s.length t)

theorem Compatible.refl (s : Shape) : Compatible s s := List.forall₂_same.mpr fun _ _ => .inl rfl

theorem length_padTo (r : Nat) (s : Shape) : (padTo r s).length = max r s.length := by
  rw [padTo, List.length_append, List.length_replicate]
  omega

theorem length_broadcast (s t : Shape) : (broadcast s t).length = max s.length t.length := by
  rw [broadcast, List.length_zipWith, length_padTo, length_padTo]
  omega

theorem padTo_broadcast_left (s t : Shape) : padTo (broadcast s t).length s = padTo t.length s := by
  have hadded : max s.length t.length - s.length = t.length - s.length := by omega
  rw [length_broadcast, padTo, padTo, hadded]

theorem padTo_broadcast_right (s t : Shape) : padTo (broadcast s t).length t = padTo s.length t := by
  have hadded : max s.length t.length - t.length = s.length - t.length := by omega
  rw [length_broadcast, padTo, padTo, hadded]

theorem wider_of_eq_one (h : m = 1) : wider m n = n := if_pos h

theorem wider_of_ne_one (h : m ≠ 1) : wider m n = m := if_neg h

theorem AxesAgree.fits_left (_ : AxesAgree m n) : m = wider m n ∨ m = 1 := by
  by_cases hm : m = 1
  · exact .inr hm
  · exact .inl (wider_of_ne_one hm).symm

theorem AxesAgree.fits_right (h : AxesAgree m n) : n = wider m n ∨ n = 1 := by
  by_cases hm : m = 1
  · exact .inl (wider_of_eq_one hm).symm
  · rw [wider_of_ne_one hm]
    rcases h with hmn | hone | hone
    · exact .inl hmn.symm
    · exact absurd hone hm
    · exact .inr hone

theorem AxesAgree.joinAxis?_eq (h : AxesAgree m n) : joinAxis? m n = some (wider m n) := by
  unfold joinAxis?
  by_cases hmn : m = n
  · by_cases hm : m = 1 <;> simp [wider, hmn]
  · by_cases hm : m = 1
    · simp [wider, hm]
    · have hn : n = 1 := (h.resolve_left hmn).resolve_left hm
      simp [wider, hm, hn]

section
variable {a b : Shape} (h : List.Forall₂ AxesAgree a b)
include h

theorem fits_zipWith : Fits a (List.zipWith wider a b) ∧ Fits b (List.zipWith wider a b) := by
  induction h with
  | nil => exact ⟨.nil, .nil⟩
  | cons hmn _ ih => exact ⟨.cons hmn.fits_left ih.1, .cons hmn.fits_right ih.2⟩

theorem mapM_joinAxis? : ((a.zip b).mapM fun p => joinAxis? p.1 p.2) = some (List.zipWith wider a b) := by
  induction h with
  | nil => rfl
  | cons hmn _ ih =>
    rw [List.zip_cons_cons, List.mapM_cons, hmn.joinAxis?_eq, ih]
    rfl

end

theorem Compatible.left (h : Compatible s t) : Stretches s (broadcast s t) := by
  rw [Stretches, padTo_broadcast_left]
  exact (fits_zipWith h).1

theorem Compatible.right (h : Compatible s t) : Stretches t (broadcast s t) := by
  rw [Stretches, padTo_broadcast_right]
  exact (fits_zipWith h).2

theorem join?_eq (h : Compatible s t) : join? s t = some (broadcast s t) := mapM_joinAxis? h

theorem size_cons (n : Nat) (s : Shape) : size (n :: s) = n * size s := rfl

theorem size_replicate_one (r : Nat) (s : Shape) : size (List.replicate r 1 ++ s) = size s := by
  induction r with
  | zero => rfl
  | succ r ih => rw [List.replicate_succ, List.cons_append, size_cons, ih, Nat.one_mul]

namespace Index

def place (h : m = n ∨ m = 1) (k : Fin n) : Fin m :=
  if hm : m = n then k.cast hm.symm else ⟨0, by omega⟩

def narrow : {s t : Shape} → Fits s t → Index t → Index s
  | [], _, _, _ => nil
  | _ :: _, _ :: _, h, cons k i =>
    cons (place (List.forall₂_cons.mp h).1 k) (narrow (List.forall₂_cons.mp h).2 i)

def unpad : (r : Nat) → Index (List.replicate r 1 ++ s) → Index s
  | 0, i => i
  | r + 1, cons _ i => unpad r i

theorem place_val_of_eq (h : m = n ∨ m = 1) (k : Fin n) (hm : m = n) : (place h k).val = k.val := by
  rw [place, dif_pos hm]
  rfl

theorem offset_narrow_cons (h : Fits (m :: s) (n :: t)) (k : Fin n) (i : Index t) :
    (narrow h (cons k i)).offset =
      (place (List.forall₂_cons.mp h).1 k).val * size s + (narrow (List.forall₂_cons.mp h).2 i).offset := rfl

theorem offset_unpad (r : Nat) (i : Index (List.replicate r 1 ++ s)) : (unpad r i).offset = i.offset := by
  induction r with
  | zero => rfl
  | succ r ih =>
    cases i with
    | cons k i =>
      have hk : k.val = 0 := Nat.lt_one_iff.mp k.isLt
      rw [unpad, ih, offset_cons, hk, Nat.zero_mul, Nat.zero_add]

end Index
end Shape

namespace Grid
open Shape
variable {α : Type} {s t : Shape}

theorem pieces_eq (length count : Nat) (xs : List α) :
    pieces length count xs = (List.finRange count).map fun k : Fin count => (xs.drop (k * length)).take length := by
  induction count generalizing xs with
  | zero => rfl
  | succ count ih =>
    have hdrop (k : Fin count) : (xs.drop length).drop (k * length) = xs.drop (k.succ * length) := by
      rw [List.drop_drop, Fin.val_succ, Nat.succ_mul, Nat.add_comm]
    simp only [pieces, ih, List.finRange_succ, List.map_cons, List.map_map, Function.comp_def, hdrop,
      Fin.val_zero, Nat.zero_mul, List.drop_zero]

/-- The entries that the positions take, row after row. -/
theorem map_narrow_cons {m n : Nat} (h : Fits (m :: s) (n :: t)) (xs : List α) :
    ((Index.all (n :: t)).map fun i => xs[(Index.narrow h i).offset]?) =
      (List.finRange n).flatMap fun k => (Index.all t).map fun i =>
        xs[(Index.place (List.forall₂_cons.mp h).1 k).val * size s +
          (Index.narrow (List.forall₂_cons.mp h).2 i).offset]? := by
  simp only [Index.all, List.map_flatMap, List.map_map, Function.comp_def, Index.offset_narrow_cons]

/-- A stretched axis repeats what is there, and one of the same length keeps its rows apart. -/
theorem map_some_stretch (h : Fits s t) (xs : List α) (hxs : xs.length = size s) :
    (stretch s t xs).map some = (Index.all t).map fun i => xs[(Index.narrow h i).offset]? := by
  induction s generalizing t xs with
  | nil =>
    cases h
    obtain ⟨x, rfl⟩ := List.length_eq_one_iff.mp hxs
    rfl
  | cons m s ih =>
    cases t with
    | nil => cases h
    | cons n t =>
      obtain ⟨hmn, hst⟩ := List.forall₂_cons.mp h
      rw [map_narrow_cons, stretch]
      by_cases hm : m = n
      · subst hm
        rw [if_pos rfl, pieces_eq, List.flatMap_map, List.map_flatMap]
        refine List.flatMap_congr fun k _ => ?_
        have hk : (k + 1) * size s ≤ xs.length := hxs ▸ Nat.mul_le_mul_right _ k.isLt
        have hpiece : ((xs.drop (k * size s)).take (size s)).length = size s := by
          rw [List.length_take, List.length_drop]
          rw [Nat.succ_mul] at hk
          omega
        rw [ih hst _ hpiece]
        refine List.map_congr_left fun i _ => ?_
        rw [List.getElem?_take_of_lt (Index.offset_lt _), List.getElem?_drop, Index.place_val_of_eq hmn k rfl]
      · have hone : m = 1 := hmn.resolve_left hm
        subst hone
        have hplace (k : Fin n) : (Index.place hmn k).val = 0 := Nat.lt_one_iff.mp (Index.place hmn k).isLt
        have hlength : xs.length = size s := by rw [hxs, size_cons, Nat.one_mul]
        simp only [hplace, Nat.zero_mul, Nat.zero_add]
        rw [if_neg hm, List.map_flatten, List.map_replicate, ih hst xs hlength, List.flatMap_def, List.map_const',
          List.length_finRange]

def spread (g : Grid α) (h : Stretches g.shape t) (i : t.Index) : α :=
  g.get (Index.unpad _ (Index.narrow h i))

theorem stretchTo_eq (g : Grid α) (h : Stretches g.shape t) : g.stretchTo t = (Index.all t).map (g.spread h) := by
  have hlength : g.entries.length = size (padTo t.length g.shape) := by
    rw [g.entries_length, padTo, size_replicate_one]
  apply List.map_injective_iff.mpr (Option.some_injective α)
  rw [stretchTo, map_some_stretch h g.entries hlength, List.map_map]
  refine List.map_congr_left fun i _ => ?_
  exact (congrArg (g.entries[·]?) (Index.offset_unpad _ _)).symm.trans (g.getElem?_offset _)

/-- The pairs that meet at the positions of the common shape, in row-major order. -/
theorem pairs_eq {limits : ArrayLimits α} {g k : Grid α}
    (hrank : max g.shape.length k.shape.length ≤ limits.stretchedAxes)
    (h : Compatible g.shape k.shape) : g.pairs limits k = .ok (broadcast g.shape k.shape,
      (Index.all (broadcast g.shape k.shape)).map fun i => (g.spread h.left i, k.spread h.right i)) := by
  have hentries := congrArg₂ List.zip (stretchTo_eq g h.left) (stretchTo_eq k h.right)
  rw [List.zip_map'] at hentries
  rw [pairs, if_pos hrank, join?_eq h, ← hentries]

end Grid
end GoodeMap
