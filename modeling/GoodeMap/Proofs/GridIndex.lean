import GoodeMap.Grid
import Mathlib.Data.List.FinRange

/-! Entries by their positions. A position has a number for each axis; in row-major order the last one changes
fastest, and every place in the list of entries is that of one position. -/
namespace GoodeMap

inductive Shape.Index : Shape → Type where
  | nil : Index []
  | cons {n : Nat} {s : Shape} (k : Fin n) (i : Index s) : Index (n :: s)

namespace Shape.Index
variable {n : Nat} {s : Shape}

def offset : {s : Shape} → Index s → Nat
  | _, nil => 0
  | _ :: s, cons k i => k * size s + offset i

theorem offset_cons (k : Fin n) (i : Index s) : (cons k i).offset = k * size s + i.offset := rfl

theorem offset_lt (i : Index s) : i.offset < size s := by
  induction i with
  | nil => exact Nat.one_pos
  | @cons n s k i ih =>
    calc (cons k i).offset < k * size s + size s := Nat.add_lt_add_left ih _
      _ = (k + 1) * size s := (Nat.succ_mul _ _).symm
      _ ≤ n * size s := Nat.mul_le_mul_right _ k.isLt

def all : (s : Shape) → List (Index s)
  | [] => [nil]
  | n :: s => (List.finRange n).flatMap fun k => (all s).map (cons k)

theorem mem_all (i : Index s) : i ∈ all s := by
  induction i with
  | nil => exact List.mem_singleton_self nil
  | cons k i ih => exact List.mem_flatMap.mpr ⟨k, List.mem_finRange k, List.mem_map_of_mem ih⟩

/-- Rows of numbers one behind the other. -/
theorem flatMap_range_mul (n m : Nat) :
    ((List.range n).flatMap fun k => (List.range m).map (k * m + ·)) = List.range (n * m) := by
  induction n with
  | zero => simp
  | succ n ih => rw [List.range_succ, List.flatMap_append, ih, List.flatMap_singleton, Nat.succ_mul, List.range_add]

/-- Every place is taken once, in order. -/
theorem map_offset_all (s : Shape) : (all s).map offset = List.range (size s) := by
  induction s with
  | nil => rfl
  | cons n s ih =>
    have hrange : (List.finRange n).map Fin.val = List.range n := List.map_coe_finRange_eq_range
    calc (all (n :: s)).map offset
        = (List.finRange n).flatMap fun k => ((all s).map offset).map (k.val * size s + ·) := by
          simp only [all, List.map_flatMap, List.map_map]
          rfl
      _ = (List.range n).flatMap fun k => (List.range (size s)).map (k * size s + ·) := by
          rw [ih, ← hrange, List.flatMap_map]
      _ = List.range (size (n :: s)) := flatMap_range_mul n (size s)

theorem length_all (s : Shape) : (all s).length = size s := by
  rw [← List.length_map offset, map_offset_all, List.length_range]

theorem offset_of_getElem? {k : Nat} {i : Index s} (h : (all s)[k]? = some i) : i.offset = k := by
  have hplace : ((all s).map offset)[k]? = some i.offset := by rw [List.getElem?_map, h, Option.map_some]
  rw [map_offset_all, List.getElem?_eq_some_iff] at hplace
  obtain ⟨hk, hoffset⟩ := hplace
  rw [← hoffset, List.getElem_range]

theorem getElem?_all (i : Index s) : (all s)[i.offset]? = some i := by
  obtain ⟨k, hk⟩ := List.mem_iff_getElem?.mp (mem_all i)
  rw [offset_of_getElem? hk, hk]

section
variable {before after : List (Index s)} {i j : Index s} (h : all s = before ++ i :: after)
include h

theorem offset_eq_length : i.offset = before.length := by
  refine offset_of_getElem? ?_
  rw [h, List.getElem?_append_right le_rfl, Nat.sub_self]
  rfl

/-- What stands before a position are the positions of smaller offsets. -/
theorem mem_before_iff : j ∈ before ↔ j.offset < i.offset := by
  rw [offset_eq_length h]
  constructor
  · intro hj
    obtain ⟨k, hk⟩ := List.mem_iff_getElem?.mp hj
    have hlt : k < before.length := (List.getElem?_eq_some_iff.mp hk).1
    have hall : (all s)[k]? = some j := by rw [h, List.getElem?_append_left hlt, hk]
    rwa [offset_of_getElem? hall]
  · intro hlt
    have hall := getElem?_all j
    rw [h, List.getElem?_append_left hlt] at hall
    exact List.mem_of_getElem? hall

end

end Shape.Index

namespace Grid
variable {α : Type}

def get (g : Grid α) (i : g.shape.Index) : α :=
  g.entries.get ⟨i.offset, i.offset_lt.trans_eq g.entries_length.symm⟩

theorem getElem?_offset (g : Grid α) (i : g.shape.Index) : g.entries[i.offset]? = some (g.get i) :=
  List.getElem?_eq_getElem _

end Grid
end GoodeMap
