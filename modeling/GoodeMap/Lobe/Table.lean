import GoodeMap.Failure
import GoodeMap.Constants

/-!
Tables of lobes. A hemisphere is cut along its boundaries; each lobe between two of them has a central
meridian. A lobe holds its western boundary and not its eastern one, except the last, which holds both.
-/
namespace GoodeMap

structure LobeTable (α : Type) [Scalar α] where
  name : String
  boundaries : Array α
  meridians : Array α
  meridians_pos : 0 < meridians.size
  boundaries_size : boundaries.size = meridians.size + 1
  finite : ∀ v ∈ boundaries ++ meridians, Scalar.isFinite v = true
  increasing : boundaries.toList.Pairwise (· < ·)

namespace LobeTable
variable {α : Type} [Scalar α]
open Scalar

def build (name : String) (boundaries meridians : Array α) : Except (Failure α) (LobeTable α) :=
  if hpos : 0 < meridians.size then
    if hsize : boundaries.size = meridians.size + 1 then
      if hfinite : ∀ v ∈ boundaries ++ meridians, isFinite v = true then
        if hinc : boundaries.toList.Pairwise (· < ·) then
          .ok ⟨name, boundaries, meridians, hpos, hsize, hfinite, hinc⟩
        else .error (.boundariesNotIncreasing name boundaries.toList)
      else .error (.tableNotFinite name)
    else .error (.boundaryCount name meridians.size boundaries.size)
  else .error (.noLobes name)

theorem build_eq_ok {name : String} {boundaries meridians : Array α} {t : LobeTable α}
    (h : build name boundaries meridians = .ok t) :
    t.name = name ∧ t.boundaries = boundaries ∧ t.meridians = meridians := by
  unfold build at h
  split at h <;> try contradiction
  split at h <;> try contradiction
  split at h <;> try contradiction
  split at h <;> try contradiction
  cases h
  exact ⟨rfl, rfl, rfl⟩

def ofDegrees (name : String) (boundaries meridians : Array α) :
    Except (Failure α) (LobeTable α) :=
  build name (boundaries.map Constants.tableRadians) (meridians.map Constants.tableRadians)

abbrev Lobe (t : LobeTable α) := Fin t.meridians.size

def meridian (t : LobeTable α) (i : t.Lobe) : α := t.meridians[i]

def left (t : LobeTable α) (i : t.Lobe) : α :=
  have h : i.val < t.boundaries.size := by have := t.boundaries_size; omega
  t.boundaries[i.val]

def right (t : LobeTable α) (i : t.Lobe) : α :=
  have h : i.val + 1 < t.boundaries.size := by have := t.boundaries_size; omega
  t.boundaries[i.val + 1]

def west (t : LobeTable α) : α := t.left ⟨0, t.meridians_pos⟩

def east (t : LobeTable α) : α :=
  t.right ⟨t.meridians.size - 1, Nat.sub_one_lt_of_lt t.meridians_pos⟩

def boundary? (t : LobeTable α) (i : Int) : Option α :=
  let j := if i < 0 then i + t.boundaries.size else i
  if j < 0 then none else t.boundaries[j.toNat]?

def extent (t : LobeTable α) (i : Int) : Except (Failure α) (α × α) :=
  match t.boundary? i, t.boundary? (i + 1) with
  | some a, some b => .ok (a, b)
  | _, _ => .error .noSuchLobe

def checkGeographic (t : LobeTable α) (tolerance : α) : Except (Failure α) Unit :=
  if tolerance < abs (t.west + pi) ∨ tolerance < abs (t.east - pi) then
    .error (.boundariesNotSpanning t.name t.boundaries.toList)
  else
    match (List.finRange t.meridians.size).find? fun i =>
        ¬ Within (t.left i) (t.right i) (t.meridian i) with
    | some i => .error (.meridianOutsideLobe t.name i (t.meridian i))
    | none => .ok ()

def mapped (t : LobeTable α) (f : α → α) (name : String) : Except (Failure α) (LobeTable α) :=
  build name (t.boundaries.map f) t.meridians

theorem meridians_mapped {t u : LobeTable α} {f : α → α} {name : String}
    (h : t.mapped f name = .ok u) : u.meridians = t.meridians :=
  (build_eq_ok h).2.2

def north : Except (Failure α) (LobeTable α) :=
  ofDegrees "north" Constants.northCuts Constants.northMeridians

def south : Except (Failure α) (LobeTable α) :=
  ofDegrees "south" Constants.southCuts Constants.southMeridians

end LobeTable
end GoodeMap
