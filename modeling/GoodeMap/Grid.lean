import GoodeMap.ArrayLimits

/-!
Rectangular arrays of any rank, kept as a shape and the entries in row-major order, and the stretching of
arrays against each other: an axis of length one repeats, a missing leading axis is added.
-/
namespace GoodeMap

inductive Nested (α : Type) where
  | entry (x : α)
  | row (items : List (Nested α))

instance {α : Type} : Inhabited (Nested α) := ⟨.row []⟩

abbrev Shape := List Nat

namespace Shape

def size (s : Shape) : Nat := s.foldr (· * ·) 1

def joinAxis? (m n : Nat) : Option Nat :=
  if m = n then some m else if m = 1 then some n else if n = 1 then some m else none

def padTo (rank : Nat) (s : Shape) : Shape := List.replicate (rank - s.length) 1 ++ s

def join? (s t : Shape) : Option Shape :=
  ((padTo t.length s).zip (padTo s.length t)).mapM fun p => joinAxis? p.1 p.2

end Shape

structure Grid (α : Type) where
  shape : Shape
  entries : List α
  entries_length : entries.length = shape.size

namespace Grid
variable {α β : Type}

def ofEntry (x : α) : Grid α := ⟨[], [x], rfl⟩

def ofList (xs : List α) : Grid α := ⟨[xs.length], xs, (Nat.mul_one _).symm⟩

def map (f : α → β) (g : Grid α) : Grid β :=
  ⟨g.shape, g.entries.map f, by simpa using g.entries_length⟩

theorem length_flatMap_entries (s : Shape) (gs : List (Grid α)) (h : ∀ g ∈ gs, g.shape = s) :
    (gs.flatMap (·.entries)).length = gs.length * s.size := by
  induction gs with
  | nil => simp
  | cons g gs ih =>
    have hg : g.entries.length = s.size := by rw [g.entries_length, h g (by simp)]
    rw [List.flatMap_cons, List.length_append, hg, ih fun k hk => h k (by simp [hk]),
      List.length_cons, Nat.add_mul, Nat.one_mul, Nat.add_comm]

def stack : List (Grid α) → Except (Failure α) (Grid α)
  | [] => .ok ⟨[0], [], rfl⟩
  | g :: gs =>
    if h : ∀ k ∈ g :: gs, k.shape = g.shape then
      .ok ⟨(g :: gs).length :: g.shape, (g :: gs).flatMap (·.entries),
        length_flatMap_entries g.shape (g :: gs) h⟩
    else .error .raggedArray

mutual

def assemble : Nested α → Except (Failure α) (Grid α)
  | .entry x => .ok (ofEntry x)
  | .row items =>
    match assembleAll items with
    | .ok gs => stack gs
    | .error e => .error e

def assembleAll : List (Nested α) → Except (Failure α) (List (Grid α))
  | [] => .ok []
  | item :: items =>
    match assemble item, assembleAll items with
    | .ok g, .ok gs => .ok (g :: gs)
    | .error e, _ => .error e
    | _, .error e => .error e

end

def ofNested (limits : ArrayLimits α) (n : Nested α) : Except (Failure α) (Grid α) :=
  match assemble n with
  | .ok g => if g.shape.length ≤ limits.axes then .ok g else .error .tooManyAxes
  | .error e => .error e

def pieces (length : Nat) : Nat → List α → List (List α)
  | 0, _ => []
  | count + 1, xs => xs.take length :: pieces length count (xs.drop length)

def stretch : Shape → Shape → List α → List α
  | m :: s, n :: t, xs =>
    if m = n then (pieces (Shape.size s) m xs).flatMap (stretch s t)
    else (List.replicate n (stretch s t xs)).flatten
  | _, _, xs => xs

def stretchTo (t : Shape) (g : Grid α) : List α :=
  stretch (Shape.padTo t.length g.shape) t g.entries

def pairs (limits : ArrayLimits α) (g h : Grid α) : Except (Failure α) (Shape × List (α × α)) :=
  if max g.shape.length h.shape.length ≤ limits.stretchedAxes then
    match Shape.join? g.shape h.shape with
    | some t => .ok (t, (g.stretchTo t).zip (h.stretchTo t))
    | none => .error .shapeMismatch
  else .error .tooManyStretchedAxes

def nest (entry : α → β) (row : List β → β) : Shape → List α → β
  | [], [] => row []
  | [], x :: _ => entry x
  | n :: s, xs => row ((pieces (Shape.size s) n xs).map (nest entry row s))

def numbers (g : Grid α) : Except (Failure α) (List α) :=
  match g.shape with
  | [] => .error .notAnArray
  | [_] | 0 :: _ => .ok g.entries
  | _ :: s => .error (if Shape.size s = 1 then .loneEntry else .notAScalar)

def rows (g : Grid α) : Except (Failure α) (List (List α)) :=
  match g.shape with
  | [] => .error .notAnArray
  | n :: s => .ok (pieces (Shape.size s) n g.entries)

def everyThird {γ : Type} : List γ → List γ
  | x :: _ :: _ :: rest => x :: everyThird rest
  | x :: _ => [x]
  | [] => []

end Grid
end GoodeMap
