import Mathlib.Data.List.Forall2

/-! What a pass over a list comes to when each step may fail. -/
namespace GoodeMap
variable {ε α β : Type} {f : α → Except ε β}

/-- The answers stand in the order of the arguments. -/
theorem mapM_eq_ok_iff {xs : List α} {ys : List β} :
    xs.mapM f = .ok ys ↔ List.Forall₂ (fun x y => f x = .ok y) xs ys := by
  induction xs generalizing ys with
  | nil => cases ys <;> simp [pure, Except.pure]
  | cons x xs ih =>
    rw [List.mapM_cons]
    cases hx : f x with
    | error e => cases ys <;> simp [bind, Except.bind, hx]
    | ok y =>
      cases hxs : xs.mapM f with
      | error e => cases ys <;> simp [bind, Except.bind, hx, hxs, ← ih]
      | ok zs => cases ys <;> simp [bind, Except.bind, pure, Except.pure, hx, hxs, ← ih]

theorem mapM_eq_ok_map {g : α → β} {xs : List α} (h : ∀ x ∈ xs, f x = .ok (g x)) : xs.mapM f = .ok (xs.map g) :=
  mapM_eq_ok_iff.mpr (List.forall₂_map_right_iff.mpr (List.forall₂_same.mpr h))

theorem exists_of_mapM {xs : List α} {ys : List β} (h : xs.mapM f = .ok ys) : ∀ x ∈ xs, ∃ y, f x = .ok y := by
  have hpairs := mapM_eq_ok_iff.mp h
  clear h
  induction hpairs with
  | nil => exact nofun
  | cons hx _ ih => exact List.forall_mem_cons.mpr ⟨⟨_, hx⟩, ih⟩

theorem forall_mem_of_mapM {xs : List α} {ys : List β} (h : xs.mapM f = .ok ys) {P : β → Prop} :
    (∀ y ∈ ys, P y) ↔ ∀ x ∈ xs, ∃ y, f x = .ok y ∧ P y := by
  have hpairs := mapM_eq_ok_iff.mp h
  clear h
  induction hpairs with
  | nil => exact ⟨nofun, nofun⟩
  | @cons x y _ _ hx _ ih =>
    have hhead : P y ↔ ∃ z, f x = .ok z ∧ P z := by simp [hx]
    rw [List.forall_mem_cons, List.forall_mem_cons]
    exact and_congr hhead ih

theorem countP_of_mapM {xs : List α} {ys : List β} (h : xs.mapM f = .ok ys) {p : β → Bool} {q : α → Bool}
    (hq : ∀ x y, f x = .ok y → q x = p y) : ys.countP p = xs.countP q := by
  have hpairs := mapM_eq_ok_iff.mp h
  clear h
  induction hpairs with
  | nil => rfl
  | cons hx _ ih => rw [List.countP_cons, List.countP_cons, ih, hq _ _ hx]

theorem length_of_mapM {xs : List α} {ys : List β} (h : xs.mapM f = .ok ys) : ys.length = xs.length :=
  (mapM_eq_ok_iff.mp h).length_eq.symm

theorem ne_nil_iff_of_mapM {xs : List α} {ys : List β} (h : xs.mapM f = .ok ys) : ys ≠ [] ↔ xs ≠ [] := by
  rw [← List.length_pos_iff, length_of_mapM h, List.length_pos_iff]

theorem exists_mapM_iff {xs : List α} : (∃ ys, xs.mapM f = .ok ys) ↔ ∀ x ∈ xs, ∃ y, f x = .ok y := by
  refine ⟨fun ⟨_, h⟩ => exists_of_mapM h, fun h => ?_⟩
  induction xs with
  | nil => exact ⟨[], rfl⟩
  | cons x xs ih =>
    obtain ⟨⟨y, hy⟩, hrest⟩ := List.forall_mem_cons.mp h
    obtain ⟨ys, hys⟩ := ih hrest
    exact ⟨y :: ys, mapM_eq_ok_iff.mpr (.cons hy (mapM_eq_ok_iff.mp hys))⟩

/-- A pass ends with its first failure. -/
theorem mapM_eq_error_iff {xs : List α} {e : ε} : xs.mapM f = .error e ↔
    ∃ before x after, xs = before ++ x :: after ∧ (∀ y ∈ before, ∃ z, f y = .ok z) ∧ f x = .error e := by
  induction xs with
  | nil => simp [pure, Except.pure]
  | cons x xs ih =>
    rw [List.mapM_cons]
    cases hx : f x with
    | error e' =>
      constructor
      · intro h
        cases h
        exact ⟨[], x, xs, rfl, nofun, hx⟩
      · rintro ⟨_ | ⟨y, before⟩, z, after, hxs, hbefore, hz⟩
        · cases hxs
          cases hx.symm.trans hz
          rfl
        · cases hxs
          obtain ⟨w, hw⟩ := hbefore x List.mem_cons_self
          cases hx.symm.trans hw
    | ok y =>
      have hrest : (do let ys ← xs.mapM f; pure (y :: ys)) = (.error e : Except ε (List β)) ↔
          xs.mapM f = .error e := by
        cases xs.mapM f <;> simp [bind, Except.bind, pure, Except.pure]
      refine hrest.trans (ih.trans ⟨?_, ?_⟩)
      · rintro ⟨before, z, after, rfl, hbefore, hz⟩
        refine ⟨x :: before, z, after, rfl, ?_, hz⟩
        exact List.forall_mem_cons.mpr ⟨⟨y, hx⟩, hbefore⟩
      · rintro ⟨_ | ⟨w, before⟩, z, after, hxs, hbefore, hz⟩
        · cases hxs
          cases hx.symm.trans hz
        · cases hxs
          exact ⟨before, z, after, rfl, fun v hv => hbefore v (List.mem_cons_of_mem _ hv), hz⟩

end GoodeMap
