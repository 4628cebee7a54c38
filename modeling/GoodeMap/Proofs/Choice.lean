import GoodeMap.Homolosine
import GoodeMap.Proofs.LobePartition

/-! What a call comes to, over any carrier. Its hemisphere and its branch come from the latitude or the row, its
lobe from the table in longitude or the one in planar x; a call without a piece is off the globe or off the map,
and in its piece it comes to what the piece's projection makes of it. -/
namespace GoodeMap
open Scalar

theorem liftExcept_except {ε β : Type} (a : Except ε β) : (liftExcept a : Except ε β) = a := by
  cases a <;> rfl

variable {α : Type} [Scalar α]

namespace Mollweide
variable {m : Mollweide α} {b : Budget α} {lam phi x y : α} {e : Failure α}

theorem forward_eq_ok (h : m.forward lam phi = .ok (x, y)) : ∃ theta, m.auxiliaryAngle phi = .ok theta ∧
    x = xFactor * lam * cos theta ∧ y = yFactor * sin theta := by
  unfold forward at h
  split at h
  · next theta htheta =>
    cases h
    exact ⟨theta, htheta, rfl, rfl⟩
  · cases h

/-- The projection fails only where there is no auxiliary angle. -/
theorem forward_eq_error_iff : m.forward lam phi = .error e ↔ m.auxiliaryAngle phi = .error e := by
  unfold forward
  cases m.auxiliaryAngle phi with
  | ok theta => simp only [reduceCtorEq]
  | error e' => simp only [Except.error.injEq]

theorem newtonAngle_eq_error (hphi : Within (-halfPi) halfPi phi) (h : newtonAngle b phi = .error e) :
    ∃ estimate, e = .unsettled b.iterations phi estimate := by
  unfold newtonAngle at h
  split_ifs at h
  split at h
  · cases h
  · cases h
    exact ⟨_, rfl⟩

theorem kind_of_newtonAngle (hphi : Within (-halfPi) halfPi phi) (h : newtonAngle b phi = .error e) :
    e.kind = .convergence := by
  obtain ⟨_, rfl⟩ := newtonAngle_eq_error hphi h
  rfl

end Mollweide

theorem Sinusoidal.forward_of_within {lam phi : α} (h : Within (-halfPi) halfPi phi) :
    Sinusoidal.forward lam phi = .ok (lam * cos phi, phi) := if_pos h

/-- A seam is measured where both projections draw its latitude; the cap's row is that of an auxiliary angle. -/
theorem Seam.calibrate_eq_ok {m : Mollweide α} {latitude : α} {s : Seam α}
    (h : Seam.calibrate m latitude = .ok s) : Within (-halfPi) halfPi latitude ∧
      ∃ theta, m.auxiliaryAngle latitude = .ok theta ∧
        s = ⟨latitude, latitude, Mollweide.yFactor * sin theta - latitude⟩ := by
  unfold calibrate at h
  split at h
  · cases h
  · next x bandRow hband =>
    unfold Sinusoidal.forward at hband
    split_ifs at hband with hlatitude
    cases hband
    split at h
    · cases h
    · next x' capRow hcap =>
      cases h
      obtain ⟨theta, htheta, -, rfl⟩ := Mollweide.forward_eq_ok hcap
      exact ⟨hlatitude, theta, htheta, rfl⟩

namespace Homolosine
variable {g : Homolosine α} {lam phi x y : α}

theorem branchOfLatitude_eq_mollweide : g.branchOfLatitude phi = .mollweide ↔ g.seam.latitude < abs phi := by
  unfold branchOfLatitude
  split_ifs with hcap <;> simpa using hcap

theorem pieceOfPoint_eq_ok {p : g.Piece} (h : g.pieceOfPoint lam phi = .ok p) :
    Within (-halfPi) halfPi phi ∧ ∃ lobe,
      (g.sheet (Hemisphere.of phi)).geographic.select lam = .ok lobe ∧
        p = ⟨Hemisphere.of phi, lobe, g.branchOfLatitude phi⟩ := by
  unfold pieceOfPoint at h
  split_ifs at h with hphi
  split at h
  · next lobe hlobe =>
    cases h
    exact ⟨hphi, lobe, hlobe, rfl⟩
  · cases h

theorem pieceOfPlace_eq_ok {p : g.Piece} (h : g.pieceOfPlace x y = .ok p) :
    abs y ≤ g.poleRow + poleRowSlack ∧ ∃ lobe,
      (g.sheet (Hemisphere.of y)).planar.select (g.snapToEdge (Hemisphere.of y) x) = .ok lobe ∧
        p = ⟨Hemisphere.of y, (g.sheet (Hemisphere.of y)).ofPlanar lobe, g.branchOfRow y⟩ := by
  unfold pieceOfPlace at h
  split_ifs at h with hrow
  split at h
  · next lobe hlobe =>
    cases h
    exact ⟨hrow, lobe, hlobe, rfl⟩
  · cases h

theorem pieceOfPoint_of_select {lobe : (g.sheet (Hemisphere.of phi)).geographic.Lobe}
    (hphi : Within (-halfPi) halfPi phi) (h : (g.sheet (Hemisphere.of phi)).geographic.select lam = .ok lobe) :
    g.pieceOfPoint lam phi = .ok ⟨Hemisphere.of phi, lobe, g.branchOfLatitude phi⟩ := by
  rw [pieceOfPoint, if_pos hphi, h]

theorem pieceOfPlace_of_select {lobe : (g.sheet (Hemisphere.of y)).planar.Lobe}
    (hrow : abs y ≤ g.poleRow + poleRowSlack)
    (h : (g.sheet (Hemisphere.of y)).planar.select (g.snapToEdge (Hemisphere.of y) x) = .ok lobe) :
    g.pieceOfPlace x y =
      .ok ⟨Hemisphere.of y, (g.sheet (Hemisphere.of y)).ofPlanar lobe, g.branchOfRow y⟩ := by
  rw [pieceOfPlace, if_pos hrow, h]

theorem pieceOfPoint_eq_error_iff {e : Failure α} : g.pieceOfPoint lam phi = .error e ↔
    ¬ Within (-halfPi) halfPi phi ∧ e = .offGlobe lam phi ∨
      Within (-halfPi) halfPi phi ∧ (g.sheet (Hemisphere.of phi)).geographic.select lam = .error e := by
  unfold pieceOfPoint
  split_ifs with hphi
  · simp only [hphi, not_true_eq_false, false_and, true_and, false_or]
    cases (g.sheet (Hemisphere.of phi)).geographic.select lam with
    | ok lobe => simp only [reduceCtorEq]
    | error e' => simp only [Except.error.injEq]
  · simp only [hphi, not_false_eq_true, true_and, false_and, or_false, Except.error.injEq]
    exact eq_comm

theorem pieceOfPlace_eq_error_iff {e : Failure α} : g.pieceOfPlace x y = .error e ↔
    ¬ abs y ≤ g.poleRow + poleRowSlack ∧ e = .offMap x y ∨
      abs y ≤ g.poleRow + poleRowSlack ∧
        (g.sheet (Hemisphere.of y)).planar.select (g.snapToEdge (Hemisphere.of y) x) = .error e := by
  unfold pieceOfPlace
  split_ifs with hrow
  · simp only [hrow, not_true_eq_false, false_and, true_and, false_or]
    cases (g.sheet (Hemisphere.of y)).planar.select (g.snapToEdge (Hemisphere.of y) x) with
    | ok lobe => simp only [reduceCtorEq]
    | error e' => simp only [Except.error.injEq]
  · simp only [hrow, not_false_eq_true, true_and, false_and, or_false, Except.error.injEq]
    exact eq_comm

/-- In the planar table's range nothing is moved to the edge. -/
theorem snapToEdge_of_planar [LawfulOrder α] {h : Hemisphere}
    (hx : Within (g.sheet h).planar.west (g.sheet h).planar.east x) : g.snapToEdge h x = x := by
  simp only [snapToEdge]
  rw [if_neg fun hout => LawfulOrder.not_lt_of_le hx.1 hout.2,
    if_neg fun hout => LawfulOrder.not_lt_of_le hx.2 hout.1]

theorem exists_pieceOfPlace_of_planar [LawfulOrder α] (hrow : abs y ≤ g.poleRow + poleRowSlack)
    (hx : Within (g.sheet (Hemisphere.of y)).planar.west (g.sheet (Hemisphere.of y)).planar.east x) :
    ∃ p, g.pieceOfPlace x y = .ok p ∧ p.branch = g.branchOfRow y := by
  obtain ⟨lobe, hlobe, -⟩ := (g.sheet (Hemisphere.of y)).planar.exists_select hx
  rw [← snapToEdge_of_planar hx] at hlobe
  exact ⟨_, pieceOfPlace_of_select hrow hlobe, rfl⟩

theorem kind_of_pieceOfPoint {e : Failure α} (h : g.pieceOfPoint lam phi = .error e) : e.kind = .domain := by
  rcases pieceOfPoint_eq_error_iff.mp h with ⟨-, rfl⟩ | ⟨-, hselect⟩
  · rfl
  · exact LobeTable.kind_of_select _ hselect

theorem kind_of_pieceOfPlace {e : Failure α} (h : g.pieceOfPlace x y = .error e) : e.kind = .domain := by
  rcases pieceOfPlace_eq_error_iff.mp h with ⟨-, rfl⟩ | ⟨-, hselect⟩
  · rfl
  · exact LobeTable.kind_of_select _ hselect

/-! What a call can come to once its piece is known. -/

/-- On the globe a projection fails only in a cap, for want of an auxiliary angle. -/
theorem forwardLocal_eq_error_iff (hphi : Within (-halfPi) halfPi phi) {h : Hemisphere} {b : Branch}
    {e : Failure α} : g.forwardLocal h b lam phi = .error e ↔
      b = .mollweide ∧ g.mollweide.auxiliaryAngle phi = .error e := by
  cases b with
  | sinusoidal => simp only [forwardLocal, Sinusoidal.forward_of_within hphi, reduceCtorEq, false_and]
  | mollweide =>
    have hforward : g.mollweide.forward lam phi = .error e ↔ g.mollweide.auxiliaryAngle phi = .error e :=
      Mollweide.forward_eq_error_iff
    rw [← hforward, forwardLocal]
    cases g.mollweide.forward lam phi with
    | ok place => simp only [reduceCtorEq, and_false]
    | error e' => simp only [Except.error.injEq, true_and]

theorem Piece.forward_eq_error_iff (hphi : Within (-halfPi) halfPi phi) {p : g.Piece} {e : Failure α} :
    p.forward lam phi = .error e ↔ p.branch = .mollweide ∧
      ∃ cause, g.mollweide.auxiliaryAngle phi = .error cause ∧ e = .inLobe p.hemisphere p.lobe cause := by
  have hlocal : p.forward lam phi = .error e ↔
      ∃ cause, g.forwardLocal p.hemisphere p.branch (lam - p.meridian) phi = .error cause ∧
        e = .inLobe p.hemisphere p.lobe cause := by
    unfold Piece.forward
    cases g.forwardLocal p.hemisphere p.branch (lam - p.meridian) phi with
    | ok place => simp only [reduceCtorEq, false_and, exists_false]
    | error cause =>
      simp only [Except.error.injEq, exists_eq_left']
      exact eq_comm
  simp only [hlocal, forwardLocal_eq_error_iff hphi, and_assoc, exists_and_left]

theorem Piece.recover_eq_error_iff {p : g.Piece} {e : Failure α} : p.recover x y = .error e ↔
    ∃ cause, inverseLocal p.branch (x - Seam.horizontalShift p.meridian) (p.row y) = .error cause ∧
      e = .inLobe p.hemisphere p.lobe cause := by
  unfold Piece.recover
  cases inverseLocal p.branch (x - Seam.horizontalShift p.meridian) (p.row y) with
  | ok point => simp only [reduceCtorEq, false_and, exists_false]
  | error cause =>
    simp only [Except.error.injEq, exists_eq_left']
    exact eq_comm

theorem Piece.local_of_recover {p : g.Piece} (h : p.recover x y = .ok (lam, phi)) :
    ∃ u, inverseLocal p.branch (x - Seam.horizontalShift p.meridian) (p.row y) = .ok (u, phi) ∧
      lam = u + p.meridian := by
  unfold Piece.recover at h
  split at h
  · next u v hlocal =>
    cases h
    exact ⟨u, hlocal, rfl⟩
  · cases h

/-- Without a tracer a point comes to what its piece makes of it. -/
theorem forward_eq (g : Homolosine α) (lam phi : α) : g.forward lam phi =
    match g.pieceOfPoint lam phi with
    | .error e => .error e
    | .ok p => p.forward lam phi := by
  simp only [forward, forwardIn, liftExcept_except]
  cases g.pieceOfPoint lam phi with
  | error e => rfl
  | ok p => exact bind_pure (p.forward lam phi)

/-- Without a tracer a place comes to its piece's point, if the longitude is not too far from the piece. -/
theorem inverse_eq (g : Homolosine α) (x y : α) : g.inverse x y =
    match g.pieceOfPlace x y with
    | .error e => .error e
    | .ok p =>
      match p.recover x y with
      | .error e => .error e
      | .ok (lam, phi) =>
        if Within (p.left - p.slack y) (p.right + p.slack y) lam then .ok (p.clamp lam, phi)
        else .error (.interruption x y p.hemisphere p.lobe lam) := by
  unfold inverse inverseIn
  cases g.pieceOfPlace x y with
  | error e => rfl
  | ok p =>
    cases hpoint : p.recover x y with
    | error e =>
      simp only [liftExcept, hpoint, pure_bind]
      rfl
    | ok point =>
      simp only [liftExcept, hpoint, pure_bind]
      split_ifs <;> rfl

theorem forward_eq_ok_iff {place : α × α} : g.forward lam phi = .ok place ↔
    ∃ p, g.pieceOfPoint lam phi = .ok p ∧ p.forward lam phi = .ok place := by
  rw [forward_eq]
  cases g.pieceOfPoint lam phi <;> simp

theorem forward_eq_error_iff {e : Failure α} : g.forward lam phi = .error e ↔
    g.pieceOfPoint lam phi = .error e ∨
      ∃ p, g.pieceOfPoint lam phi = .ok p ∧ p.forward lam phi = .error e := by
  rw [forward_eq]
  cases g.pieceOfPoint lam phi <;> simp

/-- All that a point can be refused for, in the order in which it is examined: its latitude, its longitude, and in
a cap the auxiliary angle of its latitude. -/
theorem forward_eq_error_cases {e : Failure α} : g.forward lam phi = .error e ↔
    ¬ Within (-halfPi) halfPi phi ∧ e = .offGlobe lam phi ∨
      Within (-halfPi) halfPi phi ∧ ((g.sheet (Hemisphere.of phi)).geographic.select lam = .error e ∨
        ∃ lobe cause, (g.sheet (Hemisphere.of phi)).geographic.select lam = .ok lobe ∧
          g.seam.latitude < abs phi ∧ g.mollweide.auxiliaryAngle phi = .error cause ∧
            e = .inLobe (Hemisphere.of phi) lobe cause) := by
  rw [forward_eq_error_iff, pieceOfPoint_eq_error_iff, or_assoc]
  refine or_congr_right ?_
  rw [and_or_left]
  refine or_congr_right ⟨?_, ?_⟩
  · rintro ⟨p, hp, hplace⟩
    obtain ⟨hphi, lobe, hlobe, rfl⟩ := pieceOfPoint_eq_ok hp
    obtain ⟨hbranch, cause, hcause, rfl⟩ := (Piece.forward_eq_error_iff hphi).mp hplace
    exact ⟨hphi, lobe, cause, hlobe, branchOfLatitude_eq_mollweide.mp hbranch, hcause, rfl⟩
  · rintro ⟨hphi, lobe, cause, hlobe, hcap, hcause, rfl⟩
    exact ⟨_, pieceOfPoint_of_select hphi hlobe, (Piece.forward_eq_error_iff hphi).mpr
      ⟨branchOfLatitude_eq_mollweide.mpr hcap, cause, hcause, rfl⟩⟩

/-- A point of the globe with a longitude of its table is refused only beyond the seam. -/
theorem forward_eq_error_iff_of_within (hphi : Within (-halfPi) halfPi phi)
    (hlam : Within (g.sheet (Hemisphere.of phi)).geographic.west
      (g.sheet (Hemisphere.of phi)).geographic.east lam) {e : Failure α} :
    g.forward lam phi = .error e ↔ g.seam.latitude < abs phi ∧
      ∃ cause, g.mollweide.auxiliaryAngle phi = .error cause ∧
        e = .inLobe (Hemisphere.of phi) ((g.sheet (Hemisphere.of phi)).geographic.owner lam) cause := by
  simp only [forward_eq_error_cases, LobeTable.select_of_within _ hlam, hphi, not_true_eq_false, false_and,
    false_or, true_and, reduceCtorEq, Except.ok.injEq, exists_and_left, exists_eq_left']

/-- All that the inverse can fail of: there is no piece, its projection has no point at the place, or the point's
longitude is too far from the piece. -/
theorem inverse_eq_error_iff {e : Failure α} : g.inverse x y = .error e ↔
    g.pieceOfPlace x y = .error e ∨ ∃ p, g.pieceOfPlace x y = .ok p ∧ (p.recover x y = .error e ∨
      ∃ lam phi, p.recover x y = .ok (lam, phi) ∧
        ¬ Within (p.left - p.slack y) (p.right + p.slack y) lam ∧
          e = .interruption x y p.hemisphere p.lobe lam) := by
  rw [inverse_eq]
  cases g.pieceOfPlace x y with
  | error e' => simp
  | ok p =>
    cases hr : p.recover x y with
    | error e' => simp [hr]
    | ok point =>
      obtain ⟨lam, phi⟩ := point
      by_cases hwithin : Within (p.left - p.slack y) (p.right + p.slack y) lam
      · simp [hr, hwithin]
      · simp [hr, hwithin, eq_comm]

/-- A longitude that is some number is brought back to the piece. -/
theorem Piece.clamp_within [LawfulOrder α] (p : g.Piece) (hlam : lam ≤ lam) :
    Within p.left p.right (p.clamp lam) := by
  have hends : p.left ≤ p.right := LawfulOrder.le_of_lt
    ((g.sheet p.hemisphere).geographic.left_lt_right p.lobe)
  have hleft := LawfulOrder.placed_left hends
  have hright := LawfulOrder.placed_right hends
  unfold Piece.clamp lesser larger
  split_ifs with hlow hhigh hhigh
  · exact ⟨hends, hright⟩
  · exact ⟨hleft, hends⟩
  · exact ⟨hends, hright⟩
  · exact ⟨LawfulOrder.le_of_not_lt hlam hleft hlow, LawfulOrder.le_of_not_lt hright hlam hhigh⟩

theorem inverse_eq_ok_iff : g.inverse x y = .ok (lam, phi) ↔
    ∃ p u, g.pieceOfPlace x y = .ok p ∧ p.recover x y = .ok (u, phi) ∧
      Within (p.left - p.slack y) (p.right + p.slack y) u ∧ p.clamp u = lam := by
  rw [inverse_eq]
  cases g.pieceOfPlace x y with
  | error e' => simp
  | ok p =>
    cases hr : p.recover x y with
    | error e' => simp [hr]
    | ok point =>
      obtain ⟨u, v⟩ := point
      by_cases hwithin : Within (p.left - p.slack y) (p.right + p.slack y) u
      · simp [hr, hwithin, and_comm]
      · simp [hr, hwithin]

end Homolosine
end GoodeMap
