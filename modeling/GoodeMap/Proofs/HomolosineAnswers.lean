import GoodeMap.Proofs.Acceptance
import GoodeMap.Proofs.Coverage
import GoodeMap.Proofs.PlainAnswers

/-! What the interrupted map answers in doubles. A place or a point with a coordinate that is no number is
refused, whatever the projections inside make of it. -/
namespace GoodeMap
open Scalar
open Binary64 (Circular Below)
variable {c : Circular}

namespace Seam
variable {m : Mollweide (Double c)} {theta latitude : Double c} {s : Seam (Double c)}

theorem below_difference (hc : c.Lawful) (htheta : isFinite theta = true)
    (hlatitude : Within (-halfPi) halfPi latitude) :
    Below (-47) (Double.view (Mollweide.yFactor * sin theta - latitude)) :=
  (Double.below_add_sub (Mollweide.below_y hc htheta) (Double.below_of_within_halfPi hlatitude)
    (by omega) (by omega)).2

theorem below_offset (hc : c.Lawful) (hm : m.Settled) (h : calibrate m latitude = .ok s) :
    Below (-47) (Double.view s.offset) := by
  obtain ⟨hlatitude, theta, htheta, rfl⟩ := calibrate_eq_ok h
  exact below_difference hc (hm.finite htheta) hlatitude

/-- Whatever the way to the auxiliary angle, an offset that is a number is the offset of a finite one. -/
theorem below_offset_of_placed (hc : c.Lawful) (h : calibrate m latitude = .ok s) (hs : s.offset ≤ s.offset) :
    Below (-47) (Double.view s.offset) := by
  obtain ⟨hlatitude, theta, -, rfl⟩ := calibrate_eq_ok h
  have hsin := (Double.placed_of_mul (Double.placed_of_sub hs).1).2
  exact below_difference hc (hc.isFinite_of_sin hsin) hlatitude

end Seam

namespace LobeTable

theorem below_entries_of_usual {t : LobeTable (Double c)} (h : north = .ok t ∨ south = .ok t) :
    ∀ v ∈ t.boundaries.toList ++ t.meridians.toList, Below (-51) (Double.view v) := by
  have hnative : (∀ v ∈ (Constants.northCuts.map Constants.tableRadians : Array (Double .native)).toList ++
        (Constants.northMeridians.map Constants.tableRadians).toList, Below (-51) (Double.view v)) ∧
      ∀ v ∈ (Constants.southCuts.map Constants.tableRadians : Array (Double .native)).toList ++
        (Constants.southMeridians.map Constants.tableRadians).toList, Below (-51) (Double.view v) := by
    decide +kernel
  rcases h with h | h
  · obtain ⟨-, hboundaries, hmeridians⟩ := build_eq_ok h
    rw [hboundaries, hmeridians]
    exact hnative.1
  · obtain ⟨-, hboundaries, hmeridians⟩ := build_eq_ok h
    rw [hboundaries, hmeridians]
    exact hnative.2

end LobeTable

namespace Homolosine
variable {g : Homolosine (Double c)} {p : g.Piece} {lam phi x y : Double c}

structure Moderate (g : Homolosine (Double c)) : Prop where
  settled : g.mollweide.Settled
  offset : Below (-47) (Double.view g.seam.offset)
  entries (h : Hemisphere) : ∀ v ∈ (g.sheet h).geographic.boundaries.toList ++
    (g.sheet h).geographic.meridians.toList, Below (-51) (Double.view v)

theorem moderate_of_usual {m : Mollweide (Double c)} (hc : c.Lawful) (hm : m.Settled)
    (h : usual m = .ok g) : g.Moderate := by
  obtain ⟨north, south, hnorth, hsouth, hbuild⟩ := parts_of_usual h
  obtain ⟨htables, -⟩ := tables_of_build hbuild
  obtain ⟨seam, northSheet, southSheet, hseam, -, -, rfl⟩ := parts_of_build hbuild
  refine ⟨hm, Seam.below_offset hc hm hseam, fun h => ?_⟩
  rw [htables]
  cases h with
  | north => exact LobeTable.below_entries_of_usual (.inl hnorth)
  | south => exact LobeTable.below_entries_of_usual (.inr hsouth)

section
variable {α : Type} [Scalar α] {g : Homolosine α} {lam phi x y : α}

theorem placed_of_snapToEdge {h : Hemisphere} [LawfulOrder α]
    (hx : g.snapToEdge h x ≤ g.snapToEdge h x) : x ≤ x := by
  unfold snapToEdge at hx
  dsimp only at hx
  split_ifs at hx with hwest heast
  · exact LawfulOrder.placed_right hwest.1
  · exact LawfulOrder.placed_left heast.2
  · exact hx

theorem placed_of_pieceOfPlace [LawfulOrder α] {p : g.Piece} (hp : g.pieceOfPlace x y = .ok p) :
    x ≤ x ∧ abs y ≤ abs y := by
  obtain ⟨hrow, lobe, hlobe, -⟩ := pieceOfPlace_eq_ok hp
  have hwithin := LobeTable.within_of_owns _ ((LobeTable.select_eq_ok_iff _).mp hlobe)
  exact ⟨placed_of_snapToEdge (LawfulOrder.placed_right hwithin.1), LawfulOrder.placed_left hrow⟩

theorem within_of_pieceOfPoint [LawfulOrder α] {p : g.Piece} (hp : g.pieceOfPoint lam phi = .ok p) :
    Within p.left p.right lam ∧ Within (-halfPi) halfPi phi := by
  obtain ⟨hphi, lobe, hlobe, rfl⟩ := pieceOfPoint_eq_ok hp
  exact ⟨LobeTable.within_lobe _ ((LobeTable.select_eq_ok_iff _).mp hlobe), hphi⟩

end

namespace Piece

theorem below_edges (hg : g.Moderate) (p : g.Piece) :
    Below (-51) (Double.view p.left) ∧ Below (-51) (Double.view p.right) :=
  ⟨hg.entries _ _ (List.mem_append_left _ (Array.getElem_mem_toList _)),
    hg.entries _ _ (List.mem_append_left _ (Array.getElem_mem_toList _))⟩

theorem below_meridian (hg : g.Moderate) (p : g.Piece) : Below (-51) (Double.view p.meridian) :=
  hg.entries _ _ (List.mem_append_right _ (Array.getElem_mem_toList _))

theorem below_horizontalShift (hc : c.Lawful) (hg : g.Moderate) (p : g.Piece) :
    Below (-49) (Double.view (Seam.horizontalShift p.meridian)) := by
  have hzero : isFinite (0.0 : Double c) = true := by
    rw [Double.isFinite_iff, Double.view_zero]
    trivial
  exact Double.below_mul (below_meridian hg p) (Double.below_cos hc hzero) (by omega) (by omega)

theorem below_verticalOffset (hoffset : Below (-47) (Double.view g.seam.offset)) (h : Hemisphere) :
    Below (-45) (Double.view (g.seam.verticalOffset h)) := by
  have hsign : Below (-52) (Double.view (h.sign : Double c)) := by
    cases h with
    | north => exact Double.below_one
    | south => exact Double.below_neg.mpr Double.below_one
  exact Double.below_mul hsign hoffset (by omega) (by omega)

/-- A piece draws the points that it holds, or its auxiliary angle does not settle. -/
theorem definite_forward (hc : c.Lawful) (hg : g.Moderate) (hlam : Within p.left p.right lam)
    (hphi : Within (-halfPi) halfPi phi) : Definite (p.forward lam phi) := by
  obtain ⟨hleft, hright⟩ := below_edges hg p
  have hlocal := (Double.below_add_sub (Double.below_of_between hleft hright hlam.1 hlam.2)
    (below_meridian hg p) (by omega) (by omega)).2
  have hshift := below_horizontalShift hc hg p
  unfold forward forwardLocal
  cases p.branch with
  | sinusoidal =>
    have hx := Sinusoidal.below_x hc hlocal (by omega) (by omega) hphi
    simp only [Sinusoidal.forward_of_within hphi]
    exact ⟨Double.placed_of_below (Double.below_add_sub hx hshift (by omega) (by omega)).1 (by omega),
      LawfulOrder.placed_right hphi.1⟩
  | mollweide =>
    cases hplace : g.mollweide.forward (lam - p.meridian) phi with
    | error e =>
      have hkind := hg.settled.unsettled hphi (Mollweide.forward_eq_error_iff.mp hplace)
      exact definite_of_convergence (e := .inLobe p.hemisphere p.lobe e) hkind
    | ok place =>
      obtain ⟨theta, htheta, hx, hy⟩ := Mollweide.forward_eq_ok hplace
      have hx' := Mollweide.below_x hc (hg.settled.finite htheta) hlocal (by omega) (by omega)
      have hy' := Mollweide.below_y hc (hg.settled.finite htheta)
      rw [← hx] at hx'
      rw [← hy] at hy'
      exact ⟨Double.placed_of_below (Double.below_add_sub hx' hshift (by omega) (by omega)).1 (by omega),
        Double.placed_of_below (Double.below_add_sub hy' (below_verticalOffset hg.offset _) (by omega)
          (by omega)).2 (by omega)⟩

theorem placed_row (hoffset : Below (-47) (Double.view g.seam.offset)) (hy : y ≤ y) :
    p.row y ≤ p.row y := by
  have hrise := below_verticalOffset hoffset p.hemisphere
  unfold row localRow
  cases p.branch with
  | sinusoidal => exact hy
  | mollweide =>
    exact (Double.placed_add_and_sub hy (Double.placed_of_below hrise (by omega))
      (.inr (Double.isFinite_of_below hrise (by omega)))).1

theorem recover_error {e : Failure (Double c)} (h : p.recover x y = .error e) : e.kind = .domain := by
  obtain ⟨cause, hlocal, rfl⟩ := recover_eq_error_iff.mp h
  change cause.kind = .domain
  unfold inverseLocal at hlocal
  split at hlocal
  · exact Sinusoidal.inverse_error hlocal
  · exact Mollweide.inverse_error hlocal

/-- The latitude of the point that a piece has at a place is on the globe. -/
theorem within_of_recover (hc : c.Lawful) (hoffset : Below (-47) (Double.view g.seam.offset)) (hy : y ≤ y)
    (h : p.recover x y = .ok (lam, phi)) : Within (-halfPi) halfPi phi := by
  have hrow := placed_row (p := p) hoffset hy
  obtain ⟨u, hlocal, -⟩ := local_of_recover h
  unfold inverseLocal at hlocal
  split at hlocal
  · exact Sinusoidal.within_of_inverse hlocal
  · exact Mollweide.within_of_inverse hc hlocal hrow

theorem below_clamp (hg : g.Moderate) (hlam : lam ≤ lam) : Below (-51) (Double.view (p.clamp lam)) :=
  have hclamp := p.clamp_within hlam
  Double.below_of_between (below_edges hg p).1 (below_edges hg p).2 hclamp.1 hclamp.2

end Piece

theorem forward_refused (h : ¬ (lam ≤ lam ∧ Within (-halfPi) halfPi phi)) : Refused (g.forward lam phi) := by
  cases hp : g.pieceOfPoint lam phi with
  | error e =>
    simp only [forward_eq, hp]
    exact kind_of_pieceOfPoint hp
  | ok p =>
    obtain ⟨hlam, hphi⟩ := within_of_pieceOfPoint hp
    exact absurd ⟨LawfulOrder.placed_right hlam.1, hphi⟩ h

theorem forward_definite (hc : c.Lawful) (hg : g.Moderate) (lam phi : Double c) :
    Definite (g.forward lam phi) := by
  cases hp : g.pieceOfPoint lam phi with
  | error e =>
    have hrefused : Refused (g.forward lam phi) := by
      simp only [forward_eq, hp]
      exact kind_of_pieceOfPoint hp
    exact hrefused.definite
  | ok p =>
    obtain ⟨hlam, hphi⟩ := within_of_pieceOfPoint hp
    have hdefinite := Piece.definite_forward hc hg hlam hphi
    simp only [forward_eq, hp]
    cases hplace : p.forward lam phi with
    | error e =>
      rw [hplace] at hdefinite
      exact hdefinite
    | ok place =>
      rw [hplace] at hdefinite
      exact hdefinite

theorem inverse_error {e : Failure (Double c)} (h : g.inverse x y = .error e) : e.kind = .domain := by
  rcases inverse_eq_error_iff.mp h with hp | ⟨p, -, hr | ⟨lam, phi, -, -, rfl⟩⟩
  · exact kind_of_pieceOfPlace hp
  · exact Piece.recover_error hr
  · rfl

/-- An answer stands for a place with two numbers, and its longitude is on the globe. -/
theorem inverse_ok (hc : c.Lawful) (hg : g.Moderate) (h : g.inverse x y = .ok (lam, phi)) :
    x ≤ x ∧ y ≤ y ∧ Below (-51) (Double.view lam) ∧ phi ≤ phi := by
  obtain ⟨p, u, hp, hr, hwithin, rfl⟩ := inverse_eq_ok_iff.mp h
  obtain ⟨hx, hy⟩ := placed_of_pieceOfPlace hp
  have hy' := Double.placed_abs.mp hy
  have hphi := Piece.within_of_recover hc hg.offset hy' hr
  exact ⟨hx, hy', Piece.below_clamp hg (LawfulOrder.placed_right hwithin.1), LawfulOrder.placed_right hphi.1⟩

end Homolosine
end GoodeMap
