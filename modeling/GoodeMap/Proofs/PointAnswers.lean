import GoodeMap.Proofs.HomolosineAnswers

/-! Points of the globe, in doubles, are taken to places and back without a range check that fires. An answer of the
inverse lies in its lobe, the lobe in its table and the table between the half turns; a point whose coordinates are
in range has its lobe. -/
namespace GoodeMap
open Scalar
open Binary64 (Circular Below)

theorem LobeTable.lobe_within {α : Type} [Scalar α] [LawfulOrder α] {t : LobeTable α} (h : t.Spans) (i : t.Lobe) :
    Within (-pi) pi (t.left i) ∧ Within (-pi) pi (t.right i) := by
  have hends := LawfulOrder.le_of_lt (t.left_lt_right i)
  have hleft := LawfulOrder.le_trans h.1.2 (t.west_le_left i)
  have hright := LawfulOrder.le_trans (t.right_le_east i) h.2.1
  exact ⟨⟨hleft, LawfulOrder.le_trans hends hright⟩, LawfulOrder.le_trans hleft hends, hright⟩

theorem GeographicPoint.of_eq_ok_iff {α : Type} [Scalar α] {longitude latitude : α} {point : GeographicPoint α} :
    of longitude latitude = .ok point ↔ longitude = point.longitude ∧ latitude = point.latitude := by
  unfold of
  constructor
  · intro h
    split_ifs at h
    cases h
    exact ⟨rfl, rfl⟩
  · rintro ⟨rfl, rfl⟩
    rw [dif_pos point.latitude_within, dif_pos point.longitude_within]

namespace Homolosine

section
variable {α : Type} [Scalar α] {g : Homolosine α} {lam phi x y : α}

/-- The answer as a point is the answer as two numbers, if these pass for a point. -/
theorem inversePoint_eq_ok_iff {point : GeographicPoint α} :
    g.inversePoint x y = .ok point ↔ g.inverse x y = .ok (point.longitude, point.latitude) := by
  rw [inversePoint, bind_eq_ok_iff]
  constructor
  · rintro ⟨⟨lam, phi⟩, h, hpoint⟩
    obtain ⟨rfl, rfl⟩ := GeographicPoint.of_eq_ok_iff.mp hpoint
    exact h
  · intro h
    exact ⟨_, h, GeographicPoint.of_eq_ok_iff.mpr ⟨rfl, rfl⟩⟩

/-- In tables that begin and end at a half turn every point of the globe has its lobe, so nothing but its auxiliary
angle can fail. -/
theorem exists_cause_of_forwardPoint [LawfulOrder α] (htable : ∀ h, (g.sheet h).geographic.Spans)
    {point : GeographicPoint α} {e : Failure α} (h : g.forwardPoint point = .error e) :
    ∃ cause, g.mollweide.auxiliaryAngle point.latitude = .error cause ∧ e.kind = cause.kind := by
  have hlam := (LobeTable.within_iff_of_spans (htable (Hemisphere.of point.latitude))).mpr point.longitude_within
  obtain ⟨-, cause, hcause, rfl⟩ := (forward_eq_error_iff_of_within point.latitude_within hlam).mp h
  exact ⟨cause, hcause, rfl⟩

end

section
variable {c : Circular} {north south : LobeTable (Double c)} {latitude lam phi x y : Double c}
  {m : Mollweide (Double c)} {g : Homolosine (Double c)}

/-- A place that has a piece has a pole row, so the offset is a number. -/
theorem below_offset_of_pieceOfPlace (hc : c.Lawful) (hbuild : build north south latitude m = .ok g) {p : g.Piece}
    (hp : g.pieceOfPlace x y = .ok p) : Below (-47) (Double.view g.seam.offset) := by
  obtain ⟨hrow, -⟩ := pieceOfPlace_eq_ok hp
  have hpole := (Double.placed_of_add (LawfulOrder.placed_right hrow)).1
  have hoffset := (Double.placed_of_sub hpole).2
  obtain ⟨_, _, _, hseam, -, -, rfl⟩ := parts_of_build hbuild
  exact Seam.below_offset_of_placed hc hseam hoffset

/-- Whatever the cuts, the seam and the way to the auxiliary angle, an answer is a point of the piece. -/
theorem within_of_inverse (hc : c.Lawful) (hbuild : build north south latitude m = .ok g)
    (h : g.inverse x y = .ok (lam, phi)) : ∃ p, g.pieceOfPlace x y = .ok p ∧ Within p.left p.right lam ∧
      Within (-halfPi) halfPi phi := by
  obtain ⟨p, u, hp, hr, hu, rfl⟩ := inverse_eq_ok_iff.mp h
  have hy := Double.placed_abs.mp (placed_of_pieceOfPlace hp).2
  exact ⟨p, hp, p.clamp_within (LawfulOrder.placed_right hu.1),
    Piece.within_of_recover hc (below_offset_of_pieceOfPlace hc hbuild hp) hy hr⟩

/-- With tables made of degrees from a half turn to a half turn a place has a point if and only if it has a longitude
and a latitude: these lie in a lobe and on the globe, to the last digit. A point on its way to a place is never off the
globe or off the tables, and fails at most for want of iterations. -/
theorem point_answers_closed {b : Mollweide.Budget (Double c)} (hc : c.Lawful) (hnorth : north.OfWholeTurn)
    (hsouth : south.OfWholeTurn) (hbuild : build north south latitude (.newton b) = .ok g) :
    (∀ x y, (∃ point, g.inversePoint x y = .ok point) ↔ ∃ lam phi, g.inverse x y = .ok (lam, phi)) ∧
    (∀ x y lam phi, g.inverse x y = .ok (lam, phi) → ∃ p, g.pieceOfPlace x y = .ok p ∧
      Within p.left p.right lam ∧ Within (-pi) pi p.left ∧ Within (-pi) pi p.right ∧ Within (-pi) pi lam ∧
        Within (-halfPi) halfPi phi) ∧
    ∀ point e, g.forwardPoint point = .error e → e.kind = .convergence := by
  have htable : ∀ h, (g.sheet h).geographic.Spans := by
    intro h
    rw [(tables_of_build hbuild).1]
    cases h with
    | north => exact LobeTable.spans_of_ofWholeTurn hnorth
    | south => exact LobeTable.spans_of_ofWholeTurn hsouth
  have hrange : ∀ x y lam phi, g.inverse x y = .ok (lam, phi) → ∃ p, g.pieceOfPlace x y = .ok p ∧
      Within p.left p.right lam ∧ Within (-pi) pi p.left ∧ Within (-pi) pi p.right ∧ Within (-pi) pi lam ∧
        Within (-halfPi) halfPi phi := by
    intro x y lam phi h
    obtain ⟨p, hp, hlam, hphi⟩ := within_of_inverse hc hbuild h
    obtain ⟨hleft, hright⟩ := LobeTable.lobe_within (htable p.hemisphere) p.lobe
    exact ⟨p, hp, hlam, hleft, hright,
      ⟨LawfulOrder.le_trans hleft.1 hlam.1, LawfulOrder.le_trans hlam.2 hright.2⟩, hphi⟩
  refine ⟨fun x y => ⟨?_, ?_⟩, hrange, fun point e h => ?_⟩
  · rintro ⟨point, h⟩
    exact ⟨_, _, inversePoint_eq_ok_iff.mp h⟩
  · rintro ⟨lam, phi, h⟩
    obtain ⟨-, -, -, -, -, hlam, hphi⟩ := hrange x y lam phi h
    exact ⟨⟨lam, phi, hphi, hlam⟩, inversePoint_eq_ok_iff.mpr h⟩
  · obtain ⟨cause, hcause, hkind⟩ := exists_cause_of_forwardPoint htable h
    rw [mollweide_of_build hbuild] at hcause
    exact hkind.trans (Mollweide.kind_of_newtonAngle point.latitude_within hcause)

/-- The usual cuts with the seam on the equator: the middle of the map has its point, and the point its place. -/
theorem point_answers_closed_middle : ∃ (north south : LobeTable (Double .level)) (g : Homolosine (Double .level)),
    build north south 0.0 (.newton .standard) = .ok g ∧ (∃ point, g.inversePoint 0.0 0.0 = .ok point) ∧
      ∃ lam phi, g.inverse 0.0 0.0 = .ok (lam, phi) ∧ Within (-pi) pi lam ∧ Within (-halfPi) halfPi phi := by
  obtain ⟨answer, hanswer⟩ := exists_of_isOk (r := do
    (← build (← LobeTable.north) (← LobeTable.south) (0.0 : Double .level) (.newton .standard)).inverse 0.0 0.0)
    (by decide +kernel)
  obtain ⟨north, hn, h⟩ := bind_eq_ok_iff.mp hanswer
  obtain ⟨south, hs, h⟩ := bind_eq_ok_iff.mp h
  obtain ⟨g, hbuild, hinverse⟩ := bind_eq_ok_iff.mp h
  obtain ⟨hpoint, hrange, -⟩ := point_answers_closed Double.level_lawful
    (LobeTable.ofWholeTurn_of_usual (.inl hn)) (LobeTable.ofWholeTurn_of_usual (.inr hs)) hbuild
  obtain ⟨-, -, -, -, -, hlam, hphi⟩ := hrange _ _ _ _ hinverse
  exact ⟨north, south, g, hbuild, (hpoint _ _).mpr ⟨_, _, hinverse⟩, _, _, hinverse, hlam, hphi⟩

end

end Homolosine
end GoodeMap
