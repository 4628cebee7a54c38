import GoodeMap.Proofs.Coverage

/-! A larger budget for the auxiliary angle. Iterations only decide whether there is an answer, never which: what
is found within a budget is found within every larger one, by the projection, by the measuring of the seam and so
by the whole interrupted map. -/
namespace GoodeMap
open Scalar
variable {α : Type}

def Extends {β : Type} (a b : Except (Failure α) β) : Prop :=
  (∃ e, a = .error e ∧ e.kind = .convergence) ∨ b = a

namespace Extends
variable {β : Type} {a b : Except (Failure α) β}

theorem of_ok {v : β} (h : Extends a b) (ha : a = .ok v) : b = .ok v := by
  cases h with
  | inl h =>
    obtain ⟨e, he, -⟩ := h
    cases ha.symm.trans he
  | inr h => exact h.trans ha

theorem eq_of_settled (h : Extends a b) (ha : ∀ e, a = .error e → e.kind ≠ .convergence) : b = a := by
  cases h with
  | inl h =>
    obtain ⟨e, he, hkind⟩ := h
    exact absurd hkind (ha e he)
  | inr h => exact h

theorem convergence (h : Extends a b) (hb : ∃ e, b = .error e ∧ e.kind = .convergence) :
    ∃ e, a = .error e ∧ e.kind = .convergence := by
  cases h with
  | inl h => exact h
  | inr h => exact h ▸ hb

end Extends

variable [Scalar α] {n m : Int} (hnm : n ≤ m) (s r : α)

namespace Mollweide

/-- Each iteration is the same in both runs, so a run that settles keeps its answer with more of them. -/
theorem settle_mono {target : α} {k l : Nat} {t u : α} (hkl : k ≤ l) (h : settle ⟨n, s, r⟩ target k t = .ok u) :
    settle ⟨m, s, r⟩ target l t = .ok u := by
  induction k generalizing l t with
  | zero => cases h
  | succ k ih =>
    cases l with
    | zero => omega
    | succ l =>
      simp only [settle] at h ⊢
      split_ifs at h ⊢ with hresidual hstep
      · exact h
      · exact h
      · exact ih (by omega) h

include hnm

theorem newtonAngle_extends (phi : α) : Extends (newtonAngle ⟨n, s, r⟩ phi) (newtonAngle ⟨m, s, r⟩ phi) := by
  unfold newtonAngle
  split_ifs with hphi hpole
  · exact .inr rfl
  · cases h : settle ⟨n, s, r⟩ (pi * sin (abs phi)) n.toNat (abs phi) with
    | error t => exact .inl ⟨_, rfl, rfl⟩
    | ok t =>
      have hmore := settle_mono (m := m) s r (Int.toNat_le_toNat hnm) h
      simp only [hmore]
      exact .inr rfl
  · exact .inr rfl

theorem forward_extends (lam phi : α) :
    Extends ((newton ⟨n, s, r⟩).forward lam phi) ((newton ⟨m, s, r⟩).forward lam phi) := by
  refine (newtonAngle_extends hnm s r phi).imp ?_ fun h => ?_
  · rintro ⟨e, he, hkind⟩
    exact ⟨e, forward_eq_error_iff.mpr he, hkind⟩
  · simp only [forward, newton, h]

end Mollweide

include hnm in
theorem Seam.calibrate_extends (latitude : α) : Extends (Seam.calibrate (.newton ⟨n, s, r⟩) latitude)
    (Seam.calibrate (.newton ⟨m, s, r⟩) latitude) := by
  unfold Seam.calibrate
  cases Sinusoidal.forward 0.0 latitude with
  | error e => exact .inr rfl
  | ok band =>
    refine (Mollweide.forward_extends hnm s r 0.0 latitude).imp ?_ fun h => ?_
    · rintro ⟨e, he, hkind⟩
      exact ⟨e, by simp only [he], hkind⟩
    · simp only [h]

namespace Homolosine

def withMollweide (g : Homolosine α) (mollweide : Mollweide α) : Homolosine α := { g with mollweide }

def Piece.carry {g : Homolosine α} (p : g.Piece) (mollweide : Mollweide α) : (g.withMollweide mollweide).Piece :=
  ⟨p.hemisphere, p.lobe, p.branch⟩

section
variable (g : Homolosine α) (mollweide : Mollweide α)

theorem pieceOfPoint_carry (lam phi : α) : (g.withMollweide mollweide).pieceOfPoint lam phi =
    (g.pieceOfPoint lam phi).map fun p => p.carry mollweide := by
  cases h : g.pieceOfPoint lam phi with
  | error e =>
    have hcauses := pieceOfPoint_eq_error_iff.mp h
    exact (pieceOfPoint_eq_error_iff (g := g.withMollweide mollweide)).mpr hcauses
  | ok p =>
    obtain ⟨hphi, lobe, hlobe, rfl⟩ := pieceOfPoint_eq_ok h
    exact pieceOfPoint_of_select (g := g.withMollweide mollweide) hphi hlobe

theorem pieceOfPlace_carry (x y : α) : (g.withMollweide mollweide).pieceOfPlace x y =
    (g.pieceOfPlace x y).map fun p => p.carry mollweide := by
  cases h : g.pieceOfPlace x y with
  | error e =>
    have hcauses := pieceOfPlace_eq_error_iff.mp h
    exact (pieceOfPlace_eq_error_iff (g := g.withMollweide mollweide)).mpr hcauses
  | ok p =>
    obtain ⟨hrow, lobe, hlobe, rfl⟩ := pieceOfPlace_eq_ok h
    exact pieceOfPlace_of_select (g := g.withMollweide mollweide) hrow hlobe

/-- The inverse does not use the auxiliary angle. -/
theorem inverse_withMollweide (x y : α) : (g.withMollweide mollweide).inverse x y = g.inverse x y := by
  rw [inverse_eq, inverse_eq, pieceOfPlace_carry]
  cases g.pieceOfPlace x y with
  | error e => rfl
  | ok p => rfl

end

section
variable {g : Homolosine α} {mollweide : Mollweide α} {phi : α}
  (h : ∀ lam, Extends (g.mollweide.forward lam phi) (mollweide.forward lam phi))
include h

theorem forwardLocal_extends (hemisphere : Hemisphere) (branch : Branch) (lam : α) :
    Extends (g.forwardLocal hemisphere branch lam phi)
      ((g.withMollweide mollweide).forwardLocal hemisphere branch lam phi) := by
  cases branch with
  | sinusoidal => exact .inr rfl
  | mollweide =>
    refine (h lam).imp ?_ fun h => ?_
    · rintro ⟨e, he, hkind⟩
      exact ⟨e, by simp only [forwardLocal, he], hkind⟩
    · simp only [forwardLocal, withMollweide, h]

theorem Piece.forward_extends (p : g.Piece) (lam : α) :
    Extends (p.forward lam phi) ((p.carry mollweide).forward lam phi) := by
  refine (forwardLocal_extends h p.hemisphere p.branch (lam - p.meridian)).imp ?_ fun h => ?_
  · rintro ⟨e, he, hkind⟩
    exact ⟨.inLobe p.hemisphere p.lobe e, by simp only [Piece.forward, he], hkind⟩
  · have hlocal : (g.withMollweide mollweide).forwardLocal (p.carry mollweide).hemisphere
        (p.carry mollweide).branch (lam - (p.carry mollweide).meridian) phi =
        g.forwardLocal p.hemisphere p.branch (lam - p.meridian) phi := h
    simp only [Piece.forward, hlocal]
    rfl

theorem forward_extends (lam : α) :
    Extends (g.forward lam phi) ((g.withMollweide mollweide).forward lam phi) := by
  rw [forward_eq, forward_eq, pieceOfPoint_carry]
  cases g.pieceOfPoint lam phi with
  | error e => exact .inr rfl
  | ok p => exact p.forward_extends h lam

end

include hnm in
/-- A map that can be built can be built with a larger budget, and it is the same map with more iterations. -/
theorem build_withMollweide {north south : LobeTable α} {latitude : α} {g : Homolosine α}
    (hg : build north south latitude (.newton ⟨n, s, r⟩) = .ok g) :
    build north south latitude (.newton ⟨m, s, r⟩) = .ok (g.withMollweide (.newton ⟨m, s, r⟩)) := by
  obtain ⟨hnorth, hsouth⟩ := check_of_build hg
  obtain ⟨seam, northSheet, southSheet, hseam, hnorthSheet, hsouthSheet, rfl⟩ := parts_of_build hg
  have hseam' := (Seam.calibrate_extends hnm s r latitude).of_ok hseam
  simp only [build, hnorth, hsouth, hseam', hnorthSheet, hsouthSheet]
  rfl

/-- Iterations decide whether there is an answer, not which. An auxiliary angle found within a budget is found
within every larger one, and a larger one is used up only where the smaller one is. An interrupted map that can be
built can be built with the larger budget too, with the same seam and tables; all its inverses are the same, and
so is every place that the smaller budget was not too small for. -/
theorem budget_growth {n m : Int} (hnm : n ≤ m) (s r : α) :
    (∀ phi theta, Mollweide.newtonAngle ⟨n, s, r⟩ phi = .ok theta → Mollweide.newtonAngle ⟨m, s, r⟩ phi = .ok theta) ∧
    (∀ phi, (∃ e, Mollweide.newtonAngle ⟨m, s, r⟩ phi = .error e ∧ e.kind = .convergence) →
      ∃ e, Mollweide.newtonAngle ⟨n, s, r⟩ phi = .error e ∧ e.kind = .convergence) ∧
    ∀ (north south : LobeTable α) (latitude : α) (g : Homolosine α),
      build north south latitude (.newton ⟨n, s, r⟩) = .ok g →
        ∃ g', build north south latitude (.newton ⟨m, s, r⟩) = .ok g' ∧ g'.seam = g.seam ∧
          (∀ hemisphere, g'.sheet hemisphere = g.sheet hemisphere) ∧ (∀ x y, g'.inverse x y = g.inverse x y) ∧
          ∀ lam phi, (∀ e, g.forward lam phi = .error e → e.kind ≠ .convergence) →
            g'.forward lam phi = g.forward lam phi := by
  have hangle := Mollweide.newtonAngle_extends hnm s r
  refine ⟨fun phi theta h => (hangle phi).of_ok h, fun phi h => (hangle phi).convergence h,
    fun north south latitude g hg => ⟨_, build_withMollweide hnm s r hg, rfl, fun hemisphere => ?_,
      fun x y => ?_, fun lam phi h => ?_⟩⟩
  · cases hemisphere <;> rfl
  · exact inverse_withMollweide g _ x y
  · have hforward (lam : α) : Extends (g.mollweide.forward lam phi) ((Mollweide.newton ⟨m, s, r⟩).forward lam phi) := by
      rw [mollweide_of_build hg]
      exact Mollweide.forward_extends hnm s r lam phi
    exact (forward_extends hforward lam).eq_of_settled h

/-- One lobe with the seam on the equator: a latitude of one radian settles within sixty iterations, so it has the
same angle and the same place with a hundred. -/
theorem budget_growth_wholeLobe : (60 : Int) ≤ 100 ∧
    (∃ theta : Double .level, Mollweide.newtonAngle ⟨100, Constants.stepTolerance, Constants.residualTolerance⟩ 1.0 =
      .ok theta) ∧
    ∃ g g' : Homolosine (Double .level),
      build wholeLobe wholeLobe 0.0 (.newton ⟨60, Constants.stepTolerance, Constants.residualTolerance⟩) = .ok g ∧
      build wholeLobe wholeLobe 0.0 (.newton ⟨100, Constants.stepTolerance, Constants.residualTolerance⟩) = .ok g' ∧
      g'.inverse 0.0 1.0 = g.inverse 0.0 1.0 ∧ g'.forward 0.0 1.0 = g.forward 0.0 1.0 := by
  have hle : (60 : Int) ≤ 100 := by decide
  obtain ⟨hangle, -, hbuild⟩ :=
    budget_growth hle (Constants.stepTolerance : Double .level) Constants.residualTolerance
  obtain ⟨theta, htheta⟩ := exists_of_isOk (r := Mollweide.newtonAngle
    ⟨60, Constants.stepTolerance, Constants.residualTolerance⟩ (1.0 : Double .level)) (by decide +kernel)
  obtain ⟨place, h⟩ := exists_of_isOk (r := do
    (← build wholeLobe wholeLobe 0.0 (.newton ⟨60, Constants.stepTolerance, Constants.residualTolerance⟩)).forward
      0.0 1.0) (by decide +kernel)
  obtain ⟨g, hg, hplace⟩ := bind_eq_ok_iff.mp h
  obtain ⟨g', hg', -, -, hinverse, hforward⟩ := hbuild wholeLobe wholeLobe 0.0 g hg
  refine ⟨hle, ⟨theta, hangle _ _ htheta⟩, g, g', hg, hg', hinverse _ _, hforward _ _ fun e he => ?_⟩
  cases hplace.symm.trans he

end Homolosine
end GoodeMap
