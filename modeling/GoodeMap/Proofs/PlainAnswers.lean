import GoodeMap.Proofs.Choice
import GoodeMap.Proofs.DoubleCircular
import GoodeMap.WorldMap

/-! What the two plain projections answer in doubles. A latitude or a row that is no number is refused or
found out; a longitude or a planar x goes through unseen. -/
namespace GoodeMap
open Scalar

section
variable {α : Type} [Scalar α]

def Definite : Except (Failure α) (α × α) → Prop
  | .ok (a, b) => a ≤ a ∧ b ≤ b
  | .error e => e.kind.isProjection = true

def Refused : Except (Failure α) (α × α) → Prop
  | .ok _ => False
  | .error e => e.kind = .domain

theorem definite_of_convergence {e : Failure α} (h : e.kind = .convergence) :
    Definite (.error e : Except (Failure α) (α × α)) := by
  change e.kind.isProjection = true
  rw [h]
  rfl

theorem Refused.definite {r : Except (Failure α) (α × α)} (h : Refused r) : Definite r := by
  cases r with
  | ok p => exact h.elim
  | error e =>
    change e.kind = .domain at h
    change e.kind.isProjection = true
    rw [h]
    rfl

theorem clip_within [LawfulOrder α] {low high x : α} (h : low ≤ high) (hx : x ≤ x) :
    Within low high (clip low high x) := by
  unfold clip
  split_ifs with hlow hhigh
  · exact ⟨LawfulOrder.placed_left h, h⟩
  · exact ⟨h, LawfulOrder.placed_right h⟩
  · exact ⟨LawfulOrder.le_of_not_lt hx (LawfulOrder.placed_left h) hlow,
      LawfulOrder.le_of_not_lt (LawfulOrder.placed_right h) hx hhigh⟩

end

open Binary64 (Circular Below)
variable {c : Circular}

theorem Double.copySign_within {size : Double c} (h : Within (-size) size (-Scalar.abs size))
    (h' : Within (-size) size (Scalar.abs size)) (x : Double c) : Within (-size) size (copySign size x) := by
  rw [Double.copySign_eq]
  split_ifs
  · exact h
  · exact h'

theorem copySign_halfPi_within (x : Double c) : Within (-halfPi) halfPi (copySign halfPi x) := by
  have hsigns : Within (-halfPi) halfPi (-Scalar.abs (halfPi : Double .native)) ∧
      Within (-halfPi) halfPi (Scalar.abs (halfPi : Double .native)) := by decide +kernel
  exact Double.copySign_within hsigns.1 hsigns.2 x

theorem copySign_one_within (x : Double c) : Within (-1.0) 1.0 (copySign 1.0 x) := by
  have hsigns : Within (-1.0) 1.0 (-Scalar.abs (1.0 : Double .native)) ∧
      Within (-1.0) 1.0 (Scalar.abs (1.0 : Double .native)) := by decide +kernel
  exact Double.copySign_within hsigns.1 hsigns.2 x

structure Core.Plain (core : Core (Except (Failure (Double c))) (Double c)) : Prop where
  forward_refused {lam phi : Double c} : ¬ Within (-halfPi) halfPi phi → Refused (core.forward lam phi)
  forward_error {lam phi : Double c} {e : Failure (Double c)} : Within (-halfPi) halfPi phi →
    core.forward lam phi = .error e → e.kind = .convergence
  forward_definite {lam phi : Double c} : Within (-halfPi) halfPi phi → Below 7 (Double.view lam) →
    Definite (core.forward lam phi)
  forward_ok {lam phi x y : Double c} : core.forward lam phi = .ok (x, y) → x ≤ x → lam ≤ lam
  inverse_error {x y : Double c} {e : Failure (Double c)} : core.inverse x y = .error e → e.kind = .domain
  inverse_ok {x y lam phi : Double c} : core.inverse x y = .ok (lam, phi) → y ≤ y → phi ≤ phi

namespace Sinusoidal
variable {lam phi x y : Double c} {k : Int}

theorem forward_of_not_within (h : ¬ Within (-halfPi) halfPi phi) : Refused (forward lam phi) := by
  rw [forward, if_neg h]
  rfl

theorem inverse_of_lt (h : Scalar.abs y < halfPi) : inverse x y = .ok (x / cos y, y) := if_pos h

theorem below_x (hc : c.Lawful) (hlam : Below k (Double.view lam)) (hlow : -1022 ≤ k) (hhigh : k ≤ 969)
    (hphi : Within (-halfPi) halfPi phi) : Below (k + 2) (Double.view (lam * cos phi)) := by
  have hfinite := Double.isFinite_of_below (Double.below_of_within_halfPi hphi) (by omega)
  exact (Double.below_mul hlam (Double.below_cos hc hfinite) (by omega) (by omega)).mono (by omega)

theorem inverse_error {e : Failure (Double c)} (h : inverse x y = .error e) : e.kind = .domain := by
  unfold inverse at h
  split_ifs at h
  cases h
  rfl

/-- An answer's latitude is on the globe. -/
theorem within_of_inverse (h : inverse x y = .ok (lam, phi)) : Within (-halfPi) halfPi phi := by
  unfold inverse at h
  split_ifs at h with hband htip
  · cases h
    exact Double.abs_le_iff.mp (LawfulOrder.le_of_lt hband)
  · cases h
    exact copySign_halfPi_within y

theorem plain (hc : c.Lawful) : (Core.sinusoidal : Core _ (Double c)).Plain where
  forward_refused := forward_of_not_within
  forward_error hphi h := by
    cases (forward_of_within hphi).symm.trans h
  forward_definite {lam phi} hphi hlam := by
    change Definite (forward lam phi)
    rw [forward_of_within hphi]
    exact ⟨Double.placed_of_below (below_x hc hlam (by omega) (by omega) hphi) (by omega),
      LawfulOrder.placed_right hphi.1⟩
  forward_ok {lam phi x y} h hx := by
    change forward lam phi = .ok (x, y) at h
    unfold forward at h
    split_ifs at h
    cases h
    exact (Double.placed_of_mul hx).1
  inverse_error := inverse_error
  inverse_ok h _ := LawfulOrder.placed_right (within_of_inverse h).1

end Sinusoidal

namespace Mollweide
variable {b : Budget (Double c)} {target theta lam phi x y : Double c} {k : Int}

theorem isFinite_of_residual (hc : c.Lawful) {t : Double c} (h : residual target t ≤ residual target t) :
    isFinite t = true := by
  have hsum := (Double.placed_of_sub h).1
  exact hc.isFinite_of_sin (Double.placed_of_add hsum).2

theorem isFinite_next {t : Double c} (ht : isFinite t = true) (hstep : Below 900 (Double.view (step target t))) :
    isFinite (next target t) = true := by
  unfold next lesser
  split_ifs
  · exact Double.isFinite_of_below Double.below_pi (by omega)
  · exact (Double.isFinite_add_sub ht hstep).2

/-- An estimate that is not finite never settles, so the angle that comes out is finite. -/
theorem isFinite_of_settle (hc : c.Lawful) (hb : Below 900 (Double.view b.stepTolerance)) {n : Nat}
    {t r : Double c} (h : settle b target n t = .ok r) : isFinite r = true := by
  induction n generalizing t with
  | zero => cases h
  | succ n ih =>
    unfold settle at h
    split_ifs at h with hresidual hstep
    · cases h
      exact isFinite_of_residual hc (Double.placed_abs.mp (LawfulOrder.placed_left hresidual))
    · cases h
      -- A step below the tolerance is a number, so the estimate it started from has a sine.
      have hle := LawfulOrder.le_of_lt hstep
      have hplaced := Double.placed_abs.mp (LawfulOrder.placed_left hle)
      exact isFinite_next (isFinite_of_residual hc (Double.placed_of_div hplaced).1)
        (Double.below_of_abs_le hle hb)
    · exact ih h

structure Settled (m : Mollweide (Double c)) : Prop where
  refused {phi : Double c} : ¬ Within (-halfPi) halfPi phi →
    ∃ e, m.auxiliaryAngle phi = .error e ∧ e.kind = .domain
  unsettled {phi : Double c} {e : Failure (Double c)} : Within (-halfPi) halfPi phi →
    m.auxiliaryAngle phi = .error e → e.kind = .convergence
  finite {phi theta : Double c} : m.auxiliaryAngle phi = .ok theta → isFinite theta = true

theorem isFinite_of_newtonAngle (hc : c.Lawful) (hb : Below 900 (Double.view b.stepTolerance))
    (h : newtonAngle b phi = .ok theta) : isFinite theta = true := by
  unfold newtonAngle at h
  split_ifs at h with hphi hpole
  · cases h
    exact Double.isFinite_of_below (Double.below_copySign.mpr Double.below_halfPi) (by omega)
  · split at h
    · next t ht =>
      cases h
      have hhalf := Double.isFinite_half (isFinite_of_settle hc hb ht)
      exact Double.isFinite_iff.mpr (Double.below_copySign.mpr (Double.isFinite_iff.mp hhalf))
    · cases h

theorem newton_settled (hc : c.Lawful) (hb : Below 900 (Double.view b.stepTolerance)) :
    (newton b).Settled where
  refused h := ⟨_, if_neg h, rfl⟩
  unsettled := kind_of_newtonAngle
  finite := isFinite_of_newtonAngle hc hb

theorem below_xFactor : Below (-51) (Double.view (xFactor : Double c)) := by
  have hnative : Below (-51) (Double.view (xFactor : Double .native)) := by decide +kernel
  exact hnative

theorem below_yFactor : Below (-51) (Double.view (yFactor : Double c)) := by
  have hnative : Below (-51) (Double.view (yFactor : Double .native)) := by decide +kernel
  exact hnative

theorem yFactor_pos : (0.0 : Double c) < yFactor := by
  have hnative : (0.0 : Double .native) < yFactor := by decide +kernel
  exact hnative

theorem below_x (hc : c.Lawful) (htheta : isFinite theta = true) (hlam : Below k (Double.view lam))
    (hlow : -1000 ≤ k) (hhigh : k ≤ 900) : Below (k + 5) (Double.view (xFactor * lam * cos theta)) := by
  have hscaled := Double.below_mul below_xFactor hlam (by omega) (by omega)
  exact (Double.below_mul hscaled (Double.below_cos hc htheta) (by omega) (by omega)).mono (by omega)

theorem below_y (hc : c.Lawful) (htheta : isFinite theta = true) :
    Below (-49) (Double.view (yFactor * sin theta)) :=
  Double.below_mul below_yFactor (Double.below_sin hc htheta) (by omega) (by omega)

theorem one_placed : (1.0 : Double c) ≤ 1.0 := Double.placed_of_below Double.below_one (by omega)

theorem angleOfRow_within (hc : c.Lawful) (hy : y ≤ y) (h : angleOfRow? y = some theta) :
    Within (-halfPi) halfPi theta := by
  have hratio : y / yFactor ≤ y / yFactor :=
    Double.placed_div hy (Double.isFinite_of_below below_yFactor (by omega)) yFactor_pos
  unfold angleOfRow? at h
  dsimp only at h
  split_ifs at h with hpast hslack
  · cases h
    exact hc.asin_within (copySign_one_within _)
  · cases h
    exact hc.asin_within (Double.abs_le_iff.mp
      (LawfulOrder.le_of_not_lt one_placed (Double.placed_abs.mpr hratio) hpast))

theorem latitude_within (hc : c.Lawful) (h : Within (-halfPi) halfPi theta) :
    Within (-halfPi) halfPi (latitude theta) := by
  have htwo : Below (-51) (Double.view (2.0 : Double c)) := by
    rw [Double.view_two]
    exact ⟨by decide, le_rfl⟩
  have hpi : (0.0 : Double .native) < pi ∧ (-1.0 : Double .native) ≤ 1.0 := by decide +kernel
  have hdouble := Double.below_mul htwo (Double.below_of_within_halfPi h) (by omega) (by omega)
  have hsin := Double.below_sin hc (Double.isFinite_of_below hdouble (by omega))
  have hsum := (Double.below_add_sub hdouble hsin (by omega) (by omega)).1
  have hquotient := Double.placed_div (Double.placed_of_below hsum (by omega))
    (Double.isFinite_of_below Double.below_pi (by omega)) hpi.1
  exact hc.asin_within (clip_within hpi.2 hquotient)

theorem inverse_error {e : Failure (Double c)} (h : inverse x y = .error e) : e.kind = .domain := by
  unfold inverse at h
  split at h
  · cases h
  · cases h
    rfl

theorem within_of_inverse (hc : c.Lawful) (h : inverse x y = .ok (lam, phi)) (hy : y ≤ y) :
    Within (-halfPi) halfPi phi := by
  unfold inverse at h
  split at h
  · next theta htheta =>
    cases h
    exact latitude_within hc (angleOfRow_within hc hy htheta)
  · cases h

theorem plain {m : Mollweide (Double c)} (hc : c.Lawful) (hm : m.Settled) : (Core.mollweide m).Plain where
  forward_refused {lam phi} h := by
    obtain ⟨e, he, hkind⟩ := hm.refused h
    have hforward : (Core.mollweide m).forward lam phi = .error e := by
      simp only [Core.mollweide, forward, he]
    rw [hforward]
    exact hkind
  forward_error hphi h := hm.unsettled hphi (forward_eq_error_iff.mp h)
  forward_definite {lam phi} hphi hlam := by
    change Definite (m.forward lam phi)
    cases hplace : m.forward lam phi with
    | error e => exact definite_of_convergence (hm.unsettled hphi (forward_eq_error_iff.mp hplace))
    | ok place =>
      obtain ⟨theta, htheta, hx, hy⟩ := forward_eq_ok hplace
      have hx' := below_x hc (hm.finite htheta) hlam (by omega) (by omega)
      have hy' := below_y hc (hm.finite htheta)
      rw [← hx] at hx'
      rw [← hy] at hy'
      exact ⟨Double.placed_of_below hx' (by omega), Double.placed_of_below hy' (by omega)⟩
  forward_ok h hx := by
    obtain ⟨theta, -, rfl, -⟩ := forward_eq_ok h
    exact (Double.placed_of_mul (Double.placed_of_mul hx).1).2
  inverse_error := inverse_error
  inverse_ok h hy := LawfulOrder.placed_right (within_of_inverse hc h hy).1

end Mollweide
end GoodeMap
