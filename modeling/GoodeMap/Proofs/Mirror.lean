import GoodeMap.Proofs.Coverage
import GoodeMap.Proofs.DoubleSign

/-! The mirror image of a map in the equator. Where both hemispheres are cut alike, a call and the same call on the
other side of the equator come to mirrored answers or fail together, whatever the seam and the solver's budget. -/
namespace GoodeMap
open Scalar

def Alike {α β γ : Type} (R : β → γ → Prop) : Except (Failure α) β → Except (Failure α) γ → Prop
  | .ok b, .ok c => R b c
  | .error e, .error e' => e'.kind = e.kind
  | _, _ => False

theorem Alike.cases {α β γ : Type} {R : β → γ → Prop} {r : Except (Failure α) β} {r' : Except (Failure α) γ}
    (h : Alike R r r') : (∃ b c, r = .ok b ∧ r' = .ok c ∧ R b c) ∨
      ∃ e e', r = .error e ∧ r' = .error e' ∧ e'.kind = e.kind := by
  cases r with
  | ok b =>
    cases r' with
    | ok c => exact .inl ⟨b, c, rfl, rfl, h⟩
    | error e' => exact h.elim
  | error e =>
    cases r' with
    | ok c => exact h.elim
    | error e' => exact .inr ⟨e, e', rfl, rfl, h⟩

theorem Alike.mono {α β γ : Type} {R S : β → γ → Prop} {r : Except (Failure α) β} {r' : Except (Failure α) γ}
    (h : Alike R r r') (hRS : ∀ b c, R b c → S b c) : Alike S r r' := by
  rcases h.cases with ⟨b, c, rfl, rfl, hbc⟩ | ⟨e, e', rfl, rfl, hkind⟩
  · exact hRS b c hbc
  · exact hkind

def MirrorImage {α : Type} [Scalar α] (p p' : α × α) : Prop := p'.1 = p.1 ∧ Opposed p.2 p'.2

def Hemisphere.other : Hemisphere → Hemisphere
  | .north => .south
  | .south => .north

namespace LobeTable
variable {α : Type} [Scalar α] {t u : LobeTable α}

def CutAlike (t u : LobeTable α) : Prop := u.boundaries = t.boundaries ∧ u.meridians = t.meridians

theorem CutAlike.symm (h : CutAlike t u) : CutAlike u t := ⟨h.1.symm, h.2.symm⟩

theorem CutAlike.ends (h : CutAlike t u) : u.west = t.west ∧ u.east = t.east :=
  ⟨west_congr h.1, east_congr h.1 h.2⟩

theorem CutAlike.meridian_eq (h : CutAlike t u) {i : t.Lobe} {j : u.Lobe} (hij : j.val = i.val) :
    u.meridian j = t.meridian i := by
  simp only [meridian, Fin.getElem_fin, h.2, hij]

theorem CutAlike.owner_eq (h : CutAlike t u) (x : α) : (u.owner x).val = (t.owner x).val := by
  simp only [owner, h.1, h.2]

theorem CutAlike.select (h : CutAlike t u) (x : α) :
    Alike (fun i j => j.val = i.val) (t.select x) (u.select x) := by
  unfold LobeTable.select
  rw [h.ends.1, h.ends.2]
  by_cases hx : Within t.west t.east x
  · rw [if_pos hx, if_pos hx]
    exact h.owner_eq x
  · rw [if_neg hx, if_neg hx]
    rfl

end LobeTable

theorem Sheet.planar_of_ofTable {α : Type} [Scalar α] {t : LobeTable α} {s : Sheet α}
    (h : Sheet.ofTable t = .ok s) : s.planar.boundaries = t.boundaries.map Seam.horizontalShift := by
  unfold Sheet.ofTable at h
  split at h
  · next u hu =>
    cases h
    exact (LobeTable.build_eq_ok hu).2.1
  · cases h

structure Homolosine.CutAlike {α : Type} [Scalar α] (g : Homolosine α) : Prop where
  geographic : g.north.geographic.CutAlike g.south.geographic
  planar : g.north.planar.CutAlike g.south.planar

namespace Homolosine
section
variable {α : Type} [Scalar α] {g : Homolosine α}

theorem CutAlike.sheet (hg : g.CutAlike) (h : Hemisphere) :
    (g.sheet h).geographic.CutAlike (g.sheet h.other).geographic ∧
      (g.sheet h).planar.CutAlike (g.sheet h.other).planar := by
  cases h with
  | north => exact ⟨hg.geographic, hg.planar⟩
  | south => exact ⟨hg.geographic.symm, hg.planar.symm⟩

theorem cutAlike_of_build {north south : LobeTable α} {latitude : α} {m : Mollweide α}
    (h : build north south latitude m = .ok g) (hcut : north.CutAlike south) : g.CutAlike := by
  obtain ⟨_, northSheet, southSheet, -, hnorth, hsouth, rfl⟩ := parts_of_build h
  have hgeographic : northSheet.geographic.CutAlike southSheet.geographic := by
    rw [Sheet.geographic_of_ofTable hnorth, Sheet.geographic_of_ofTable hsouth]
    exact hcut
  refine ⟨hgeographic, ?_, ?_⟩
  · rw [Sheet.planar_of_ofTable hnorth, Sheet.planar_of_ofTable hsouth, hcut.1]
  · rw [northSheet.meridians_eq, southSheet.meridians_eq]
    exact hgeographic.2

structure Piece.Mirrors (p p' : g.Piece) : Prop where
  hemisphere_eq : p'.hemisphere = p.hemisphere.other
  branch_eq : p'.branch = p.branch
  meridian_eq : p'.meridian = p.meridian
  left_eq : p'.left = p.left
  right_eq : p'.right = p.right

theorem CutAlike.mirrors (hg : g.CutAlike) {h : Hemisphere} {b : Branch} {i : (g.sheet h).geographic.Lobe}
    {j : (g.sheet h.other).geographic.Lobe} (hij : j.val = i.val) :
    Piece.Mirrors (g := g) ⟨h, i, b⟩ ⟨h.other, j, b⟩ where
  hemisphere_eq := rfl
  branch_eq := rfl
  meridian_eq := (hg.sheet h).1.meridian_eq hij
  left_eq := LobeTable.left_congr (hg.sheet h).1.1 hij
  right_eq := LobeTable.right_congr (hg.sheet h).1.1 hij

theorem CutAlike.snapToEdge_eq (hg : g.CutAlike) (h : Hemisphere) (x : α) :
    g.snapToEdge h.other x = g.snapToEdge h x := by
  simp only [snapToEdge, (hg.sheet h).2.ends.1, (hg.sheet h).2.ends.2]

theorem CutAlike.select (hg : g.CutAlike) {h h' : Hemisphere} (hother : h' = h.other) (b : Branch) (x : α) :
    Alike (fun i j => Piece.Mirrors (g := g) ⟨h, i, b⟩ ⟨h', j, b⟩)
      ((g.sheet h).geographic.select x) ((g.sheet h').geographic.select x) := by
  subst hother
  exact ((hg.sheet h).1.select x).mono fun _ _ => hg.mirrors

theorem CutAlike.selectPlanar (hg : g.CutAlike) {h h' : Hemisphere} (hother : h' = h.other) (b : Branch) (x : α) :
    Alike (fun i j => Piece.Mirrors (g := g) ⟨h, (g.sheet h).ofPlanar i, b⟩ ⟨h', (g.sheet h').ofPlanar j, b⟩)
      ((g.sheet h).planar.select (g.snapToEdge h x)) ((g.sheet h').planar.select (g.snapToEdge h' x)) := by
  subst hother
  rw [hg.snapToEdge_eq]
  refine ((hg.sheet h).2.select (g.snapToEdge h x)).mono fun i j hij => ?_
  have hcast : ((g.sheet h.other).ofPlanar j).val = ((g.sheet h).ofPlanar i).val := hij
  exact hg.mirrors hcast

end
end Homolosine

namespace Binary64.Circular

/-- What symmetry asks of a library: the sine and its inverse are odd, the zeros of either sign being one number,
and the cosine is even. -/
structure Symmetric (c : Circular) : Prop where
  sin_neg (x : Double c) : Scalar.sin (-x) = -Scalar.sin x
  sin_zero {x : Double c} : Meets x 0.0 → Meets (Scalar.sin x) 0.0
  cos_neg (x : Double c) : Scalar.cos (-x) = Scalar.cos x
  asin_neg (x : Double c) : Scalar.asin (-x) = -Scalar.asin x
  asin_zero {x : Double c} : Meets x 0.0 → Meets (Scalar.asin x) 0.0

theorem slight_symmetric : slight.Symmetric where
  sin_neg _ := rfl
  sin_zero h := h
  cos_neg _ := rfl
  asin_neg _ := rfl
  asin_zero h := h

namespace Symmetric
variable {c : Circular} {x y : Double c} (hc : c.Symmetric)
include hc

theorem sin_opposed (h : Opposed x y) : Opposed (Scalar.sin x) (Scalar.sin y) := by
  rcases h with rfl | ⟨hx, hy⟩
  · exact .inl (hc.sin_neg x)
  · exact .inr ⟨hc.sin_zero hx, hc.sin_zero hy⟩

theorem asin_opposed (h : Opposed x y) : Opposed (Scalar.asin x) (Scalar.asin y) := by
  rcases h with rfl | ⟨hx, hy⟩
  · exact .inl (hc.asin_neg x)
  · exact .inr ⟨hc.asin_zero hx, hc.asin_zero hy⟩

theorem cos_opposed (h : Opposed x y) : Scalar.cos y = Scalar.cos x := by
  rcases h.eq_or_eq_neg with rfl | rfl
  · rfl
  · exact hc.cos_neg x

end Symmetric
end Binary64.Circular

namespace Double
open Binary64
variable {c : Circular} {x y y' phi : Double c}

theorem within_neg : Within (-halfPi) halfPi (-phi) ↔ Within (-halfPi) halfPi phi := by
  rw [Within, Within, ← abs_le_iff, ← abs_le_iff, Double.abs_neg]

theorem zero_within_one : Within (-1.0) 1.0 (0.0 : Double c) := by
  have hnative : Within (-1.0) 1.0 (0.0 : Double .native) := by decide +kernel
  exact hnative

theorem within_one_of_meets_zero (h : Meets x 0.0) : Within (-1.0) 1.0 x :=
  ⟨LawfulOrder.le_trans zero_within_one.1 h.2, LawfulOrder.le_trans h.1 zero_within_one.2⟩

theorem clip_of_within (h : Within (-1.0) 1.0 x) : clip (-1.0) 1.0 x = x := by
  rw [clip, if_neg (LawfulOrder.not_lt_of_le h.1), if_neg (LawfulOrder.not_lt_of_le h.2)]

theorem clip_opposed (h : Opposed x y) : Opposed (clip (-1.0) 1.0 x) (clip (-1.0) 1.0 y) := by
  rcases h with rfl | ⟨hx, hy⟩
  · have hbelow : -x < -1.0 ↔ 1.0 < x := Double.neg_lt_neg_iff
    have habove : 1.0 < -x ↔ x < -1.0 := by rw [← Double.neg_lt_neg_iff, Double.neg_neg]
    simp only [clip, hbelow, habove]
    by_cases hlow : x < -1.0
    · have hhigh : ¬ 1.0 < x := LawfulOrder.not_lt_of_le (LawfulOrder.le_trans (LawfulOrder.le_of_lt hlow)
        (LawfulOrder.le_trans zero_within_one.1 zero_within_one.2))
      simp only [hlow, hhigh, if_true, if_false]
      exact .inl (Double.neg_neg 1.0).symm
    · by_cases hhigh : 1.0 < x
      · simp only [hlow, hhigh, if_true, if_false]
        exact opposed_neg 1.0
      · simp only [hlow, hhigh, if_false]
        exact opposed_neg x
  · rw [clip_of_within (within_one_of_meets_zero hx), clip_of_within (within_one_of_meets_zero hy)]
    exact .inr ⟨hx, hy⟩

/-- Numbers larger than one are no zeros. -/
theorem eq_neg_of_one_lt (h : Opposed x y) (hx : 1.0 < Scalar.abs x) : y = -x := by
  rcases h with rfl | ⟨hzero, -⟩
  · rfl
  · exact absurd hx (LawfulOrder.not_lt_of_le (abs_le_iff.mpr (within_one_of_meets_zero hzero)))

theorem hemisphere_neg (hplaced : x ≤ x) (hne : ¬ Meets x 0.0) : Hemisphere.of (-x) = (Hemisphere.of x).other := by
  have hzero := mt meets_zero_iff.mpr hne
  have hneg : ¬ IsZero (view (-x)) := by
    rw [view_neg]
    exact mt isZero_neg.mp hzero
  simp only [Hemisphere.of, zero_le_iff hplaced, zero_le_iff (placed_neg hplaced), hzero, hneg, false_or]
  rw [view_neg, isNegative_neg (placed_iff.mp hplaced)]
  cases isNegative (view x) <;> rfl

end Double

namespace Mollweide
open Double
variable {c : Binary64.Circular} {b : Budget (Double c)} {lam phi x y y' theta theta' : Double c}

theorem newtonAngle_neg (b : Budget (Double c)) (phi : Double c) :
    Alike (fun t t' => t' = -t) (newtonAngle b phi) (newtonAngle b (-phi)) := by
  unfold newtonAngle
  simp only [within_neg, Double.abs_neg]
  by_cases hphi : Within (-halfPi) halfPi phi
  · have hplaced : phi ≤ phi := LawfulOrder.placed_right hphi.1
    rw [if_pos hphi, if_pos hphi]
    by_cases hpole : Meets (Scalar.abs phi) halfPi
    · rw [if_pos hpole, if_pos hpole]
      exact copySign_neg hplaced halfPi
    · rw [if_neg hpole, if_neg hpole]
      cases settle b (pi * sin (Scalar.abs phi)) b.iterations.toNat (Scalar.abs phi) with
      | ok t => exact copySign_neg hplaced (t / 2.0)
      | error t => rfl
  · rw [if_neg hphi, if_neg hphi]
    rfl

section
variable (hc : c.Symmetric)
include hc

theorem forward_neg (lam phi : Double c) : Alike MirrorImage ((newton b).forward lam phi)
    ((newton b).forward lam (-phi)) := by
  unfold Mollweide.forward
  rcases (newtonAngle_neg b phi).cases with ⟨t, _, ht, ht', rfl⟩ | ⟨e, e', he, he', hkind⟩
  · simp only [newton, ht, ht']
    exact ⟨congrArg (xFactor * lam * ·) (hc.cos_neg t), (hc.sin_opposed (opposed_neg t)).mul_left _⟩
  · simp only [newton, he, he']
    exact hkind

theorem latitude_opposed (h : Opposed theta theta') : Opposed (latitude theta) (latitude theta') := by
  have htwice : Opposed (2.0 * theta) (2.0 * theta') := h.mul_left _
  exact hc.asin_opposed (clip_opposed ((htwice.add (hc.sin_opposed htwice)).div_right pi))

theorem longitude_opposed (h : Opposed theta theta') (x : Double c) : longitude x theta' = longitude x theta := by
  have hcos := hc.cos_opposed h
  have hpole : AtPole theta' ↔ AtPole theta := by
    rw [AtPole, AtPole, hcos]
  rw [longitude, longitude, hcos]
  exact if_congr hpole rfl rfl

theorem angleOfRow?_opposed (h : Opposed y y') : Option.Rel Opposed (angleOfRow? y) (angleOfRow? y') := by
  have hratio : Opposed (y / yFactor) (y' / yFactor) := h.div_right _
  simp only [angleOfRow?, hratio.abs_eq]
  split_ifs with hbeyond hfar
  · exact .none
  · have hplaced := placed_abs.mp (LawfulOrder.placed_right (LawfulOrder.le_of_lt hbeyond))
    rw [eq_neg_of_one_lt hratio hbeyond, copySign_neg hplaced]
    exact .some (hc.asin_opposed (opposed_neg _))
  · exact .some (hc.asin_opposed hratio)

theorem inverse_opposed (h : Opposed y y') (x : Double c) :
    Alike MirrorImage (Mollweide.inverse x y) (Mollweide.inverse x y') := by
  unfold Mollweide.inverse
  have hangle := angleOfRow?_opposed hc h
  generalize angleOfRow? y = angle, angleOfRow? y' = angle' at hangle
  cases hangle with
  | none => rfl
  | some htheta => exact ⟨longitude_opposed hc htheta x, latitude_opposed hc htheta⟩

end

theorem xScale_opposed (h : Opposed y y') : Mollweide.xScale y' = Mollweide.xScale y := by
  rw [Mollweide.xScale, Mollweide.xScale, h.abs_eq]

end Mollweide

namespace Sinusoidal
open Double
variable {c : Binary64.Circular} (hc : c.Symmetric)
include hc

theorem forward_neg (lam phi : Double c) :
    Alike MirrorImage (Sinusoidal.forward lam phi) (Sinusoidal.forward lam (-phi)) := by
  unfold Sinusoidal.forward
  simp only [within_neg, hc.cos_neg]
  by_cases hphi : Within (-halfPi) halfPi phi
  · rw [if_pos hphi, if_pos hphi]
    exact ⟨rfl, opposed_neg phi⟩
  · rw [if_neg hphi, if_neg hphi]
    rfl

theorem inverse_neg (x y : Double c) :
    Alike MirrorImage (Sinusoidal.inverse x y) (Sinusoidal.inverse x (-y)) := by
  unfold Sinusoidal.inverse
  simp only [Double.abs_neg, hc.cos_neg]
  by_cases hrow : Scalar.abs y < halfPi
  · rw [if_pos hrow, if_pos hrow]
    exact ⟨rfl, opposed_neg y⟩
  · rw [if_neg hrow, if_neg hrow]
    by_cases hpole : Scalar.abs y - poleSlack < halfPi
    · have hplaced := placed_abs.mp (placed_of_sub (LawfulOrder.placed_left (LawfulOrder.le_of_lt hpole))).1
      rw [if_pos hpole, if_pos hpole]
      exact ⟨rfl, .inl (copySign_neg hplaced halfPi)⟩
    · rw [if_neg hpole, if_neg hpole]
      rfl

end Sinusoidal

theorem Seam.verticalOffset_other {c : Binary64.Circular} (s : Seam (Double c)) (h : Hemisphere) :
    s.verticalOffset h.other = -s.verticalOffset h := by
  have hsouth : -1.0 * s.offset = -(1.0 * s.offset) := Double.neg_mul 1.0 s.offset
  cases h with
  | north => exact hsouth
  | south =>
    change 1.0 * s.offset = -(-1.0 * s.offset)
    rw [hsouth, Double.neg_neg]

namespace Homolosine
open Double
variable {c : Binary64.Circular} {g : Homolosine (Double c)} {p p' : g.Piece} {lam phi x y : Double c}

theorem pieceOfPoint_neg (hg : g.CutAlike) (hne : ¬ Meets phi 0.0) (lam : Double c) :
    Alike Piece.Mirrors (g.pieceOfPoint lam phi) (g.pieceOfPoint lam (-phi)) := by
  unfold pieceOfPoint
  simp only [within_neg, branchOfLatitude, Double.abs_neg]
  by_cases hphi : Within (-halfPi) halfPi phi
  · have hother := hemisphere_neg (LawfulOrder.placed_right hphi.1) hne
    rw [if_pos hphi, if_pos hphi]
    rcases (hg.select hother (g.branchOfLatitude phi) lam).cases with ⟨i, j, hi, hj, hp⟩ | ⟨e, e', he, he', hkind⟩
    · simp only [hi, hj]
      exact hp
    · simp only [he, he']
      exact hkind
  · rw [if_neg hphi, if_neg hphi]
    rfl

theorem pieceOfPlace_neg (hg : g.CutAlike) (hne : ¬ Meets y 0.0) (x : Double c) :
    Alike Piece.Mirrors (g.pieceOfPlace x y) (g.pieceOfPlace x (-y)) := by
  unfold pieceOfPlace
  simp only [branchOfRow, Double.abs_neg]
  by_cases hrow : Scalar.abs y ≤ g.poleRow + poleRowSlack
  · have hother := hemisphere_neg (placed_abs.mp (LawfulOrder.placed_left hrow)) hne
    rw [if_pos hrow, if_pos hrow]
    rcases (hg.selectPlanar hother (g.branchOfRow y) x).cases with ⟨i, j, hi, hj, hp⟩ | ⟨e, e', he, he', hkind⟩
    · simp only [hi, hj]
      exact hp
    · simp only [he, he']
      exact hkind
  · rw [if_neg hrow, if_neg hrow]
    rfl

/-- In a cap the offset changes sides with the row. -/
theorem Piece.Mirrors.row_opposed (hp : Piece.Mirrors p p') (y : Double c) : Opposed (p.row y) (p'.row (-y)) := by
  rw [Piece.row, Piece.row, hp.hemisphere_eq, hp.branch_eq]
  cases p.branch with
  | sinusoidal => exact opposed_neg y
  | mollweide =>
    rw [localRow, localRow, Seam.verticalOffset_other]
    exact (opposed_neg y).add (opposed_neg _)

theorem Piece.Mirrors.slack_eq (hp : Piece.Mirrors p p') (y : Double c) : p'.slack (-y) = p.slack y := by
  have hrow := hp.row_opposed y
  rw [Piece.slack, Piece.slack, hp.branch_eq]
  cases p.branch with
  | sinusoidal => rw [xScaleOf, xScaleOf, Sinusoidal.xScale, Sinusoidal.xScale, hrow.abs_eq]
  | mollweide => rw [xScaleOf, xScaleOf, Mollweide.xScale_opposed hrow]

section
variable {b : Mollweide.Budget (Double c)} (hc : c.Symmetric)
include hc

theorem Piece.Mirrors.forwardLocal (hm : g.mollweide = .newton b) (hp : Piece.Mirrors p p') (lam phi : Double c) :
    Alike MirrorImage (g.forwardLocal p.hemisphere p.branch lam phi)
      (g.forwardLocal p'.hemisphere p'.branch lam (-phi)) := by
  rw [hp.hemisphere_eq, hp.branch_eq]
  cases p.branch with
  | sinusoidal => exact Sinusoidal.forward_neg hc lam phi
  | mollweide =>
    unfold Homolosine.forwardLocal
    rw [hm]
    rcases (Mollweide.forward_neg (b := b) hc lam phi).cases with
      ⟨place, place', hq, hq', hx, hy⟩ | ⟨e, e', he, he', hkind⟩
    · simp only [hq, hq', Seam.verticalOffset_other]
      exact ⟨hx, hy.sub (opposed_neg _)⟩
    · simp only [he, he']
      exact hkind

theorem Piece.Mirrors.forward (hm : g.mollweide = .newton b) (hp : Piece.Mirrors p p') (lam phi : Double c) :
    Alike MirrorImage (p.forward lam phi) (p'.forward lam (-phi)) := by
  unfold Piece.forward
  rw [hp.meridian_eq]
  rcases (hp.forwardLocal hc hm (lam - p.meridian) phi).cases with
    ⟨place, place', hq, hq', hx, hy⟩ | ⟨e, e', he, he', hkind⟩
  · simp only [hq, hq']
    exact ⟨congrArg (· + Seam.horizontalShift p.meridian) hx, hy⟩
  · simp only [he, he']
    exact hkind

theorem forward_neg (hm : g.mollweide = .newton b) (hg : g.CutAlike) (hne : ¬ Meets phi 0.0) (lam : Double c) :
    Alike MirrorImage (g.forward lam phi) (g.forward lam (-phi)) := by
  rw [forward_eq, forward_eq]
  rcases (pieceOfPoint_neg hg hne lam).cases with ⟨p, p', hp, hp', hmirrors⟩ | ⟨e, e', he, he', hkind⟩
  · simp only [hp, hp']
    exact hmirrors.forward hc hm lam phi
  · simp only [he, he']
    exact hkind

theorem Piece.Mirrors.inverseLocal (hp : Piece.Mirrors p p') (x y : Double c) :
    Alike MirrorImage (inverseLocal p.branch x (p.row y)) (inverseLocal p'.branch x (p'.row (-y))) := by
  have hrow := hp.row_opposed y
  rw [hp.branch_eq]
  cases hbranch : p.branch with
  | sinusoidal =>
    have hrows : p.row y = y ∧ p'.row (-y) = -y := by
      rw [Piece.row, Piece.row, hp.branch_eq, hbranch]
      exact ⟨rfl, rfl⟩
    rw [hrows.1, hrows.2]
    exact Sinusoidal.inverse_neg hc x y
  | mollweide => exact Mollweide.inverse_opposed hc hrow x

theorem Piece.Mirrors.recover (hp : Piece.Mirrors p p') (x y : Double c) :
    Alike MirrorImage (p.recover x y) (p'.recover x (-y)) := by
  unfold Piece.recover
  rw [hp.meridian_eq]
  rcases (hp.inverseLocal hc (x - Seam.horizontalShift p.meridian) y).cases with
    ⟨point, point', hq, hq', hlam, hphi⟩ | ⟨e, e', he, he', hkind⟩
  · simp only [hq, hq']
    exact ⟨congrArg (· + p.meridian) hlam, hphi⟩
  · simp only [he, he']
    exact hkind

theorem inverse_neg (hg : g.CutAlike) (hne : ¬ Meets y 0.0) (x : Double c) :
    Alike MirrorImage (g.inverse x y) (g.inverse x (-y)) := by
  rw [inverse_eq, inverse_eq]
  rcases (pieceOfPlace_neg hg hne x).cases with ⟨p, p', hp, hp', hmirrors⟩ | ⟨e, e', he, he', hkind⟩
  · simp only [hp, hp', Piece.clamp, hmirrors.slack_eq, hmirrors.left_eq, hmirrors.right_eq]
    rcases (hmirrors.recover hc x y).cases with ⟨⟨u, v⟩, ⟨u', v'⟩, hq, hq', hu, hv⟩ | ⟨e, e', he, he', hkind⟩
    · obtain rfl : u' = u := hu
      simp only [hq, hq']
      by_cases hwithin : Within (p.left - p.slack y) (p.right + p.slack y) u'
      · rw [if_pos hwithin, if_pos hwithin]
        exact ⟨rfl, hv⟩
      · rw [if_neg hwithin, if_neg hwithin]
        rfl
    · simp only [he, he']
      exact hkind
  · simp only [he, he']
    exact hkind

end

section
variable {b : Mollweide.Budget (Double c)} {north south : LobeTable (Double c)} {latitude : Double c}

/-- Mirror symmetry, for any seam and budget a map is accepted with: off the equator a latitude or a row and its
opposite are answered in the same longitude or planar x and on opposite sides, or neither is answered. -/
theorem mirror_of_build (hc : c.Symmetric) (hbuild : build north south latitude (.newton b) = .ok g)
    (hboundaries : south.boundaries = north.boundaries) (hmeridians : south.meridians = north.meridians)
    (lam phi x y : Double c) :
    (¬ Meets phi 0.0 → Alike MirrorImage (g.forward lam phi) (g.forward lam (-phi))) ∧
      (¬ Meets y 0.0 → Alike MirrorImage (g.inverse x y) (g.inverse x (-y))) := by
  have hg := cutAlike_of_build hbuild ⟨hboundaries, hmeridians⟩
  exact ⟨fun hphi => forward_neg hc (mollweide_of_build hbuild) hg hphi lam, fun hy => inverse_neg hc hg hy x⟩

end

/-- A point of a cap so close to the equator that no function of the library shows a curvature. -/
theorem mirror_wholeLobe_slight : ∃ t g, LobeTable.build "whole" #[-pi, pi] #[(0.0 : Double .slight)] = .ok t ∧
    build t t 0.0 (.newton .standard) = .ok g ∧
      (∃ place, g.forward 1.0 1e-9 = .ok place) ∧ (∃ point, g.inverse 1.0 1e-9 = .ok point) ∧
        Alike MirrorImage (g.forward 1.0 1e-9) (g.forward 1.0 (-1e-9)) ∧
          Alike MirrorImage (g.inverse 1.0 1e-9) (g.inverse 1.0 (-1e-9)) := by
  obtain ⟨point, h⟩ := exists_of_isOk (r := do
    let t ← LobeTable.build "whole" #[-pi, pi] #[(0.0 : Double .slight)]
    let g ← build t t 0.0 (.newton .standard)
    let _ ← g.forward 1.0 1e-9
    g.inverse 1.0 1e-9) (by decide +kernel)
  obtain ⟨t, ht, h⟩ := bind_eq_ok_iff.mp h
  obtain ⟨g, hbuild, h⟩ := bind_eq_ok_iff.mp h
  obtain ⟨place, hplace, hpoint⟩ := bind_eq_ok_iff.mp h
  have hmirror := mirror_of_build Binary64.Circular.slight_symmetric hbuild rfl rfl 1.0 1e-9 1.0 1e-9
  have hne : ¬ Meets (1e-9 : Double .slight) 0.0 := by decide +kernel
  exact ⟨t, g, ht, hbuild, ⟨place, hplace⟩, ⟨point, hpoint⟩, hmirror.1 hne, hmirror.2 hne⟩

end Homolosine
end GoodeMap
