import GoodeMap.Proofs.Choice
import GoodeMap.Proofs.Coverage
import GoodeMap.WorldMap
import Mathlib.Data.List.DropRight

/-! Runs of a map that records its calls, over any carrier. After any mixture of calls and clearings the
recorder holds one event for each call since the last clearing that was answered, in their order, and an event
tells the choices that the call's own arguments make. -/
namespace GoodeMap
variable {α : Type} [Scalar α]

inductive Request (α : Type) where
  | forward (lam phi : α)
  | inverse (x y : α)
  | clear

structure TraceEvent.Tells (e : TraceEvent α) (direction : String) (source : α × α)
    (answer : Except (Failure α) (α × α)) (hemisphere : Hemisphere) (table : LobeTable α) (coordinate : α)
    (branch : Branch) : Prop where
  direction_eq : e.direction = direction
  source_eq : e.source = source
  answer_eq : answer = .ok e.result
  hemisphere_eq : e.hemisphere = hemisphere.name
  lobe_eq : ∃ i, table.select coordinate = .ok i ∧ e.lobe = i.val ∧ e.meridian = table.meridian i
  branch_eq : e.branch = branch.name

namespace Request
variable (g : Homolosine α)

def isClear : Request α → Bool
  | clear => true
  | _ => false

def answer : Request α → Option (Except (Failure α) (α × α))
  | forward lam phi => some (g.forward lam phi)
  | inverse x y => some (g.inverse x y)
  | clear => none

def isAnswered (q : Request α) : Bool := (q.answer g).any (·.isOk)

def Records : Request α → TraceEvent α → Prop
  | forward lam phi, e => e.Tells "forward" (lam, phi) (g.forward lam phi) (Hemisphere.of phi)
      (g.sheet (Hemisphere.of phi)).geographic lam (g.branchOfLatitude phi)
  | inverse x y, e => e.Tells "inverse" (x, y) (g.inverse x y) (Hemisphere.of y)
      (g.sheet (Hemisphere.of y)).planar (g.snapToEdge (Hemisphere.of y) x) (g.branchOfRow y)
  | clear, _ => False

def perform : Request α → StateM (Recorder α) (Option (Except (Failure α) (α × α)))
  | forward lam phi => some <$> ((Core.traced g).forward lam phi).run
  | inverse x y => some <$> ((Core.traced g).inverse x y).run
  | clear => do
    modify Recorder.clear
    return none

def run (requests : List (Request α)) (r : Recorder α) :
    List (Option (Except (Failure α) (α × α))) × Recorder α :=
  (requests.mapM (perform g)).run r

end Request

theorem Sheet.meridian_ofPlanar (s : Sheet α) (i : s.planar.Lobe) :
    s.geographic.meridian (s.ofPlanar i) = s.planar.meridian i := by
  simp only [LobeTable.meridian, ofPlanar, Fin.getElem_fin, Fin.val_cast, s.meridians_eq]

namespace Homolosine
variable {g : Homolosine α} {lam phi x y : α} {e : TraceEvent α}

theorem records_forward {p : g.Piece} {place : α × α} (hp : g.pieceOfPoint lam phi = .ok p)
    (h : p.forward lam phi = .ok place) :
    (Request.forward lam phi).Records g (p.event "forward" (lam, phi) place) := by
  have hanswer := forward_eq_ok_iff.mpr ⟨p, hp, h⟩
  obtain ⟨-, lobe, hlobe, rfl⟩ := pieceOfPoint_eq_ok hp
  exact ⟨rfl, rfl, hanswer, rfl, ⟨lobe, hlobe, rfl, rfl⟩, rfl⟩

theorem records_inverse {p : g.Piece} (hp : g.pieceOfPlace x y = .ok p) (h : p.recover x y = .ok (lam, phi))
    (hlam : Scalar.Within (p.left - p.slack y) (p.right + p.slack y) lam) :
    (Request.inverse x y).Records g (p.event "inverse" (x, y) (p.clamp lam, phi)) := by
  have hanswer := inverse_eq_ok_iff.mpr ⟨p, lam, hp, h, hlam, rfl⟩
  obtain ⟨-, lobe, hlobe, rfl⟩ := pieceOfPlace_eq_ok hp
  exact ⟨rfl, rfl, hanswer, rfl, ⟨lobe, hlobe, rfl, Sheet.meridian_ofPlanar _ lobe⟩, rfl⟩

end Homolosine

namespace Request
variable (g : Homolosine α)

inductive Effect (q : Request α) (r : Recorder α) : Recorder α → Prop where
  | recorded (e : TraceEvent α) (h : q.Records g e) (hanswer : q.answer g = some (.ok e.result)) :
      Effect q r (r.record e)
  | failed (f : Failure α) (hanswer : q.answer g = some (.error f)) : Effect q r r
  | cleared (h : q = .clear) : Effect q r Recorder.empty

theorem perform_forward (lam phi : α) (r : Recorder α) :
    ((perform g (.forward lam phi)).run r).1 = answer g (.forward lam phi) ∧
      Effect g (.forward lam phi) r ((perform g (.forward lam phi)).run r).2 := by
  have hanswer := Homolosine.forward_eq g lam phi
  simp only [perform, Core.traced, Homolosine.forwardIn, answer]
  cases hp : g.pieceOfPoint lam phi with
  | error e =>
    simp only [hp] at hanswer
    exact ⟨congrArg some hanswer.symm, .failed e (congrArg some hanswer)⟩
  | ok p =>
    cases hplace : p.forward lam phi with
    | error e =>
      simp only [hp, hplace] at hanswer
      simp only [liftExcept, hplace, pure_bind]
      exact ⟨congrArg some hanswer.symm, .failed e (congrArg some hanswer)⟩
    | ok place =>
      simp only [hp, hplace] at hanswer
      simp only [liftExcept, hplace, pure_bind]
      exact ⟨congrArg some hanswer.symm, .recorded _ (Homolosine.records_forward hp hplace) (congrArg some hanswer)⟩

theorem perform_inverse (x y : α) (r : Recorder α) :
    ((perform g (.inverse x y)).run r).1 = answer g (.inverse x y) ∧
      Effect g (.inverse x y) r ((perform g (.inverse x y)).run r).2 := by
  have hanswer := Homolosine.inverse_eq g x y
  simp only [perform, Core.traced, Homolosine.inverseIn, answer]
  cases hp : g.pieceOfPlace x y with
  | error e =>
    simp only [hp] at hanswer
    exact ⟨congrArg some hanswer.symm, .failed e (congrArg some hanswer)⟩
  | ok p =>
    cases hpoint : p.recover x y with
    | error e =>
      simp only [hp, hpoint] at hanswer
      simp only [liftExcept, hpoint, pure_bind]
      exact ⟨congrArg some hanswer.symm, .failed e (congrArg some hanswer)⟩
    | ok point =>
      simp only [hp, hpoint] at hanswer
      simp only [liftExcept, hpoint, pure_bind]
      split_ifs at hanswer ⊢ with hlam
      · exact ⟨congrArg some hanswer.symm, .recorded _ (Homolosine.records_inverse hp hpoint hlam)
          (congrArg some hanswer)⟩
      · exact ⟨congrArg some hanswer.symm, .failed _ (congrArg some hanswer)⟩

theorem perform_spec (q : Request α) (r : Recorder α) :
    ((q.perform g).run r).1 = q.answer g ∧ q.Effect g r ((q.perform g).run r).2 := by
  cases q with
  | forward lam phi => exact perform_forward g lam phi r
  | inverse x y => exact perform_inverse g x y r
  | clear => exact ⟨rfl, .cleared rfl⟩

theorem run_concat (requests : List (Request α)) (q : Request α) (r : Recorder α) :
    run g (requests ++ [q]) r = ((run g requests r).1 ++ [((q.perform g).run (run g requests r).2).1],
      ((q.perform g).run (run g requests r).2).2) := by
  simp only [run, List.mapM_append, List.mapM_cons, List.mapM_nil]
  rfl

end Request

open Request

def Request.sinceClear (g : Homolosine α) (requests : List (Request α)) : List (Request α) :=
  (requests.rtakeWhile (!·.isClear)).filter (·.isAnswered g)

def Recorder.Holds (r : Recorder α) (g : Homolosine α) (start : List (TraceEvent α))
    (requests : List (Request α)) : Prop :=
  ∃ events, r.events.toList = (if requests.any isClear then [] else start) ++ events ∧
    List.Forall₂ (Records g) (sinceClear g requests) events

namespace Request
variable {g : Homolosine α} {start : List (TraceEvent α)} {requests : List (Request α)} {q : Request α}
  {r r' : Recorder α}

omit [Scalar α] in
theorem any_isClear_concat (h : q.isClear = false) :
    (requests ++ [q]).any isClear = requests.any isClear := by
  rw [List.any_append, List.any_cons, List.any_nil, h, Bool.or_false, Bool.or_false]

theorem sinceClear_concat (h : q.isClear = false) :
    sinceClear g (requests ++ [q]) = sinceClear g requests ++ if q.isAnswered g then [q] else [] := by
  rw [sinceClear, List.rtakeWhile_concat_pos _ _ _ (by rw [h]; rfl), List.filter_append, List.filter_singleton,
    cond_eq_ite]
  rfl

theorem isClear_of_answer {a : Except (Failure α) (α × α)} (h : q.answer g = some a) : q.isClear = false := by
  cases q with
  | forward lam phi => rfl
  | inverse x y => rfl
  | clear => cases h

/-- What one request keeps. -/
theorem Effect.holds (heffect : q.Effect g r r') (h : r.Holds g start requests) :
    r'.Holds g start (requests ++ [q]) := by
  obtain ⟨events, hevents, hrecords⟩ := h
  cases heffect with
  | recorded e he hanswer =>
    have hclear := isClear_of_answer hanswer
    have hanswered : q.isAnswered g = true := by
      rw [isAnswered, hanswer]
      rfl
    refine ⟨events ++ [e], ?_, ?_⟩
    · rw [any_isClear_concat hclear, Recorder.record, Array.toList_push, hevents, List.append_assoc]
    · rw [sinceClear_concat hclear, if_pos hanswered]
      exact List.rel_append hrecords (.cons he .nil)
  | failed f hanswer =>
    have hclear := isClear_of_answer hanswer
    have hanswered : ¬ q.isAnswered g = true := by
      rw [isAnswered, hanswer]
      exact Bool.false_ne_true
    refine ⟨events, ?_, ?_⟩
    · rw [any_isClear_concat hclear, hevents]
    · rwa [sinceClear_concat hclear, if_neg hanswered, List.append_nil]
  | cleared hq =>
    subst hq
    refine ⟨[], ?_, ?_⟩
    · have hclear : (requests ++ [clear]).any isClear = true := by
        rw [List.any_append]
        exact Bool.or_true _
      rw [if_pos hclear]
      rfl
    · rw [sinceClear, List.rtakeWhile_concat_neg _ _ _ (by nofun)]
      exact .nil

end Request

/-- Every run answers as the map without a recorder does and leaves the recorder with the events of the answered
calls since the last clearing; a call that fails, at whatever stage, leaves the recorder as it was. -/
theorem Homolosine.run_recorded (g : Homolosine α) (requests : List (Request α)) (r : Recorder α) :
    (run g requests r).1 = requests.map (answer g) ∧
      (run g requests r).2.Holds g r.events.toList requests ∧
      ∀ (q : Request α) (f : Failure α), q.answer g = some (.error f) → ((q.perform g).run r).2 = r := by
  refine ⟨?_, ?_, fun q f h => ?_⟩
  -- Both inductions are from the right: a request meets the recorder that those before it left.
  · induction requests using List.reverseRecOn with
    | nil => rfl
    | append_singleton requests q ih =>
      rw [run_concat, ih, (perform_spec g q _).1, List.map_append, List.map_singleton]
  · induction requests using List.reverseRecOn with
    | nil => exact ⟨[], (List.append_nil _).symm, .nil⟩
    | append_singleton requests q ih =>
      rw [run_concat]
      exact (perform_spec g q _).2.holds ih
  · have heffect := (perform_spec g q r).2
    generalize ((q.perform g).run r).2 = r' at heffect ⊢
    cases heffect with
    | recorded e he hok => cases hok.symm.trans h
    | failed _ _ => rfl
    | cleared hq =>
      subst hq
      cases h

def Request.pastPole : List (Request (Double .level)) :=
  [.forward 0.5 1e-9, .clear, .forward (-0.5) (-1e-9), .forward 0.0 2.0, .inverse 0.5 1e-9]

/-- The recorder holds the two calls since the clearing that were answered, and the one past the pole would again
add nothing. -/
theorem Homolosine.run_recorded_past_pole : ∃ g, lowSeam = .ok g ∧
    ∃ r : Recorder (Double .level), run g pastPole .empty = (pastPole.map (answer g), r) ∧
      (∃ first second, r.events.toList = [first, second] ∧ Records g (.forward (-0.5) (-1e-9)) first ∧
        Records g (.inverse 0.5 1e-9) second) ∧
      ∃ f, answer g (.forward 0.0 2.0) = some (.error f) ∧ ((perform g (.forward 0.0 2.0)).run r).2 = r := by
  obtain ⟨point, h⟩ := exists_of_isOk (r := do
    let g ← lowSeam
    let _ ← g.forward (-0.5) (-1e-9)
    g.inverse 0.5 1e-9) (by decide +kernel)
  obtain ⟨g, hg, h⟩ := bind_eq_ok_iff.mp h
  obtain ⟨place, hforward, hinverse⟩ := bind_eq_ok_iff.mp h
  have hphi : ¬ Scalar.Within (-Scalar.halfPi) Scalar.halfPi (2.0 : Double .level) := by decide +kernel
  have hanswer : answer g (.forward 0.0 2.0) = some (.error (.offGlobe 0.0 2.0)) := by
    simp only [answer, forward_eq, pieceOfPoint, if_neg hphi]
  obtain ⟨hanswers, ⟨events, hevents, hrecords⟩, -⟩ := run_recorded g pastPole .empty
  have hsince : sinceClear g pastPole = [.forward (-0.5) (-1e-9), .inverse 0.5 1e-9] := by
    have hfirst : isAnswered g (.forward (-0.5) (-1e-9)) = true := by
      rw [isAnswered, answer, hforward]
      rfl
    have hfailed : ¬ isAnswered g (.forward 0.0 2.0) = true := by
      rw [isAnswered, hanswer]
      exact Bool.false_ne_true
    have hsecond : isAnswered g (.inverse 0.5 1e-9) = true := by
      rw [isAnswered, answer, hinverse]
      rfl
    calc sinceClear g pastPole
        = [.forward (-0.5) (-1e-9), .forward 0.0 2.0, .inverse 0.5 1e-9].filter (·.isAnswered g) := rfl
      _ = _ := by
        rw [List.filter_cons_of_pos hfirst, List.filter_cons_of_neg hfailed, List.filter_cons_of_pos hsecond,
          List.filter_nil]
  rw [hsince] at hrecords
  obtain _ | ⟨hfirst, _ | ⟨hsecond, ⟨⟩⟩⟩ := hrecords
  exact ⟨g, hg, _, Prod.ext hanswers rfl, ⟨_, _, hevents, hfirst, hsecond⟩, _, hanswer,
    (run_recorded g [] _).2.2 _ _ hanswer⟩

end GoodeMap
