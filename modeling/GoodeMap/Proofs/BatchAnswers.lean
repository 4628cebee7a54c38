import GoodeMap.Batch
import GoodeMap.Proofs.Guards
import GoodeMap.Proofs.Stretching
import GoodeMap.Proofs.Traversal

/-! Batches agree with their points. A failure that is not tolerated ends the run at the first point in row-major
order that has one; a run that comes to its end holds at every position what the point there comes to. -/
namespace GoodeMap
open Scalar Shape

namespace Batch
section
variable {α : Type} {project : α → α → Except (Failure α) (α × α)} {mode : ErrorMode} {p place : α × α}
  {e : Failure α}

def Stops (mode : ErrorMode) (e : Failure α) : Prop := mode = .raise ∨ e.kind.isProjection = false

theorem attempt_of_ok (h : project p.1 p.2 = .ok place) : attempt project mode p = .ok (some place) := by
  cases mode with
  | raise =>
    rw [attempt, h]
    rfl
  | blank =>
    rw [attempt, h]
    rfl

theorem attempt_of_error (mode : ErrorMode) (h : project p.1 p.2 = .error e) :
    Stops mode e ∧ attempt project mode p = .error e ∨ ¬ Stops mode e ∧ attempt project mode p = .ok none := by
  cases mode with
  | raise =>
    rw [attempt, h]
    exact .inl ⟨.inl rfl, rfl⟩
  | blank =>
    have hattempt : attempt project .blank p = if e.kind.isProjection then .ok none else .error e := by
      rw [attempt, h]
      rfl
    rw [hattempt]
    cases hkind : e.kind.isProjection with
    | true => exact .inr ⟨by simp [Stops, hkind], rfl⟩
    | false => exact .inl ⟨.inr hkind, rfl⟩

theorem attempt_eq_error_iff :
    attempt project mode p = .error e ↔ project p.1 p.2 = .error e ∧ Stops mode e := by
  cases hp : project p.1 p.2 with
  | ok place => simp [attempt_of_ok hp]
  | error e' =>
    rcases attempt_of_error mode hp with ⟨hstops, hattempt⟩ | ⟨hstops, hattempt⟩
    · rw [hattempt, Except.error.injEq, Except.error.injEq]
      exact ⟨fun heq => ⟨heq, heq ▸ hstops⟩, fun h => h.1⟩
    · rw [hattempt, Except.error.injEq]
      exact iff_of_false nofun fun h => hstops (h.1 ▸ h.2)

theorem attempt_of_tolerated (h : ∀ e, project p.1 p.2 = .error e → ¬ Stops mode e) :
    attempt project mode p = .ok (project p.1 p.2).toOption := by
  cases hp : project p.1 p.2 with
  | ok place => exact attempt_of_ok hp
  | error e =>
    rcases attempt_of_error mode hp with ⟨hstops, -⟩ | ⟨-, hattempt⟩
    · exact absurd hstops (h e hp)
    · exact hattempt

end

variable {α : Type} [Scalar α] {project : α → α → Except (Failure α) (α × α)} {mode : ErrorMode}

section
variable {t : Shape} {answer : t.Index → Except (Failure α) (α × α)}

def ofResults (t : Shape) (results : List (Option (α × α))) : Batch α :=
  ⟨t, results.map (·.getD blankPoint), results.countP (·.isNone)⟩

def gather (t : Shape) (answer : t.Index → Except (Failure α) (α × α)) : Batch α :=
  ofResults t ((Index.all t).map fun i => (answer i).toOption)

structure Gathers (b : Batch α) (answer : t.Index → Except (Failure α) (α × α)) : Prop where
  shape_eq : b.shape = t
  length_eq : b.points.length = t.size
  point_eq (i : t.Index) {place : α × α} : answer i = .ok place → b.points[i.offset]? = some place
  blank_eq (i : t.Index) {e : Failure α} : answer i = .error e → b.points[i.offset]? = some blankPoint
  failures_eq : b.failures = (Index.all t).countP fun i => !(answer i).isOk

theorem gathers_gather : (gather t answer).Gathers answer where
  shape_eq := rfl
  length_eq := by rw [gather, ofResults, List.length_map, List.length_map, Index.length_all]
  point_eq i place h := by simp [gather, ofResults, Index.getElem?_all, h, Except.toOption]
  blank_eq i e h := by simp [gather, ofResults, Index.getElem?_all, h, Except.toOption]
  failures_eq := by
    rw [gather, ofResults, List.countP_map]
    refine List.countP_congr fun i _ => ?_
    cases hanswer : answer i <;> simp [hanswer, Except.toOption, Except.isOk, Except.toBool]

theorem Gathers.failures_eq_zero_iff {b : Batch α} (h : b.Gathers answer) :
    b.failures = 0 ↔ ∀ i, ∃ place, answer i = .ok place := by
  rw [h.failures_eq, List.countP_eq_zero]
  refine ⟨fun hall i => ?_, fun hall i _ => ?_⟩
  · have hi := hall i (Index.mem_all i)
    cases hanswer : answer i with
    | ok place => exact ⟨place, rfl⟩
    | error e => simp [hanswer, Except.isOk, Except.toBool] at hi
  · obtain ⟨place, hplace⟩ := hall i
    simp [hplace, Except.isOk, Except.toBool]

end

section
variable {lats lons : Grid α} (h : Compatible lats.shape lons.shape)

def answerAt (project : α → α → Except (Failure α) (α × α)) (i : (broadcast lats.shape lons.shape).Index) :
    Except (Failure α) (α × α) := project (lats.spread h.left i) (lons.spread h.right i)

variable {limits : ArrayLimits α} (hrank : max lats.shape.length lons.shape.length ≤ limits.stretchedAxes)
include hrank

theorem project_eq : Batch.project limits project mode lats lons =
    ((Index.all (broadcast lats.shape lons.shape)).mapM fun i =>
      attempt project mode (lats.spread h.left i, lons.spread h.right i)) >>= fun results =>
        .ok (ofResults (broadcast lats.shape lons.shape) results) := by
  rw [Batch.project, Grid.pairs_eq hrank h]
  exact congrArg (fun run : Except (Failure α) (List (Option (α × α))) =>
    run >>= fun results => .ok (ofResults (broadcast lats.shape lons.shape) results)) List.mapM_map

theorem project_of_tolerated (htolerated : ∀ i e, answerAt h project i = .error e → ¬ Stops mode e) :
    Batch.project limits project mode lats lons = .ok (gather _ (answerAt h project)) := by
  rw [project_eq h hrank, mapM_eq_ok_map fun i _ => attempt_of_tolerated (htolerated i)]
  rfl

/-- A run ends at the first position in row-major order that stops it. -/
theorem project_eq_error_iff {e : Failure α} : Batch.project limits project mode lats lons = .error e ↔
    ∃ i, answerAt h project i = .error e ∧ Stops mode e ∧
      ∀ j, j.offset < i.offset → ∀ e', answerAt h project j = .error e' → ¬ Stops mode e' := by
  have hend {x : Except (Failure α) (List (Option (α × α)))} {t : Shape} :
      (x >>= fun results => .ok (ofResults t results)) = .error e ↔ x = .error e := by
    cases x <;> simp [bind, Except.bind]
  rw [project_eq h hrank, hend, mapM_eq_error_iff]
  constructor
  · rintro ⟨before, i, after, hall, hbefore, hi⟩
    obtain ⟨hanswer, hstops⟩ := attempt_eq_error_iff.mp hi
    refine ⟨i, hanswer, hstops, fun j hj e' he' hstops' => ?_⟩
    obtain ⟨r, hr⟩ := hbefore j ((Index.mem_before_iff hall).mpr hj)
    cases hr.symm.trans (attempt_eq_error_iff.mpr ⟨he', hstops'⟩)
  · rintro ⟨i, hanswer, hstops, hfirst⟩
    obtain ⟨before, after, hall⟩ := List.append_of_mem (Index.mem_all i)
    refine ⟨before, i, after, hall, fun j hj => ?_, attempt_eq_error_iff.mpr ⟨hanswer, hstops⟩⟩
    exact ⟨_, attempt_of_tolerated (hfirst j ((Index.mem_before_iff hall).mp hj))⟩

theorem project_eq_ok_iff {b : Batch α} : Batch.project limits project mode lats lons = .ok b ↔
    (∀ i e, answerAt h project i = .error e → ¬ Stops mode e) ∧ b = gather _ (answerAt h project) := by
  constructor
  · intro hb
    have htolerated : ∀ i e, answerAt h project i = .error e → ¬ Stops mode e := by
      intro i e he hstops
      obtain ⟨results, hresults, -⟩ := bind_eq_ok_iff.mp ((project_eq h hrank).symm.trans hb)
      obtain ⟨r, hr⟩ := exists_of_mapM hresults i (Index.mem_all i)
      cases hr.symm.trans (attempt_eq_error_iff.mpr ⟨he, hstops⟩)
    exact ⟨htolerated, Except.ok.inj (hb.symm.trans (project_of_tolerated h hrank htolerated))⟩
  · rintro ⟨htolerated, rfl⟩
    exact project_of_tolerated h hrank htolerated

end

theorem project_of_rank {limits : ArrayLimits α} {lats lons : Grid α}
    (hrank : limits.stretchedAxes < max lats.shape.length lons.shape.length)
    (project : α → α → Except (Failure α) (α × α)) (mode : ErrorMode) :
    Batch.project limits project mode lats lons = .error .tooManyStretchedAxes := by
  rw [Batch.project, Grid.pairs, if_neg (not_le.mpr hrank)]
  rfl

end Batch

/-! A map that records its calls answers as one that does not. -/

namespace Traced
variable {α β γ : Type} {x : Traced α β} {a : Except (Failure α) β}

def Gives (x : Traced α β) (a : Except (Failure α) β) : Prop := ∀ r, ∃ r', x.run.run r = (a, r')

theorem gives_pure (b : β) : Gives (α := α) (pure b) (.ok b) := fun r => ⟨r, rfl⟩

theorem gives_throw (e : Failure α) : Gives (β := β) (throw e) (.error e) := fun r => ⟨r, rfl⟩

theorem gives_liftExcept (a : Except (Failure α) β) : Gives (liftExcept a) a := by
  cases a with
  | ok b => exact gives_pure b
  | error e => exact gives_throw e

/-- A plain call among other effects comes to the same as among none. -/
theorem gives_lift (a : Except (Failure α) β) :
    Gives (liftExcept a) (liftExcept a : Except (Failure α) β) := by
  rw [liftExcept_except]
  exact gives_liftExcept a

theorem gives_record (e : TraceEvent α) : Gives (record e) (pure ()) := fun r => ⟨r.record e, rfl⟩

theorem Gives.bind {f : β → Traced α γ} {k : β → Except (Failure α) γ} (hx : x.Gives a)
    (hf : ∀ b, (f b).Gives (k b)) : (x >>= f).Gives (a >>= k) := by
  intro r
  obtain ⟨r', hr'⟩ := hx r
  cases a with
  | ok b =>
    obtain ⟨r'', hr''⟩ := hf b r'
    refine ⟨r'', ?_⟩
    rw [ExceptT.run_bind, StateT.run_bind, hr']
    exact hr''
  | error e =>
    refine ⟨r', ?_⟩
    rw [ExceptT.run_bind, StateT.run_bind, hr']
    rfl

theorem Gives.map (hx : x.Gives a) (f : β → γ) : (f <$> x).Gives (f <$> a) := by
  rw [map_eq_pure_bind, map_eq_pure_bind]
  exact hx.bind fun b => gives_pure (f b)

theorem Gives.catch {f : Failure α → Traced α β} {k : Failure α → Except (Failure α) β} (hx : x.Gives a)
    (hf : ∀ e, (f e).Gives (k e)) : Gives (tryCatch x f) (tryCatch a k) := by
  intro r
  obtain ⟨r', hr'⟩ := hx r
  have hrun : (tryCatch x f : Traced α β).run.run r = (ExceptT.tryCatch x f).run.run r := rfl
  rw [hrun, ExceptT.tryCatch, ExceptT.run_mk, StateT.run_bind]
  change StateT.run x r = _ at hr'
  rw [hr']
  cases a with
  | ok b => exact ⟨r', rfl⟩
  | error e => exact hf e r'

theorem Gives.mapM {f : β → Traced α γ} {k : β → Except (Failure α) γ} (hf : ∀ b, (f b).Gives (k b)) (xs : List β) :
    Gives (xs.mapM f) (xs.mapM k) := by
  induction xs with
  | nil => exact gives_pure []
  | cons b xs ih =>
    rw [List.mapM_cons, List.mapM_cons]
    exact (hf b).bind fun c => ih.bind fun cs => gives_pure (c :: cs)

end Traced

section
variable {α : Type} [Scalar α]

theorem Batch.gives_project {limits : ArrayLimits α} {recorded : α → α → Traced α (α × α)}
    {project : α → α → Except (Failure α) (α × α)}
    (h : ∀ lat lon, (recorded lat lon).Gives (project lat lon)) (mode : ErrorMode) (lats lons : Grid α) :
    Traced.Gives (Batch.project limits recorded mode lats lons) (Batch.project limits project mode lats lons) := by
  have hattempt (p : α × α) : Traced.Gives (attempt recorded mode p) (attempt project mode p) := by
    cases mode with
    | raise => exact (h p.1 p.2).map some
    | blank =>
      refine ((h p.1 p.2).map some).catch fun e => ?_
      split_ifs
      · exact Traced.gives_pure none
      · exact Traced.gives_throw e
  unfold Batch.project
  exact (Traced.gives_lift _).bind fun r =>
    (Traced.Gives.mapM hattempt r.2).bind fun _ => Traced.gives_pure _

theorem Traced.gives_forward_traced (g : Homolosine α) (lam phi : α) :
    ((Core.traced g).forward lam phi).Gives (g.forward lam phi) := by
  change (g.forwardIn Traced.record lam phi).Gives (g.forwardIn (fun _ => pure ()) lam phi)
  unfold Homolosine.forwardIn
  exact (gives_lift _).bind fun p => (gives_lift _).bind fun place =>
    (gives_record _).bind fun _ => gives_pure _

inductive WorldMap.Records : WorldMap (Traced α) α → WorldMap (Except (Failure α)) α → Prop
  | nothing (w : WorldMap (Except (Failure α)) α) : Records ⟨w.family, w.parameters, w.core.lift⟩ w
  | calls (f : Family) (p : Parameters α) (g : Homolosine α) : Records ⟨f, p, .traced g⟩ ⟨f, p, .homolosine g⟩

/-- The recorder makes no difference to what a map answers. -/
theorem WorldMap.Records.gives_project {v : WorldMap (Traced α) α} {w : WorldMap (Except (Failure α)) α}
    (h : Records v w) (lat lon : α) : Traced.Gives (v.project lat lon) (w.project lat lon) := by
  cases h with
  | nothing => exact (Traced.gives_liftExcept _).bind fun _ => Traced.gives_pure _
  | calls f p g => exact (Traced.gives_forward_traced g _ _).bind fun _ => Traced.gives_pure _

end

namespace Core
variable {α : Type} [Scalar α] {b : Mollweide.Budget α} {lam phi : α} {e : Failure α}

theorem isProjection_of_sinusoidal (h : Sinusoidal.forward lam phi = .error e) : e.kind.isProjection = true := by
  unfold Sinusoidal.forward at h
  split_ifs at h
  cases h
  rfl

theorem isProjection_of_newtonAngle (h : Mollweide.newtonAngle b phi = .error e) : e.kind.isProjection = true := by
  by_cases hphi : Within (-halfPi) halfPi phi
  · rw [Mollweide.kind_of_newtonAngle hphi h]
    rfl
  · rw [Mollweide.newtonAngle, if_neg hphi] at h
    cases h
    rfl

theorem isProjection_of_homolosine {g : Homolosine α} (hg : Homolosine.usual (.newton b) = .ok g)
    (h : g.forward lam phi = .error e) : e.kind.isProjection = true := by
  obtain ⟨north, south, -, -, hbuild⟩ := Homolosine.parts_of_usual hg
  rcases Homolosine.forward_eq_error_cases.mp h with ⟨-, rfl⟩ | ⟨-, hselect | ⟨lobe, cause, -, -, hcause, rfl⟩⟩
  · rfl
  · rw [LobeTable.kind_of_select _ hselect]
    rfl
  · rw [Homolosine.mollweide_of_build hbuild] at hcause
    exact (isProjection_of_newtonAngle hcause : cause.kind.isProjection = true)

/-- Our own cores fail with failures of projections only, and so do all if the one for comparison does. -/
theorem isProjection_of_forward {f : Family} {core reference : Core (Except (Failure α)) α}
    (hreference : ∀ lam phi e, reference.forward lam phi = .error e → e.kind.isProjection = true)
    (hcore : ofFamilyWith (.newton b) reference f = .ok core) (h : core.forward lam phi = .error e) :
    e.kind.isProjection = true := by
  cases f with
  | sinusoidal =>
    cases hcore
    exact isProjection_of_sinusoidal h
  | mollweide =>
    cases hcore
    exact isProjection_of_newtonAngle (Mollweide.forward_eq_error_iff.mp h)
  | homolosine =>
    obtain ⟨g, hg, hcore⟩ := bind_eq_ok_iff.mp hcore
    cases hcore
    exact isProjection_of_homolosine hg h
  | reference =>
    cases hcore
    exact hreference _ _ _ h

end Core

variable {c : Binary64.Circular}

/-- Our own maps fail with failures of projections only. -/
theorem WorldMap.isProjection_of_project {b : Mollweide.Budget (Double c)}
    {w : WorldMap (Except (Failure (Double c))) (Double c)} {lat lon : Double c} {e : Failure (Double c)}
    {reference : Core (Except (Failure (Double c))) (Double c)}
    (hreference : ∀ lam phi e, reference.forward lam phi = .error e → e.kind.isProjection = true)
    (hcore : Core.ofFamilyWith (.newton b) reference w.family = .ok w.core) (h : w.project lat lon = .error e) :
    e.kind.isProjection = true := by
  cases hforward : w.core.forward (w.turned lon) lat with
  | ok place => cases (WorldMap.project_of_forward hforward).symm.trans h
  | error e' =>
    cases (WorldMap.project_of_error hforward).symm.trans h
    exact Core.isProjection_of_forward hreference hcore hforward

namespace Batch

def gapWarning (title : String) (failures size : Nat) : LogEntry :=
  ⟨LogEntry.mapLogger, Severity.warning,
    title ++ ": " ++ toString failures ++ " of " ++ toString size ++ " points could not be projected"⟩

section
variable {t : Shape} {answer : t.Index → Except (Failure (Double c)) (Double c × Double c)} {b : Batch (Double c)}

theorem Gathers.notices_eq (h : b.Gathers answer) (title : String) :
    b.notices title = if b.failures = 0 then [] else [gapWarning title b.failures t.size] := by
  rw [notices, h.length_eq]
  rfl

theorem Gathers.notices_eq_nil (h : b.Gathers answer) (hall : ∀ i, ∃ place, answer i = .ok place) (title : String) :
    b.notices title = [] := by
  rw [h.notices_eq, if_pos (h.failures_eq_zero_iff.mpr hall)]

end

variable {lats lons : Grid (Double c)}
  {project : Double c → Double c → Except (Failure (Double c)) (Double c × Double c)}

theorem isProjection_of_blank {limits : ArrayLimits (Double c)} (h : Compatible lats.shape lons.shape)
    {e : Failure (Double c)} (he : Batch.project limits project .blank lats lons = .error e) :
    e.kind.isProjection = false := by
  by_cases hrank : max lats.shape.length lons.shape.length ≤ limits.stretchedAxes
  · obtain ⟨i, -, hstops, -⟩ := (project_eq_error_iff h hrank).mp he
    exact hstops.resolve_left nofun
  · cases (project_of_rank (not_le.mp hrank) project .blank).symm.trans he
    rfl

section
variable {limits : ArrayLimits (Double c)} (h : Compatible lats.shape lons.shape)
  (hrank : max lats.shape.length lons.shape.length ≤ limits.stretchedAxes)

theorem exists_place_iff {i : (broadcast lats.shape lons.shape).Index} :
    (∀ e, answerAt h project i = .error e → ¬ Stops .raise e) ↔ ∃ place, answerAt h project i = .ok place := by
  cases answerAt h project i <;> simp [Stops]

include hrank

theorem project_raise_iff {b : Batch (Double c)} : Batch.project limits project .raise lats lons = .ok b ↔
    (∀ i, ∃ place, answerAt h project i = .ok place) ∧ b = gather _ (answerAt h project) := by
  rw [project_eq_ok_iff h hrank, forall_congr' fun i => exists_place_iff h]

theorem project_blank_of_places (hall : ∀ i, ∃ place, answerAt h project i = .ok place) :
    Batch.project limits project .blank lats lons = .ok (gather _ (answerAt h project)) := by
  refine project_of_tolerated h hrank fun i e he => ?_
  obtain ⟨place, hplace⟩ := hall i
  cases hplace.symm.trans he

theorem project_raise_error_iff {e : Failure (Double c)} : Batch.project limits project .raise lats lons = .error e ↔
    ∃ i, answerAt h project i = .error e ∧
      ∀ j, j.offset < i.offset → ∃ place, answerAt h project j = .ok place := by
  rw [project_eq_error_iff h hrank]
  refine exists_congr fun i => and_congr_right fun _ => ?_
  rw [and_iff_right (show Stops .raise e from .inl rfl)]
  exact forall₂_congr fun j _ => exists_place_iff h

end

/-- A tolerant run never fails with a failure of projections. On arrays of no more axes than can be
stretched it has every answer in its place, a blank where there is none, and one warning if there are blanks; a strict
run gives the same if every point has an answer, and otherwise the failure of the first point in row-major order that
has none. Arrays of more axes are refused. Our own maps fail with failures of projections only, as long as the map for
comparison does, and a recorder makes no difference. -/
theorem project_answers (limits : ArrayLimits (Double c)) (h : Compatible lats.shape lons.shape) :
    (∀ (project : Double c → Double c → Except (Failure (Double c)) (Double c × Double c)) (title : String),
      (∀ e, Batch.project limits project .blank lats lons = .error e → e.kind.isProjection = false) ∧
      (max lats.shape.length lons.shape.length ≤ limits.stretchedAxes →
        ((∀ i e, answerAt h project i = .error e → e.kind.isProjection = true) →
          ∃ b, Batch.project limits project .blank lats lons = .ok b ∧ b.Gathers (answerAt h project) ∧
            b.notices title = if b.failures = 0 then [] else
              [gapWarning title b.failures (broadcast lats.shape lons.shape).size]) ∧
        ((∃ b, Batch.project limits project .raise lats lons = .ok b) ↔ ∀ i, ∃ place, answerAt h project i = .ok place) ∧
        (∀ b, Batch.project limits project .raise lats lons = .ok b →
          Batch.project limits project .blank lats lons = .ok b ∧ b.Gathers (answerAt h project) ∧ b.notices title = []) ∧
        ∀ e, Batch.project limits project .raise lats lons = .error e ↔ ∃ i, answerAt h project i = .error e ∧
          ∀ j, j.offset < i.offset → ∃ place, answerAt h project j = .ok place) ∧
      (limits.stretchedAxes < max lats.shape.length lons.shape.length →
        ∀ mode, Batch.project limits project mode lats lons = .error .tooManyStretchedAxes)) ∧
    (∀ (b : Mollweide.Budget (Double c)) (w : WorldMap (Except (Failure (Double c))) (Double c))
      (reference : Core (Except (Failure (Double c))) (Double c)),
      (∀ lam phi e, reference.forward lam phi = .error e → e.kind.isProjection = true) →
      Core.ofFamilyWith (.newton b) reference w.family = .ok w.core →
        ∀ i e, answerAt h w.project i = .error e → e.kind.isProjection = true) ∧
    ∀ (v : WorldMap (Traced (Double c)) (Double c)) (w : WorldMap (Except (Failure (Double c))) (Double c)),
      v.Records w → ∀ mode, Traced.Gives (Batch.project limits v.project mode lats lons)
        (Batch.project limits w.project mode lats lons) := by
  refine ⟨fun project title => ⟨fun e => isProjection_of_blank h, fun hrank => ?_, fun hrank mode =>
    project_of_rank hrank project mode⟩, fun b w _ hreference hcore i e =>
      WorldMap.isProjection_of_project hreference hcore,
    fun v w hrecords mode => gives_project hrecords.gives_project mode lats lons⟩
  refine ⟨fun hkinds => ?_, ?_, fun b hb => ?_, fun e => project_raise_error_iff h hrank⟩
  · have htolerated : ∀ i e, answerAt h project i = .error e → ¬ Stops .blank e := by
      intro i e he hstops
      exact absurd (hstops.resolve_left nofun) (by simp [hkinds i e he])
    exact ⟨_, project_of_tolerated h hrank htolerated, gathers_gather, gathers_gather.notices_eq title⟩
  · rw [exists_congr fun b => project_raise_iff h hrank, exists_and_left]
    exact and_iff_left ⟨_, rfl⟩
  · obtain ⟨hall, rfl⟩ := (project_raise_iff h hrank).mp hb
    exact ⟨project_blank_of_places h hrank hall, gathers_gather, gathers_gather.notices_eq_nil hall title⟩

theorem project_unitSinusoidal {lat : Double c} (h : Within (-halfPi) halfPi lat) (lon : Double c) :
    ∃ place, (WorldMap.unitSinusoidal c).project lat lon = .ok place :=
  ⟨_, WorldMap.project_of_forward (Sinusoidal.forward_of_within h)⟩

/-- A point and one beyond the pole on one meridian. -/
theorem project_answers_beyondPole : ∃ (lats lons : Grid (Double .native)) (b : Batch (Double .native))
    (e : Failure (Double .native)), lats.shape = [2] ∧ lons.shape = [1] ∧
      Batch.project .words (WorldMap.unitSinusoidal .native).project .blank lats lons = .ok b ∧ b.shape = [2] ∧
        b.points[1]? = some blankPoint ∧ b.notices "Sinusoidal" = [gapWarning "Sinusoidal" 1 2] ∧
      Batch.project .words (WorldMap.unitSinusoidal .native).project .raise lats lons = .error e ∧ e.kind = .domain := by
  let lats : Grid (Double .native) := ⟨[2], [0.25, 2.0], rfl⟩
  let lons : Grid (Double .native) := ⟨[1], [0.5], rfl⟩
  have hshapes : Compatible lats.shape lons.shape := .cons (.inr (.inr rfl)) .nil
  let first : (broadcast lats.shape lons.shape).Index := .cons ⟨0, Nat.zero_lt_two⟩ .nil
  let second : (broadcast lats.shape lons.shape).Index := .cons ⟨1, Nat.one_lt_two⟩ .nil
  have hlats : Within (-halfPi) halfPi (0.25 : Double .native) ∧
      ¬ Within (-halfPi) halfPi (2.0 : Double .native) := by
    decide +kernel
  have hfirst : ∃ place, answerAt hshapes (WorldMap.unitSinusoidal .native).project first = .ok place :=
    project_unitSinusoidal hlats.1 _
  have hsecond : answerAt hshapes (WorldMap.unitSinusoidal .native).project second =
      .error (.latitudeOf "Sinusoidal" 2.0) := WorldMap.project_of_error (if_neg hlats.2)
  obtain ⟨hany, hown, -⟩ := project_answers .words hshapes
  obtain ⟨-, hsmall, -⟩ := hany (WorldMap.unitSinusoidal .native).project "Sinusoidal"
  obtain ⟨htolerant, -, -, hstrict⟩ := hsmall (by decide)
  obtain ⟨b, hb, hgathers, hnotices⟩ := htolerant
    (hown .standard (WorldMap.unitSinusoidal .native) Core.sinusoidal
      (fun _ _ _ => Core.isProjection_of_sinusoidal) rfl)
  have hfailures : b.failures = 1 := by
    rw [hgathers.failures_eq]
    change [first, second].countP _ = 1
    obtain ⟨place, hplace⟩ := hfirst
    simp [hplace, hsecond, Except.isOk, Except.toBool]
  refine ⟨lats, lons, b, _, rfl, rfl, hb, hgathers.shape_eq, hgathers.blank_eq second hsecond, ?_,
    (hstrict _).mpr ⟨second, hsecond, fun j hj => ?_⟩, rfl⟩
  · rw [hnotices, hfailures]
    rfl
  · have hj : j ∈ [first] := (Index.mem_before_iff (show Index.all _ = [first] ++ second :: [] from rfl)).mpr hj
    exact List.mem_singleton.mp hj ▸ hfirst

/-- One number under 33 axes. -/
def deepEntry {α : Type} (x : α) : Grid α := ⟨List.replicate 33 1, [x], (size_replicate_one 33 []).symm⟩

theorem get_deepEntry {α : Type} (x : α) (i : (deepEntry x).shape.Index) : (deepEntry x).get i = x :=
  List.mem_singleton.mp (List.mem_of_getElem? (Grid.getElem?_offset _ i))

theorem compatible_deepEntry {α : Type} (x y : α) : Compatible (deepEntry x).shape (deepEntry y).shape :=
  Compatible.refl (List.replicate 33 1)

/-- The one point can be projected, the arrays cannot. -/
theorem project_deepEntry : (∀ i, ∃ place, answerAt (compatible_deepEntry 0.25 0.5)
      (WorldMap.unitSinusoidal .native).project i = .ok place) ∧
    ∀ mode, Batch.project .words (WorldMap.unitSinusoidal .native).project mode (deepEntry 0.25) (deepEntry 0.5) =
      .error .tooManyStretchedAxes := by
  have hlat : Within (-halfPi) halfPi (0.25 : Double .native) := by decide +kernel
  refine ⟨fun i => ?_, fun mode => project_of_rank (by decide) _ mode⟩
  have hentry : (deepEntry (0.25 : Double .native)).spread (compatible_deepEntry 0.25 (0.5 : Double .native)).left i =
      0.25 := get_deepEntry _ _
  rw [answerAt, hentry]
  exact project_unitSinusoidal hlat _

end Batch
end GoodeMap
