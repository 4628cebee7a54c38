import GoodeMap.Check
import GoodeMap.Proofs.Coverage

/-! Strict and tolerant runs of the checks. Where a tolerant run lists all findings, a strict one lists the same or
ends at the first that does not pass; the log of the strict run is where that of the tolerant one begins. -/
namespace GoodeMap
open Scalar

def violations {α : Type} [Scalar α] (rs : List (Finding α)) : List (Finding α) :=
  rs.filter fun f => ¬ f.Passes

section
variable {α : Type} [Scalar α] {f : Finding α}

theorem violations_cons_of_passes (h : f.Passes) (rs : List (Finding α)) : violations (f :: rs) = violations rs :=
  List.filter_cons_of_neg (by simpa using h)

theorem violations_cons_of_not_passes (h : ¬ f.Passes) (rs : List (Finding α)) :
    violations (f :: rs) = f :: violations rs :=
  List.filter_cons_of_pos (by simpa using h)

theorem violations_eq_nil_iff {rs : List (Finding α)} : violations rs = [] ↔ ∀ f ∈ rs, f.Passes := by
  simp [violations]

end

namespace CheckSummary

/-- Every result is counted once, as one that passed or by its name. -/
theorem passed_add_failed (results : List (String × Bool)) :
    (ofResults results).passed + (ofResults results).failed.length = results.length := by
  have hle : ((results.filter fun r => !r.2).map (·.1)).length ≤ results.length := by
    rw [List.length_map]
    exact List.length_filter_le _ _
  exact Nat.sub_add_cancel hle

variable {α : Type} [Scalar α]

def ofFindings (rs : List (Finding α)) : CheckSummary := ofResults (rs.map fun f => (f.test, decide f.Passes))

theorem total_ofFindings (rs : List (Finding α)) : (ofFindings rs).total = rs.length := List.length_map _

theorem failed_ofFindings (rs : List (Finding α)) : (ofFindings rs).failed = (violations rs).map (·.test) := by
  simp [ofFindings, ofResults, violations, List.filter_map, Function.comp_def]

theorem allPassed_iff {rs : List (Finding α)} : (ofFindings rs).allPassed = true ↔ ∀ f ∈ rs, f.Passes := by
  rw [← violations_eq_nil_iff, ← List.map_eq_nil_iff, ← failed_ofFindings]
  exact List.isEmpty_iff

end CheckSummary

namespace Checker
variable {α : Type} [Scalar α] {c : Checker α} {f : Finding α} {rs : List (Finding α)}
  {check : Except (Failure α) (Finding α)} {checks : List (Except (Failure α) (Finding α))}
  {log log' : List (Finding α)}

def noted (c : Checker α) (fs : List (Finding α)) : List (Finding α) := if c.logged then fs else []

theorem noted_nil (c : Checker α) : c.noted [] = [] := ite_self _

theorem noted_append (c : Checker α) (fs gs : List (Finding α)) : c.noted (fs ++ gs) = c.noted fs ++ c.noted gs := by
  unfold noted
  split_ifs <;> rfl

/-! One finding. -/

theorem run_ok (c : Checker α) (f : Finding α) : c.run (.ok f) = c.give f := rfl

theorem run_of_passes (h : f.Passes) (log : List (Finding α)) : (c.run (.ok f)).run.run log = (.ok f, log) := by
  simp only [run_ok, give, if_pos h]
  rfl

/-- A finding that does not pass is logged first; then it is given out or ends the run. -/
theorem run_of_not_passes (h : ¬ f.Passes) (log : List (Finding α)) : (c.run (.ok f)).run.run log =
    (if c.strict then .error (.violated f) else .ok f, log ++ c.noted [f]) := by
  simp only [run_ok, give, if_neg h, noted]
  cases c.logged <;> cases c.strict <;> simp only [Bool.false_eq_true, if_true, if_false, List.append_nil] <;> rfl

theorem run_tolerated (hstrict : c.strict = false) (f : Finding α) (log : List (Finding α)) :
    (c.run (.ok f)).run.run log = (.ok f, log ++ c.noted (violations [f])) := by
  by_cases h : f.Passes
  · rw [violations_cons_of_passes h, violations, List.filter_nil, noted_nil, List.append_nil]
    exact run_of_passes h log
  · rw [violations_cons_of_not_passes h, run_of_not_passes h, hstrict]
    rfl

/-! A list of checks. -/

theorem run_cons_of_error {e : Failure α} (h : (c.run check).run.run log = (.error e, log')) :
    ((check :: checks).mapM c.run).run.run log = (.error e, log') := by
  rw [List.mapM_cons, ExceptT.run_bind, StateT.run_bind, h]
  rfl

theorem run_cons_of_ok (h : (c.run check).run.run log = (.ok f, log')) :
    ((check :: checks).mapM c.run).run.run log =
      ((checks.mapM c.run).run.run log').map (Except.map (f :: ·)) id := by
  rw [List.mapM_cons, ExceptT.run_bind, StateT.run_bind, h]
  change (((checks.mapM c.run) >>= fun rs => pure (f :: rs)).run.run log') = _
  rw [ExceptT.run_bind, StateT.run_bind]
  rcases (checks.mapM c.run).run.run log' with ⟨_ | rs, log''⟩ <;> rfl

/-- A tolerant run that lists findings has met no failure, and has logged all that do not pass. -/
theorem eq_map_of_tolerant_run (hstrict : c.strict = false)
    (h : (checks.mapM c.run).run.run log = (.ok rs, log')) :
    checks = rs.map .ok ∧ log' = log ++ c.noted (violations rs) := by
  induction checks generalizing log rs with
  | nil =>
    cases h
    simp [violations, noted_nil]
  | cons check checks ih =>
    cases check with
    | error e =>
      have herror : (c.run (.error e)).run.run log = (.error e, log) := rfl
      rw [run_cons_of_error herror] at h
      cases h
    | ok f =>
      rw [run_cons_of_ok (run_tolerated hstrict f log)] at h
      cases hrest : (checks.mapM c.run).run.run (log ++ c.noted (violations [f])) with
      | mk answer log'' =>
        rw [hrest] at h
        cases answer with
        | error e => cases h
        | ok gs =>
          cases h
          obtain ⟨rfl, rfl⟩ := ih hrest
          have hviolations : violations (f :: gs) = violations [f] ++ violations gs :=
            List.filter_append [f] gs
          rw [hviolations, noted_append, List.append_assoc]
          exact ⟨rfl, rfl⟩

/-- A strict run over findings lists them if all pass, and ends at the first that does not. -/
theorem strict_run (hstrict : c.strict = true) (rs log : List (Finding α)) :
    ((rs.map .ok).mapM c.run).run.run log =
      match violations rs with
      | [] => (.ok rs, log)
      | f :: _ => (.error (.violated f), log ++ c.noted [f]) := by
  induction rs with
  | nil => rfl
  | cons f rs ih =>
    by_cases h : f.Passes
    · rw [List.map_cons, run_cons_of_ok (run_of_passes h log), ih, violations_cons_of_passes h]
      cases violations rs <;> rfl
    · have hgive : (c.run (.ok f)).run.run log = (.error (.violated f), log ++ c.noted [f]) := by
        rw [run_of_not_passes h, if_pos hstrict]
      rw [List.map_cons, run_cons_of_error hgive, violations_cons_of_not_passes h]

section
open Binary64 (Circular)
open Homolosine (build wholeLobe exists_of_isOk)

/-- Where a tolerant run lists its findings, a strict run of the same checks lists the same findings if they all
pass, and otherwise fails as a projection does, with the message and the name of the first that does not. In the
log, if it is kept, the tolerant run leaves a warning for each finding that does not pass, the strict run the first
of these; and the summary counts them. -/
theorem strict_and_tolerant {c : Circular} (core : Homolosine (Double c)) (parameters : Parameters (Double c))
    (logged : Bool) (limits : ArrayLimits (Double c)) (lons lats : Grid (Double c)) {log log' rs : List (Finding (Double c))}
    (h : ((⟨core, parameters, false, logged⟩ : Checker (Double c)).runAll limits lons lats).run.run log = (.ok rs, log')) :
    ((⟨core, parameters, true, logged⟩ : Checker (Double c)).runAll limits lons lats).run.run log =
        (match violations rs with
        | [] => (.ok rs, log)
        | f :: _ => (.error (.violated f), log ++ if logged then [f] else [])) ∧
      log' = log ++ (if logged then violations rs else []) ∧
      (∀ f : Finding (Double c), (Failure.violated f).kind = .projection ∧
        (Failure.violated f).report = ⟨f.message, [("check", .text f.test)]⟩ ∧
        f.notice = ⟨LogEntry.checkLogger, .warning, "CHECK FAILED | " ++ f.test ++ " | " ++ f.message⟩) ∧
      (violations rs = [] ↔ ∀ f ∈ rs, f.Passes) ∧
      (CheckSummary.ofFindings rs).total = rs.length ∧
      (CheckSummary.ofFindings rs).passed + (CheckSummary.ofFindings rs).failed.length =
        (CheckSummary.ofFindings rs).total ∧
      (CheckSummary.ofFindings rs).failed = (violations rs).map (·.test) ∧
      ((CheckSummary.ofFindings rs).allPassed = true ↔ ∀ f ∈ rs, f.Passes) := by
  obtain ⟨hchecks, hlog⟩ := eq_map_of_tolerant_run rfl h
  refine ⟨?_, hlog, fun f => ⟨rfl, rfl, rfl⟩, violations_eq_nil_iff, CheckSummary.total_ofFindings rs,
    CheckSummary.passed_add_failed _, CheckSummary.failed_ofFindings rs, CheckSummary.allPassed_iff⟩
  have hall : (⟨core, parameters, true, logged⟩ : Checker (Double c)).all limits lons lats = rs.map .ok := hchecks
  rw [runAll, hall, strict_run rfl]
  cases violations rs <;> rfl

/-- One lobe with the seam on the equator, looked at in one point: the seam offset is zero, so the tolerant run has
findings that do not pass and the strict run ends. -/
theorem strict_and_tolerant_wholeLobe : ∃ g rs f fs,
    build wholeLobe wholeLobe 0.0 (.newton .standard) = .ok g ∧
    ((⟨g, .sphere 1.0, false, true⟩ : Checker (Double .level)).runAll .words (Grid.ofList [0.0])
      (Grid.ofList [0.0])).run.run [] = (.ok rs, f :: fs) ∧
    ((⟨g, .sphere 1.0, true, true⟩ : Checker (Double .level)).runAll .words (Grid.ofList [0.0])
      (Grid.ofList [0.0])).run.run [] = (.error (.violated f), [f]) := by
  obtain ⟨answer, h⟩ := exists_of_isOk (r := do
    let g ← build wholeLobe wholeLobe 0.0 (.newton .standard)
    let rs ← (((⟨g, .sphere 1.0, false, true⟩ : Checker (Double .level)).runAll .words (Grid.ofList [0.0])
      (Grid.ofList [0.0])).run.run []).1
    if (violations rs).isEmpty then .error .emptySample else .ok ()) (by decide +kernel)
  obtain ⟨g, hg, h⟩ := bind_eq_ok_iff.mp h
  obtain ⟨rs, hrs, h⟩ := bind_eq_ok_iff.mp h
  obtain ⟨hstrict, hlog, -⟩ := strict_and_tolerant g (.sphere 1.0) true _ _ _ (Prod.ext hrs rfl)
  cases hviolations : violations rs with
  | nil =>
    rw [hviolations] at h
    cases h
  | cons f fs =>
    rw [hviolations] at hstrict hlog
    exact ⟨g, rs, f, fs, hg, Prod.ext hrs hlog, hstrict⟩

end

end Checker
end GoodeMap
