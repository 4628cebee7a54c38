import GoodeMap.Trace
import Mathlib.Algebra.BigOperators.Group.List.Lemmas
import Mathlib.Algebra.Ring.Nat
import Mathlib.Data.List.DropRight
import Std.Data.String.ToInt

/-! What a recorder holds after any mixture of records and clearings, and what its summary counts. A tally is told
by one equation, each key with the number of its occurrences in the order of the first ones; sums, lookups and the
effect of a reordering come from it. -/
namespace GoodeMap

namespace Tally

def distinct (keys : List String) : List String := keys.reverse.dedup.reverse

theorem mem_distinct {keys : List String} {k : String} : k ∈ distinct keys ↔ k ∈ keys := by
  rw [distinct, List.mem_reverse, List.mem_dedup, List.mem_reverse]

theorem nodup_distinct (keys : List String) : (distinct keys).Nodup :=
  List.nodup_reverse.mpr (List.nodup_dedup _)

theorem distinct_concat_of_mem {keys : List String} {key : String} (h : key ∈ keys) :
    distinct (keys ++ [key]) = distinct keys := by
  rw [distinct, List.reverse_concat, List.dedup_cons_of_mem (List.mem_reverse.mpr h), distinct]

theorem distinct_concat_of_not_mem {keys : List String} {key : String} (h : key ∉ keys) :
    distinct (keys ++ [key]) = distinct keys ++ [key] := by
  rw [distinct, List.reverse_concat, List.dedup_cons_of_notMem (mt List.mem_reverse.mp h), List.reverse_cons, distinct]

theorem add_of_mem {ks : List String} {key : String} (count : String → Nat) (hks : ks.Nodup) (h : key ∈ ks) :
    add (ks.map fun k => (k, count k)) key = ks.map fun k => (k, if k = key then count k + 1 else count k) := by
  induction ks with
  | nil => cases h
  | cons k ks ih =>
    obtain ⟨hfresh, hrest⟩ := List.nodup_cons.mp hks
    simp only [List.map_cons, add]
    by_cases hk : k = key
    · subst hk
      have hother : ∀ l ∈ ks, (l, count l) = (l, if l = k then count l + 1 else count l) := by
        intro l hl
        rw [if_neg (ne_of_mem_of_not_mem hl hfresh)]
      rw [if_pos rfl, if_pos rfl, List.map_congr_left hother]
    · rw [if_neg hk, if_neg hk, ih hrest ((List.mem_cons.mp h).resolve_left (Ne.symm hk))]

theorem add_of_not_mem {ks : List String} {key : String} (count : String → Nat) (h : key ∉ ks) :
    add (ks.map fun k => (k, count k)) key = (ks.map fun k => (k, count k)) ++ [(key, 1)] := by
  induction ks with
  | nil => rfl
  | cons k ks ih =>
    obtain ⟨hk, hrest⟩ := not_or.mp (mt List.mem_cons.mpr h)
    rw [List.map_cons, add, if_neg (Ne.symm hk), ih hrest]
    rfl

theorem count_concat (keys : List String) (key k : String) :
    (keys ++ [key]).count k = if k = key then keys.count k + 1 else keys.count k := by
  simp only [List.count_append, List.count_singleton, beq_iff_eq]
  by_cases hk : k = key
  · rw [if_pos hk, if_pos hk.symm]
  · rw [if_neg hk, if_neg (Ne.symm hk), Nat.add_zero]

/-- Each key stands once, with the number of its occurrences. -/
theorem ofList_eq (keys : List String) : ofList keys = (distinct keys).map fun k => (k, keys.count k) := by
  induction keys using List.reverseRecOn with
  | nil => rfl
  | append_singleton keys key ih =>
    have hstep : ofList (keys ++ [key]) = (ofList keys).add key := List.foldl_concat ..
    rw [hstep, ih]
    by_cases h : key ∈ keys
    · rw [add_of_mem _ (nodup_distinct keys) (mem_distinct.mpr h), distinct_concat_of_mem h]
      simp only [count_concat]
    · have hother : ∀ k ∈ distinct keys, (k, keys.count k) = (k, (keys ++ [key]).count k) := by
        intro k hk
        rw [count_concat, if_neg (ne_of_mem_of_not_mem (mem_distinct.mp hk) h)]
      rw [add_of_not_mem _ (mt mem_distinct.mp h), distinct_concat_of_not_mem h, List.map_append, List.map_singleton,
        List.map_congr_left hother, count_concat, if_pos rfl, List.count_eq_zero_of_not_mem h]

structure Counts (t : Tally) (keys : List String) : Prop where
  keys_eq : t.map (·.1) = distinct keys
  lookup_eq (k : String) : t.lookup k = if k ∈ keys then some (keys.count k) else none

theorem lookup_map_distinct (keys : List String) (k : String) :
    ((distinct keys).map fun k => (k, keys.count k)).lookup k = if k ∈ keys then some (keys.count k) else none := by
  have hlookup (ks : List String) : (ks.map fun k => (k, keys.count k)).lookup k =
      if k ∈ ks then some (keys.count k) else none := by
    induction ks with
    | nil => rfl
    | cons l ks ih =>
      rw [List.map_cons, List.lookup_cons, ih]
      by_cases hk : k = l
      · rw [hk, beq_self_eq_true, if_pos List.mem_cons_self]
      · rw [beq_false_of_ne hk]
        exact if_congr (List.mem_cons.trans (or_iff_right hk)).symm rfl rfl
  rw [hlookup]
  exact if_congr mem_distinct rfl rfl

theorem counts_ofList (keys : List String) : (ofList keys).Counts keys := by
  rw [ofList_eq]
  refine ⟨?_, lookup_map_distinct keys⟩
  rw [List.map_map]
  exact List.map_id _

theorem sum_ofList (keys : List String) : ((ofList keys).map (·.2)).sum = keys.length := by
  have hcount : (keys.reverse.dedup.map fun k => keys.reverse.count k).sum = keys.reverse.length :=
    List.sum_map_count_dedup_eq_length keys.reverse
  simp only [List.count_reverse, List.length_reverse] at hcount
  rw [ofList_eq, List.map_map, distinct, List.map_reverse, List.sum_reverse]
  exact hcount

/-- Reordered keys are counted alike; only the order of the tally may differ. -/
theorem ofList_perm {keys keys' : List String} (h : keys.Perm keys') : (ofList keys).Perm (ofList keys') := by
  have hcount : ∀ k, keys.count k = keys'.count k := fun k => h.count_eq k
  have hdistinct : (distinct keys).Perm (distinct keys') :=
    (List.perm_ext_iff_of_nodup (nodup_distinct keys) (nodup_distinct keys')).mpr fun k => by
      rw [mem_distinct, mem_distinct, h.mem_iff]
  rw [ofList_eq, ofList_eq]
  simp only [hcount]
  exact hdistinct.map _

end Tally

namespace TraceEvent
variable {α : Type}

theorem colon_not_mem_repr (n : Int) : ':' ∉ n.repr.toList := by
  have hdigits (k : Nat) : ':' ∉ k.repr.toList := by
    rw [Nat.toList_repr]
    intro h
    exact absurd (Nat.isDigit_of_mem_toDigits (by decide) (by decide) h) (by decide)
  rw [Int.repr_eq_if]
  split_ifs
  · exact hdigits _
  · rw [String.toList_append, List.mem_append, not_or]
    exact ⟨by decide, hdigits _⟩

/-- A text is cut at its last colon in one way. -/
theorem append_colon_inj {a b s t : List Char} (hs : ':' ∉ s) (ht : ':' ∉ t) (h : a ++ ':' :: s = b ++ ':' :: t) :
    a = b ∧ s = t := by
  rcases List.append_eq_append_iff.mp h with ⟨c, rfl, hc⟩ | ⟨c, rfl, hc⟩
  · cases c with
    | nil => exact ⟨(List.append_nil a).symm, (List.cons.inj hc).2⟩
    | cons x c =>
      rw [(List.cons.inj hc).2] at hs
      exact absurd (List.mem_append_right _ List.mem_cons_self) hs
  · cases c with
    | nil => exact ⟨List.append_nil b, (List.cons.inj hc).2.symm⟩
    | cons x c =>
      rw [(List.cons.inj hc).2] at ht
      exact absurd (List.mem_append_right _ List.mem_cons_self) ht

/-- The key tells the hemisphere and the lobe apart, whatever the hemisphere is called: the number after the last
colon is the lobe's. -/
theorem lobeKey_eq_iff {e f : TraceEvent α} :
    e.lobeKey = f.lobeKey ↔ e.hemisphere = f.hemisphere ∧ e.lobe = f.lobe := by
  constructor
  · intro h
    have hlist : e.hemisphere.toList ++ ':' :: e.lobe.repr.toList = f.hemisphere.toList ++ ':' :: f.lobe.repr.toList := by
      simpa [lobeKey] using congrArg String.toList h
    obtain ⟨hhemisphere, hlobe⟩ := append_colon_inj (colon_not_mem_repr _) (colon_not_mem_repr _) hlist
    exact ⟨String.toList_inj.mp hhemisphere, Int.repr_inj.mp (String.toList_inj.mp hlobe)⟩
  · rintro ⟨hhemisphere, hlobe⟩
    rw [lobeKey, lobeKey, hhemisphere, hlobe]

end TraceEvent

namespace TraceSummary
variable {α : Type}

structure Conserves (s : TraceSummary) (events : List (TraceEvent α)) : Prop where
  total_eq : s.total = events.length
  directions : s.directions.Counts (events.map (·.direction))
  branches : s.branches.Counts (events.map (·.branch))
  lobes : s.lobes.Counts (events.map (·.lobeKey))
  sum_eq : ∀ t ∈ [s.directions, s.branches, s.lobes], (t.map (·.2)).sum = s.total

structure Alike (s s' : TraceSummary) : Prop where
  total_eq : s.total = s'.total
  directions : s.directions.Perm s'.directions
  branches : s.branches.Perm s'.branches
  lobes : s.lobes.Perm s'.lobes

end TraceSummary

namespace Recorder
variable {α : Type} {r r' : Recorder α}

inductive Operation (α : Type) where
  | record (e : TraceEvent α)
  | clear

namespace Operation

def apply : Operation α → Recorder α → Recorder α
  | record e, r => r.record e
  | clear, r => r.clear

def isClear : Operation α → Bool
  | clear => true
  | record _ => false

def event? : Operation α → Option (TraceEvent α)
  | record e => some e
  | clear => none

end Operation

open Operation

def run (ops : List (Operation α)) (r : Recorder α) : Recorder α := ops.foldl (fun r op => op.apply r) r

def kept (ops : List (Operation α)) : List (TraceEvent α) :=
  (ops.rtakeWhile (!·.isClear)).filterMap event?

theorem events_run (ops : List (Operation α)) : (run ops empty).events.toList = kept ops := by
  induction ops using List.reverseRecOn with
  | nil => rfl
  | append_singleton ops op ih =>
    have hstep : run (ops ++ [op]) empty = op.apply (run ops empty) := List.foldl_concat ..
    rw [hstep, kept]
    cases op with
    | record e =>
      rw [List.rtakeWhile_concat_pos _ _ _ rfl, List.filterMap_append, ← kept, ← ih]
      exact Array.toList_push
    | clear =>
      have hnone : (ops ++ [(.clear : Operation α)]).rtakeWhile (!·.isClear) = [] :=
        List.rtakeWhile_concat_neg _ _ _ (by nofun)
      exact (congrArg (List.filterMap event?) hnone).symm

theorem last_eq (r : Recorder α) : r.last = match r.events.toList.getLast? with
    | some e => .ok e
    | none => .error .nothingRecorded := by
  rw [Array.getLast?_toList]
  rfl

theorem summary_conserves (r : Recorder α) : r.summary.Conserves r.events.toList := by
  refine ⟨r.events.length_toList.symm, Tally.counts_ofList _, Tally.counts_ofList _, Tally.counts_ofList _, ?_⟩
  have hsum (key : TraceEvent α → String) :
      ((Tally.ofList (r.events.toList.map key)).map (·.2)).sum = r.summary.total := by
    rw [Tally.sum_ofList, List.length_map]
    exact r.events.length_toList
  simp only [List.forall_mem_cons]
  exact ⟨hsum _, hsum _, hsum _, nofun⟩

/-! Reordering. -/

theorem events_run_records (es : List (TraceEvent α)) (r : Recorder α) :
    (run (es.map Operation.record) r).events.toList = r.events.toList ++ es := by
  induction es generalizing r with
  | nil => exact (List.append_nil _).symm
  | cons e es ih =>
    have hpush : (r.record e).events.toList = r.events.toList ++ [e] := Array.toList_push
    calc (run (es.map Operation.record) (r.record e)).events.toList = (r.record e).events.toList ++ es := ih _
      _ = r.events.toList ++ e :: es := by rw [hpush, List.append_assoc, List.singleton_append]

theorem apply_perm (op : Operation α) (h : r.events.toList.Perm r'.events.toList) :
    (op.apply r).events.toList.Perm (op.apply r').events.toList := by
  cases op with
  | record e =>
    simp only [apply, Recorder.record, Array.toList_push]
    exact h.append_right [e]
  | clear => exact .refl _

theorem run_perm (ops : List (Operation α)) (h : r.events.toList.Perm r'.events.toList) :
    (run ops r).events.toList.Perm (run ops r').events.toList := by
  induction ops generalizing r r' with
  | nil => exact h
  | cons op ops ih => exact ih (apply_perm op h)

theorem summary_alike (h : r.events.toList.Perm r'.events.toList) : r.summary.Alike r'.summary := by
  refine ⟨?_, Tally.ofList_perm (h.map _), Tally.ofList_perm (h.map _), Tally.ofList_perm (h.map _)⟩
  change r.events.size = r'.events.size
  rw [← Array.length_toList, ← Array.length_toList, h.length_eq]

/-- After any operations the recorder holds the events since the last clearing; the last of them is given out, or
there is none to look up; every event is counted once under its direction, its branch and its lobe, where lobes are
told apart by hemisphere and number; and reordered records leave the same counts. -/
theorem run_summary (ops : List (Operation α)) :
    (run ops empty).events.toList = kept ops ∧
      (∀ e, (run ops empty).last = .ok e ↔ (kept ops).getLast? = some e) ∧
      (∀ f, (run ops empty).last = .error f ↔ kept ops = [] ∧ f = .nothingRecorded) ∧
      (Failure.nothingRecorded : Failure α).kind = .lookup ∧
      (run ops empty).summary.Conserves (kept ops) ∧
      (∀ e f : TraceEvent α, e.lobeKey = f.lobeKey ↔ e.hemisphere = f.hemisphere ∧ e.lobe = f.lobe) ∧
      ∀ (before after : List (Operation α)) {es es' : List (TraceEvent α)}, es.Perm es' →
        (run (before ++ es.map Operation.record ++ after) empty).summary.Alike
          (run (before ++ es'.map Operation.record ++ after) empty).summary := by
  have hlast := last_eq (run ops empty)
  rw [events_run] at hlast
  refine ⟨events_run ops, fun e => ?_, fun f => ?_, rfl, ?_, fun e f => TraceEvent.lobeKey_eq_iff, ?_⟩
  · rw [hlast]
    cases (kept ops).getLast? <;> simp
  · rw [hlast, ← List.getLast?_eq_none_iff]
    cases (kept ops).getLast? <;> simp [eq_comm]
  · rw [← events_run]
    exact summary_conserves _
  · intro before after es es' hperm
    simp only [run, List.foldl_append]
    refine summary_alike (run_perm after ?_)
    change (run (es.map Operation.record) _).events.toList.Perm (run (es'.map Operation.record) _).events.toList
    rw [events_run_records, events_run_records]
    exact hperm.append_left _

/-- Two calls in either order, after a clearing. -/
theorem run_summary_swapped : ∃ e f : TraceEvent Nat, e.lobeKey ≠ f.lobeKey ∧ [e, f].Perm [f, e] ∧
    (run [.record f, .clear, .record e, .record f] empty).summary.Alike
      (run [.record f, .clear, .record f, .record e] empty).summary := by
  let e : TraceEvent Nat := ⟨"forward", "NORTH", 1, 0, "sinusoidal", (1, 2), (3, 4)⟩
  let f : TraceEvent Nat := ⟨"inverse", "SOUTH", 1, 0, "sinusoidal", (3, 4), (1, 2)⟩
  obtain ⟨-, -, -, -, -, hkey, hreordered⟩ := run_summary ([] : List (Operation Nat))
  have hperm : [e, f].Perm [f, e] := .swap f e []
  exact ⟨e, f, fun h => absurd ((hkey e f).mp h).1 (by decide), hperm, hreordered [.record f, .clear] [] hperm⟩

end Recorder
end GoodeMap
