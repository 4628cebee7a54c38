import GoodeMap.Proofs.LoggerCalls
import Mathlib.Data.List.Chain

/-! Any run of requests and entries, from the start. A logger has the severity last asked for and one handler, however
often it was asked for. An entry is written by every logger asked for from its own up to the root, nearest first. Three
things stand against that: no entry at zero or below counts; of two dots in a row the first may be passed over; and the
root keeps a logger that is older than one above it, if its own name begins with the name of that one. -/
namespace GoodeMap
namespace LogTree

def step (t : LogTree) : LogCall → LogTree
  | .request name severity => t.request name severity
  | .log name severity message => (t.log name severity message).1

def after (calls : List LogCall) : LogTree := calls.foldl step fresh

theorem after_concat (calls : List LogCall) (call : LogCall) : after (calls ++ [call]) = (after calls).step call :=
  List.foldl_concat step fresh call calls

/-! The table of loggers. -/

theorem lookup_cons_eq {κ β : Type} [BEq κ] [LawfulBEq κ] [DecidableEq κ] (m k : κ) (v : β) (rest : List (κ × β)) :
    ((k, v) :: rest).lookup m = if m = k then some v else rest.lookup m := by
  rw [List.lookup_cons]
  by_cases h : m = k
  · rw [if_pos h, beq_iff_eq.mpr h]
  · rw [if_neg h, beq_eq_false_iff_ne.mpr h]

section
variable {loggers : List (String × Logger)} {name m : String} {l : Logger}

theorem lookup_insert : (insert name l loggers).lookup m = if m = name then some l else loggers.lookup m := by
  induction loggers with
  | nil => exact lookup_cons_eq m name l []
  | cons entry rest ih =>
    obtain ⟨k, v⟩ := entry
    rw [lookup_cons_eq]
    by_cases hkey : k = name
    · subst hkey
      rw [insert, if_pos rfl, lookup_cons_eq]
      split_ifs <;> rfl
    · rw [insert, if_neg hkey, lookup_cons_eq, ih]
      by_cases hm : m = k
      · rw [if_pos hm, if_pos hm, if_neg (hm ▸ hkey)]
      · rw [if_neg hm, if_neg hm]

theorem names_insert : (insert name l loggers).map (·.1) =
    if name ∈ loggers.map (·.1) then loggers.map (·.1) else loggers.map (·.1) ++ [name] := by
  induction loggers with
  | nil => simp [insert]
  | cons entry rest ih =>
    by_cases hkey : entry.1 = name
    · simp [insert, hkey]
    · simp only [insert, if_neg hkey, List.map_cons, ih, List.mem_cons, Ne.symm hkey, false_or]
      split_ifs <;> rfl

end

section
variable {t : LogTree} {name m : String} {severity : Severity} {message : String}

def known (t : LogTree) : List String := t.loggers.map (·.1)

theorem find_request : (t.request name severity).find m =
    if m = canonical name then ⟨severity, max (t.logger name).handlers 1⟩ else t.find m := by
  simp only [find, request, lookup_insert]
  split_ifs <;> rfl

theorem find_touch : (t.touch name).find m = t.find m := by
  simp only [find, touch, lookup_insert]
  split_ifs with h
  · rw [h]
    rfl
  · rfl

theorem known_step (t : LogTree) (call : LogCall) : (t.step call).known =
    if call.subject ∈ t.known then t.known else t.known ++ [call.subject] := by
  cases call <;> exact names_insert

theorem standsAbove_eq (stem : String) : t.standsAbove stem name =
    decide (stem ∈ if stem.toList <+: rootName.toList then t.known.takeWhile (· ≠ name) else t.known) := by
  have hknown : t.known.takeWhile (· ≠ name) = (t.loggers.takeWhile (·.1 ≠ name)).map (·.1) := by
    rw [known, List.takeWhile_map]
    rfl
  rw [standsAbove, hknown, known]
  simp only [ List.isPrefixOf_iff_prefix]
  split_ifs <;> simp [List.any_eq, eq_comm]

/-- The search meets only stems, in their order. -/
theorem above_sublist (t : LogTree) (m : String) (passOver : Bool) (rev : List Char) :
    (t.above m passOver rev).Sublist (LogCall.stemsOf rev) := by
  induction rev generalizing m passOver with
  | nil => exact .slnil
  | cons c rest ih =>
    rw [above, LogCall.stemsOf]
    by_cases hdot : c = '.' ∧ rest ≠ []
    · rw [if_pos hdot]
      split_ifs
      · exact (ih m false).cons _
      · exact (ih _ false).cons_cons _
      · exact (ih m true).cons _
    · have hskip : c ≠ '.' ∨ passOver ∨ rest = [] := by tauto
      rw [if_neg hdot, if_pos hskip]
      exact ih m false

theorem lineage_sublist (t : LogTree) (name : String) : (t.lineage name).Sublist (LogCall.chain name) := by
  rw [lineage, LogCall.chain]
  split_ifs
  · exact .refl _
  · exact ((t.above_sublist name false _).cons_cons name).append_right [""]

/-- The search meets the known stems of a plain name, if each of them stands above the known ones before it. -/
theorem above_eq {rev : List Char} (hplain : rev.IsChain fun a b => a ≠ '.' ∨ b ≠ '.')
    (hstands : (m :: LogCall.stemsOf rev).Pairwise fun m stem => t.standsAbove stem m = decide (stem ∈ t.known)) :
    t.above m false rev = (LogCall.stemsOf rev).filter (· ∈ t.known) := by
  -- the character after a dot that cuts off nothing known is no dot, so passing it over changes nothing
  have hpass : ∀ (m : String) (rest : List Char), ('.' :: rest).IsChain (fun a b => a ≠ '.' ∨ b ≠ '.') →
      t.above m true rest = t.above m false rest := by
    intro m rest h
    cases rest with
    | nil => rfl
    | cons c rest =>
      have hc : c ≠ '.' := by simpa using (List.isChain_cons_cons.mp h).1
      simp only [above, if_pos (Or.inl hc : c ≠ '.' ∨ _)]
  induction rev generalizing m with
  | nil => rfl
  | cons c rest ih =>
    have hrest := hplain.tail
    by_cases hdot : c = '.' ∧ rest ≠ []
    · obtain ⟨rfl, hne⟩ := hdot
      have hcut : ¬ ('.' ≠ '.' ∨ false ∨ rest = []) := by simpa using hne
      rw [LogCall.stemsOf, if_pos ⟨rfl, hne⟩] at hstands ⊢
      obtain ⟨hfirst, htail⟩ := List.pairwise_cons.mp hstands
      rw [above, if_neg hcut, hfirst _ List.mem_cons_self]
      by_cases hknown : String.ofList rest.reverse ∈ t.known
      · rw [List.filter_cons_of_pos (by simpa using hknown), if_pos (by simpa using hknown), ih hrest htail]
      · rw [List.filter_cons_of_neg (by simpa using hknown), if_neg (by simpa using hknown), hpass _ _ hplain]
        exact ih hrest (hstands.sublist ((List.sublist_cons_self _ _).cons_cons _))
    · have hskip : c ≠ '.' ∨ false ∨ rest = [] := by tauto
      rw [LogCall.stemsOf, if_neg hdot] at hstands ⊢
      rw [above, if_pos hskip]
      exact ih hrest hstands

end

/-! The tree after a run. -/

section
open LogCall (names standing threshold chain stems Plain InOrder Requested lines lastAsked?)
variable {t : LogTree} {calls : List LogCall} {name : String} {severity : Severity} {message : String}

/-- What the calls alone tell is what the tree holds. A decision that stands is the one that would be made now. -/
structure Reflects (t : LogTree) (calls : List LogCall) : Prop where
  mem_known : ∀ name, name ∈ t.known ↔ name ∈ names calls
  known_before : ∀ m name, name ∈ t.known.takeWhile (· ≠ m) ↔ name ∈ (names calls).takeWhile (· ≠ m)
  find_eq : ∀ name, t.find name = standing calls name
  decided_pos : ∀ name severity, t.decisions.lookup (name, severity) = some true → 0 < severity
  decided : ∀ name severity accepted, t.decisions.lookup (name, severity) = some accepted → Plain name →
    InOrder (names calls) name → accepted = decide (0 < severity ∧ threshold calls name ≤ severity)

namespace Reflects

/-- A stem stands above a name if it is known, unless it is held by the root and comes too late. -/
theorem standsAbove_eq (h : t.Reflects calls) {stem : String} (hne : stem ≠ "")
    (horder : LogCall.Precedes (names calls) name stem) :
    t.standsAbove stem name = decide (stem ∈ t.known) := by
  rw [LogTree.standsAbove_eq]
  split_ifs with hinitial
  · rw [decide_eq_decide, h.known_before]
    constructor
    · intro hbefore
      exact (h.mem_known stem).mpr ((List.takeWhile_sublist _).subset hbefore)
    · intro hknown
      have hmem := (h.mem_known stem).mp hknown
      have hroot : stem ≠ rootName := fun heq => LogCall.root_not_mem_names calls (heq ▸ hmem)
      exact horder (LogCall.mem_held hinitial hne hroot) hmem
  · rfl

theorem lineage_eq (h : t.Reflects calls) (hname : name ∈ names calls) (hplain : Plain name)
    (horder : InOrder (names calls) name) : t.lineage name = (chain name).filter (· ∈ names calls) := by
  have hroot : "" ∈ names calls := List.mem_cons_self
  rw [lineage, chain]
  split_ifs with hempty
  · simp [hroot]
  · have habove : t.above name false name.toList.reverse = (stems name).filter (· ∈ t.known) := by
      refine above_eq ?_ ?_
      · refine List.isChain_reverse.mpr (hplain.imp fun a b hab => hab.symm)
      · refine List.Pairwise.imp_of_mem (fun {m stem} _ hstem hpair => ?_) horder
        refine h.standsAbove_eq ?_ hpair
        rcases List.mem_cons.mp hstem with rfl | hstem
        · exact hempty
        · exact (LogCall.mem_stems_iff.mp hstem).1
    simp [habove, h.mem_known, List.filter_append, hname, hroot]

theorem effective_eq (h : t.Reflects calls) (hname : name ∈ names calls) (hplain : Plain name)
    (horder : InOrder (names calls) name) : t.effective name = threshold calls name := by
  have hset : ∀ n, ((standing calls n).severity ≠ 0) = (n ∈ names calls ∧ (standing calls n).severity ≠ 0) := by
    intro n
    refine propext (iff_and_self.mpr fun hn => ?_)
    by_contra hnot
    rw [LogCall.standing_of_not_mem hnot] at hn
    exact hn rfl
  rw [effective, threshold, h.lineage_eq hname hplain horder]
  simp only [h.find_eq, List.find?_map, List.find?_filter, Function.comp_def]
  simp only [decide_eq_true_eq, ← hset]

theorem accepts_eq (h : t.Reflects calls) (hname : name ∈ names calls) (hplain : Plain name)
    (horder : InOrder (names calls) name) (severity : Severity) :
    t.accepts name severity = decide (0 < severity ∧ threshold calls name ≤ severity) := by
  rw [accepts]
  cases hlookup : t.decisions.lookup (name, severity) with
  | some accepted => exact h.decided name severity accepted hlookup hplain horder
  | none =>
    rw [Option.getD_none, h.effective_eq hname hplain horder, Bool.decide_and]

theorem pos_of_accepts (h : t.Reflects calls) (haccepts : t.accepts name severity = true) : 0 < severity := by
  rw [accepts] at haccepts
  cases hlookup : t.decisions.lookup (name, severity) with
  | some accepted =>
    rw [hlookup, Option.getD_some] at haccepts
    exact h.decided_pos name severity (haccepts ▸ hlookup)
  | none =>
    rw [hlookup, Option.getD_none, Bool.and_eq_true] at haccepts
    exact of_decide_eq_true haccepts.1

theorem written_eq (h : t.Reflects calls) (name : String) (severity : Severity) (message : String) :
    t.written ⟨name, severity, message⟩ =
      ((t.lineage name).filter (Requested calls)).map fun _ => ⟨shownName name, severity, message⟩ := by
  simp only [written, h.find_eq]
  exact LogCall.flatMap_handlers calls _ _

/-- The names of a tree and those of the calls come from one order of use. -/
theorem known_concat (h : t.Reflects calls) (t' : LogTree) (call : LogCall) (hknown : t'.known =
    if call.subject ∈ t.known then t.known else t.known ++ [call.subject]) :
    (∀ name, name ∈ t'.known ↔ name ∈ names (calls ++ [call])) ∧
      ∀ m name, name ∈ t'.known.takeWhile (· ≠ m) ↔ name ∈ (names (calls ++ [call])).takeWhile (· ≠ m) := by
  rw [LogCall.names_concat, hknown]
  split_ifs with hold
  · have hused := (h.mem_known _).mp hold
    constructor
    · intro name
      rw [h.mem_known, List.mem_append, List.mem_singleton]
      exact ⟨.inl, fun hname => hname.elim id fun heq => heq ▸ hused⟩
    · intro m name
      rw [h.known_before, LogCall.mem_takeWhile_concat, iff_self_or]
      rintro ⟨hm, -, rfl⟩
      exact LogCall.mem_takeWhile_of_not_mem hm hused
  · constructor
    · intro name
      rw [List.mem_append, List.mem_append, h.mem_known]
    · intro m name
      rw [LogCall.mem_takeWhile_concat, LogCall.mem_takeWhile_concat, h.known_before, h.mem_known]

theorem request (h : t.Reflects calls) (n : String) (severity : Severity) :
    (t.request n severity).Reflects (calls ++ [.request n severity]) := by
  obtain ⟨hmem, hbefore⟩ := h.known_concat _ _ (known_step t (.request n severity))
  refine ⟨hmem, hbefore, fun name => ?_, nofun, nofun⟩
  have hhandlers : max (t.logger n).handlers 1 = 1 := by
    rw [logger, h.find_eq]
    by_cases hasked : Requested calls (canonical n)
    · rw [LogCall.handlers_of_requested hasked]
      rfl
    · rw [LogCall.handlers_of_not_requested hasked]
      rfl
  rw [find_request, LogCall.standing_concat_request, hhandlers, h.find_eq]

/-- To log makes the name known and decides nothing anew. -/
theorem touch (h : t.Reflects calls) (n : String) (severity : Severity) (message : String) :
    (t.touch (canonical n)).Reflects (calls ++ [.log n severity message]) := by
  obtain ⟨hmem, hbefore⟩ := h.known_concat (t.touch (canonical n)) _ (known_step t (.log n severity message))
  refine ⟨hmem, hbefore, fun name => ?_, h.decided_pos, fun name s accepted hlookup hplain horder => ?_⟩
  · rw [find_touch, LogCall.standing_concat_log, h.find_eq]
  · rw [LogCall.threshold_concat_log]
    exact h.decided name s accepted hlookup hplain (LogCall.names_concat ▸ horder).of_concat

theorem log (h : t.Reflects calls) (n : String) (severity : Severity) (message : String) :
    (t.log n severity message).1.Reflects (calls ++ [.log n severity message]) := by
  have htouched := h.touch n severity message
  have hname := LogCall.mem_names_concat_log calls n severity message
  refine ⟨htouched.mem_known, htouched.known_before, htouched.find_eq, ?_, ?_⟩
  · intro name s hlookup
    rw [LogTree.log, lookup_cons_eq] at hlookup
    split_ifs at hlookup with hnew
    · cases hnew
      exact htouched.pos_of_accepts (Option.some.inj hlookup)
    · exact htouched.decided_pos name s hlookup
  · intro name s accepted hlookup hplain horder
    rw [LogTree.log, lookup_cons_eq] at hlookup
    split_ifs at hlookup with hnew
    · cases hnew
      cases hlookup
      exact htouched.accepts_eq hname hplain horder severity
    · exact htouched.decided name s accepted hlookup hplain horder

/-- Whatever the name, an entry is written by none or once by each logger asked for among some above it. -/
theorem exists_log_eq (h : t.Reflects calls) (name : String) (severity : Severity) (message : String) :
    ∃ ns : List String, ns.Sublist (chain (canonical name)) ∧ (severity ≤ 0 → ns = []) ∧
      (t.log name severity message).2 =
        (ns.filter (Requested calls)).map fun _ => ⟨shownName (canonical name), severity, message⟩ := by
  have htouched := h.touch name severity message
  cases haccepts : (t.touch (canonical name)).accepts (canonical name) severity with
  | false =>
    refine ⟨[], List.nil_sublist _, fun _ => rfl, ?_⟩
    simp only [LogTree.log, haccepts]
    rfl
  | true =>
    refine ⟨_, lineage_sublist (t.touch (canonical name)) _, fun hle => ?_, ?_⟩
    · exact absurd (htouched.pos_of_accepts haccepts) (Int.not_lt.mpr hle)
    · simp only [LogTree.log, haccepts, if_true, htouched.written_eq, LogCall.filter_requested_concat_log]

theorem log_eq (h : t.Reflects calls) (hplain : Plain (canonical name))
    (horder : InOrder (names calls) (canonical name)) : (t.log name severity message).2 =
      if 0 < severity then lines calls (canonical name) severity message else [] := by
  have htouched := h.touch name severity message
  have hname := LogCall.mem_names_concat_log calls name severity message
  have horder' : InOrder (names (calls ++ [.log name severity message])) (canonical name) := by
    rw [LogCall.names_concat]
    exact horder.concat_self
  rw [LogTree.log, htouched.accepts_eq hname hplain horder', htouched.written_eq,
    htouched.lineage_eq hname hplain horder', LogCall.filter_requested_filter_names,
    LogCall.threshold_concat_log, LogCall.filter_requested_concat_log, lines]
  simp only [decide_eq_true_eq, ite_and]

theorem step (h : t.Reflects calls) (call : LogCall) : (t.step call).Reflects (calls ++ [call]) := by
  cases call with
  | request n severity => exact h.request n severity
  | log n severity message => exact h.log n severity message

end Reflects

theorem reflects_fresh : fresh.Reflects [] := by
  refine ⟨fun _ => Iff.rfl, fun _ _ => Iff.rfl, fun name => ?_, nofun, nofun⟩
  have hnone : ¬ Requested [] name := Bool.false_ne_true
  rw [LogCall.standing_of_not_requested hnone, find, fresh, lookup_cons_eq]
  split_ifs <;> rfl

theorem reflects_after (calls : List LogCall) : (after calls).Reflects calls := by
  induction calls using List.reverseRecOn with
  | nil => exact reflects_fresh
  | append_singleton calls call ih =>
    rw [after_concat]
    exact ih.step call

/-- From the start, whatever is asked for and logged in between: a logger that was asked for has one handler and the
severity last asked for, any other has none. An entry above zero is written once by every logger asked for among its
own, those whose names the dots cut off from its own, and the root, the longest name first, if it reaches the
nearest severity that is set among them, and by none otherwise; an entry at zero or below is never written. This asks
that no two dots stand in a row in the name of the entry, and that a name of those that the root's begins with, where
a dot cuts it off, is not used for the first time after the entry's name or one in between; without it an entry is
still written at most once by each of these loggers. -/
theorem run_writes (calls : List LogCall) :
    (∀ name severity, lastAsked? calls (canonical name) = some severity →
      (after calls).logger name = ⟨severity, 1⟩) ∧
    (∀ name, ¬ Requested calls (canonical name) → ((after calls).logger name).handlers = 0) ∧
    (∀ name, (chain name).Pairwise (fun m stem => stem.length < m.length) ∧
      ∀ m, m ∈ chain name ↔ m = name ∨ m = "" ∨ ∃ rest, name = m ++ "." ++ rest) ∧
    (∀ name severity message, ∃ ns : List String, ns.Sublist (chain (canonical name)) ∧ (severity ≤ 0 → ns = []) ∧
      ((after calls).log name severity message).2 =
        (ns.filter (Requested calls)).map fun _ => ⟨shownName (canonical name), severity, message⟩) ∧
    ∀ name severity message, Plain (canonical name) → InOrder (names calls) (canonical name) →
      ((after calls).log name severity message).2 =
        if 0 < severity then lines calls (canonical name) severity message else [] := by
  have h := reflects_after calls
  refine ⟨fun name severity hlast => ?_, fun name hnot => ?_, fun name => ⟨LogCall.chain_pairwise name,
    fun _ => LogCall.mem_chain_iff⟩, h.exists_log_eq, fun _ _ _ => h.log_eq⟩
  · rw [logger, h.find_eq, standing, hlast]
  · rw [logger, h.find_eq, LogCall.handlers_of_not_requested hnot]

/-- Two loggers, one above the other: an entry of the lower one is written by both. -/
theorem run_writes_nested : Plain "o.a.b" ∧
    InOrder (names [.request "o.a" 20, .request "o.a.b" 20]) "o.a.b" ∧
    ((after [.request "o.a" 20, .request "o.a.b" 20]).log "o.a.b" 30 "twice").2 =
      [⟨"o.a.b", 30, "twice"⟩, ⟨"o.a.b", 30, "twice"⟩] := by
  obtain ⟨-, -, -, -, hlog⟩ := run_writes [.request "o.a" 20, .request "o.a.b" 20]
  have hplain : Plain (canonical "o.a.b") := by decide
  have horder : InOrder (names [.request "o.a" 20, .request "o.a.b" 20]) (canonical "o.a.b") := by decide +kernel
  refine ⟨hplain, horder, (hlog "o.a.b" 30 "twice" hplain horder).trans ?_⟩
  decide +kernel

/-- Without these conditions the lines that stand above are not what is written: the root keeps a logger older than
`r`, an entry below zero is silent, and a logger before two dots is passed over. -/
theorem run_writes_fails :
    ((after [.request "r.x" 20, .request "r" 20]).log "r.x" 20 "m").2 ≠
        lines [.request "r.x" 20, .request "r" 20] "r.x" 20 "m" ∧
      ((after [.request "a" (-5)]).log "a" (-3) "m").2 ≠ lines [.request "a" (-5)] "a" (-3) "m" ∧
      ((after [.request "a" 20]).log "a..b" 20 "m").2 ≠ lines [.request "a" 20] "a..b" 20 "m" := by
  decide +kernel

end

end LogTree
end GoodeMap
