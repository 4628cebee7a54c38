import GoodeMap.Logging.Tree
import Mathlib.Data.List.Infix
import Mathlib.Data.List.TakeWhile

/-! Calls of the log, and what they alone tell of the loggers: which are asked for, with which severity, in which order
their names are used, and what a run should write. -/
namespace GoodeMap

inductive LogCall where
  | request (name : String) (severity : Severity)
  | log (name : String) (severity : Severity) (message : String)

namespace LogCall
open LogTree (canonical shownName rootName)

def subject : LogCall → String
  | request name _ => canonical name
  | log name _ _ => canonical name

def asks? (name : String) : LogCall → Option Severity
  | request asked severity => if canonical asked = name then some severity else none
  | log .. => none

def lastAsked? (calls : List LogCall) (name : String) : Option Severity := (calls.filterMap (asks? name)).getLast?

def Requested (calls : List LogCall) (name : String) : Prop := (lastAsked? calls name).isSome

instance (calls : List LogCall) (name : String) : Decidable (Requested calls name) :=
  inferInstanceAs (Decidable ((lastAsked? calls name).isSome = true))

def names (calls : List LogCall) : List String := "" :: calls.map subject

def standing (calls : List LogCall) (name : String) : Logger :=
  match lastAsked? calls name with
  | some severity => ⟨severity, 1⟩
  | none => ⟨if name = "" then Severity.warning else 0, 0⟩

def stemsOf : List Char → List String
  | [] => []
  | c :: rest => if c = '.' ∧ rest ≠ [] then String.ofList rest.reverse :: stemsOf rest else stemsOf rest

def stems (name : String) : List String := stemsOf name.toList.reverse

def chain (name : String) : List String := if name = "" then [""] else name :: stems name ++ [""]

def threshold (calls : List LogCall) (name : String) : Severity :=
  (((chain name).map fun n => (standing calls n).severity).find? (· ≠ 0)).getD 0

def lines (calls : List LogCall) (name : String) (severity : Severity) (message : String) : List LogEntry :=
  if threshold calls name ≤ severity then
    ((chain name).filter (Requested calls)).map fun _ => ⟨shownName name, severity, message⟩
  else []

def Plain (name : String) : Prop := name.toList.IsChain fun a b => a ≠ '.' ∨ b ≠ '.'

instance (name : String) : Decidable (Plain name) :=
  inferInstanceAs (Decidable (name.toList.IsChain fun a b => a ≠ '.' ∨ b ≠ '.'))

def Precedes (names : List String) (m stem : String) : Prop :=
  stem ∈ ["r", "ro", "roo"] → stem ∈ names → stem ∈ names.takeWhile (· ≠ m)

instance (names : List String) (m stem : String) : Decidable (Precedes names m stem) :=
  inferInstanceAs (Decidable (_ → _ → _))

/-- Of a name and those above it, each that the root's name begins with is used before the ones below it. -/
def InOrder (names : List String) (name : String) : Prop := (name :: stems name).Pairwise (Precedes names)

instance (names : List String) (name : String) : Decidable (InOrder names name) :=
  inferInstanceAs (Decidable (List.Pairwise _ _))

theorem mem_stemsOf_iff {rev : List Char} {stem : String} :
    stem ∈ stemsOf rev ↔ stem ≠ "" ∧ ∃ rest, rev = rest ++ '.' :: stem.toList.reverse := by
  induction rev with
  | nil => simp [stemsOf]
  | cons c rev ih =>
    have hsplit : (∃ rest, c :: rev = rest ++ '.' :: stem.toList.reverse) ↔
        (c = '.' ∧ stem = String.ofList rev.reverse) ∨ ∃ rest, rev = rest ++ '.' :: stem.toList.reverse := by
      constructor
      · rintro ⟨rest, h⟩
        cases rest with
        | nil =>
          obtain ⟨rfl, rfl⟩ := List.cons.inj h
          exact .inl ⟨rfl, by simp⟩
        | cons d rest =>
          obtain ⟨-, rfl⟩ := List.cons.inj h
          exact .inr ⟨rest, rfl⟩
      · rintro (⟨rfl, rfl⟩ | ⟨rest, rfl⟩)
        · exact ⟨[], by simp⟩
        · exact ⟨c :: rest, rfl⟩
    have hempty : stem = String.ofList rev.reverse → (stem ≠ "" ↔ rev ≠ []) := by
      rintro rfl
      simp
    rw [hsplit, stemsOf]
    split_ifs with h
    · rw [List.mem_cons, ih]
      grind
    · grind

theorem mem_stems_iff {name stem : String} : stem ∈ stems name ↔ stem ≠ "" ∧ ∃ rest, name = stem ++ "." ++ rest := by
  rw [stems, mem_stemsOf_iff]
  refine and_congr_right fun _ => ⟨?_, ?_⟩
  · rintro ⟨rest, h⟩
    refine ⟨String.ofList rest.reverse, String.toList_injective ?_⟩
    rw [← List.reverse_reverse name.toList, h]
    simp
  · rintro ⟨rest, rfl⟩
    exact ⟨rest.toList.reverse, by simp⟩

theorem length_lt_of_mem_stems {name stem : String} (h : stem ∈ stems name) : stem.length < name.length := by
  obtain ⟨-, rest, rfl⟩ := mem_stems_iff.mp h
  simp only [String.length_append]
  have : ".".length = 1 := rfl
  omega

theorem stemsOf_pairwise (rev : List Char) : (stemsOf rev).Pairwise fun m stem => stem.length < m.length := by
  induction rev with
  | nil => exact .nil
  | cons c rest ih =>
    rw [stemsOf]
    split_ifs with h
    · refine List.pairwise_cons.mpr ⟨fun stem hstem => ?_, ih⟩
      refine length_lt_of_mem_stems ?_
      rwa [stems, String.toList_ofList, List.reverse_reverse]
    · exact ih

theorem mem_chain_iff {name m : String} :
    m ∈ chain name ↔ m = name ∨ m = "" ∨ ∃ rest, name = m ++ "." ++ rest := by
  rw [chain]
  split_ifs with h
  · subst h
    simp
  · rw [List.mem_append, List.mem_cons, mem_stems_iff, List.mem_singleton]
    tauto

/-- The chain goes from the longest name to the shortest. -/
theorem chain_pairwise (name : String) : (chain name).Pairwise fun m stem => stem.length < m.length := by
  rw [chain]
  split_ifs with h
  · exact List.pairwise_singleton _ _
  · have hpos : ∀ m ∈ name :: stems name, 0 < m.length := by
      intro m hm
      have hne : m ≠ "" := by
        rcases List.mem_cons.mp hm with rfl | hstem
        · exact h
        · exact (mem_stems_iff.mp hstem).1
      exact Nat.pos_of_ne_zero (String.length_eq_zero_iff.not.mpr hne)
    refine List.pairwise_append.mpr ⟨?_, List.pairwise_singleton _ _, fun m hm root hroot => ?_⟩
    · exact List.pairwise_cons.mpr ⟨fun _ => length_lt_of_mem_stems, stemsOf_pairwise _⟩
    · rw [List.mem_singleton.mp hroot]
      exact hpos m hm

section
variable {calls : List LogCall} {call : LogCall} {name : String}

theorem lastAsked?_concat : lastAsked? (calls ++ [call]) name = (call.asks? name).or (lastAsked? calls name) := by
  rw [lastAsked?, List.filterMap_append, List.getLast?_append]
  cases h : call.asks? name <;> simp [h, lastAsked?]

theorem names_concat : names (calls ++ [call]) = names calls ++ [call.subject] := by
  simp [names]

theorem mem_names_concat_log (calls : List LogCall) (n : String) (severity : Severity) (message : String) :
    canonical n ∈ names (calls ++ [.log n severity message]) := by
  rw [names_concat]
  exact List.mem_append_right _ (List.mem_singleton_self _)

theorem mem_names_of_requested (h : Requested calls name) : name ∈ names calls := by
  obtain ⟨severity, hlast⟩ := Option.isSome_iff_exists.mp h
  obtain ⟨call, hcall, hasks⟩ := List.mem_filterMap.mp (List.mem_of_getLast? hlast)
  refine List.mem_cons_of_mem _ (List.mem_map.mpr ⟨call, hcall, ?_⟩)
  cases call with
  | request asked severity =>
    simp only [asks?] at hasks
    split_ifs at hasks with heq
    exact heq
  | log => cases hasks

theorem standing_of_not_requested (h : ¬ Requested calls name) :
    standing calls name = ⟨if name = "" then Severity.warning else 0, 0⟩ := by
  rw [Requested, Option.not_isSome_iff_eq_none] at h
  rw [standing, h]

theorem standing_of_not_mem (h : name ∉ names calls) : standing calls name = ⟨0, 0⟩ := by
  rw [standing_of_not_requested fun hasked => h (mem_names_of_requested hasked), if_neg]
  rintro rfl
  exact h List.mem_cons_self

theorem mem_held {stem : String} (h : stem.toList <+: rootName.toList) (hne : stem ≠ "")
    (hroot : stem ≠ rootName) : stem ∈ ["r", "ro", "roo"] := by
  have hinits : stem.toList ∈ ["", "r", "ro", "roo", rootName].map String.toList := (List.mem_inits _ _).mpr h
  obtain ⟨n, hn, heq⟩ := List.mem_map.mp hinits
  rw [String.toList_inj.mp heq] at hn
  simpa [hne, hroot] using hn

theorem root_not_mem_names (calls : List LogCall) : rootName ∉ names calls := by
  have hcanonical : ∀ name, canonical name ≠ rootName := by
    intro name
    rw [canonical]
    split_ifs with h
    · decide
    · exact h
  rw [names, List.mem_cons, not_or]
  refine ⟨by decide, fun h => ?_⟩
  obtain ⟨call, -, hcall⟩ := List.mem_map.mp h
  cases call <;> exact hcanonical _ hcall

theorem standing_concat_log (n : String) (severity : Severity) (message : String) :
    standing (calls ++ [.log n severity message]) name = standing calls name := by
  rw [standing, lastAsked?_concat]
  rfl

theorem standing_concat_request (n : String) (severity : Severity) :
    standing (calls ++ [.request n severity]) name =
      if name = canonical n then ⟨severity, 1⟩ else standing calls name := by
  rw [standing, lastAsked?_concat]
  simp only [asks?]
  by_cases h : canonical n = name
  · simp [h]
  · simp only [if_neg h, if_neg (Ne.symm h)]
    rfl

theorem threshold_concat_log (n : String) (severity : Severity) (message : String) :
    threshold (calls ++ [.log n severity message]) name = threshold calls name := by
  simp only [threshold, standing_concat_log]

theorem filter_requested_concat_log (n : String) (severity : Severity) (message : String) (ns : List String) :
    ns.filter (Requested (calls ++ [.log n severity message])) = ns.filter (Requested calls) :=
  List.filter_congr fun m _ => by rw [decide_eq_decide, Requested, lastAsked?_concat]; rfl

theorem handlers_of_requested (h : Requested calls name) : (standing calls name).handlers = 1 := by
  obtain ⟨severity, hlast⟩ := Option.isSome_iff_exists.mp h
  rw [standing, hlast]

theorem handlers_of_not_requested (h : ¬ Requested calls name) : (standing calls name).handlers = 0 := by
  rw [standing_of_not_requested h]

/-- Of any names, those asked for have a handler. -/
theorem flatMap_handlers (calls : List LogCall) (e : LogEntry) (ns : List String) :
    (ns.flatMap fun n => List.replicate (standing calls n).handlers e) =
      (ns.filter (Requested calls)).map fun _ => e := by
  induction ns with
  | nil => rfl
  | cons n ns ih =>
    rw [List.flatMap_cons, ih]
    by_cases hasked : Requested calls n
    · rw [handlers_of_requested hasked, List.filter_cons_of_pos (by simpa using hasked)]
      rfl
    · rw [handlers_of_not_requested hasked, List.filter_cons_of_neg (by simpa using hasked)]
      rfl

theorem filter_requested_filter_names (calls : List LogCall) (ns : List String) :
    (ns.filter (· ∈ names calls)).filter (Requested calls) = ns.filter (Requested calls) := by
  rw [List.filter_filter]
  refine List.filter_congr fun n _ => ?_
  rw [← Bool.decide_and, decide_eq_decide]
  exact and_iff_left_of_imp mem_names_of_requested

/-- A new name is used last, before all that are not used yet. -/
theorem mem_takeWhile_concat {xs : List String} {m x stem : String} : stem ∈ (xs ++ [x]).takeWhile (· ≠ m) ↔
    stem ∈ xs.takeWhile (· ≠ m) ∨ (m ∉ xs ∧ x ≠ m ∧ stem = x) := by
  by_cases hm : m ∈ xs
  · have hstop : (xs ++ [x]).takeWhile (· ≠ m) = xs.takeWhile (· ≠ m) := by
      obtain ⟨before, rest, rfl, hbefore⟩ := List.eq_append_cons_of_mem hm
      have hpass : ∀ y ∈ before, decide (y ≠ m) = true := by
        intro y hy
        simpa using ne_of_mem_of_not_mem hy hbefore
      rw [List.append_assoc, List.cons_append, List.takeWhile_append_of_pos hpass,
        List.takeWhile_append_of_pos hpass, List.takeWhile_cons_of_neg (by simp), List.takeWhile_cons_of_neg (by simp)]
    rw [hstop, or_iff_left fun h => h.1 hm]
  · have hpass : ∀ y ∈ xs, decide (y ≠ m) = true := by
      intro y hy
      simpa using ne_of_mem_of_not_mem hy hm
    rw [List.takeWhile_append_of_pos hpass, List.mem_append, List.takeWhile_eq_self_iff.mpr hpass]
    refine or_congr_right ?_
    by_cases hx : x = m
    · simp [hx]
    · simp [hx, hm]

theorem mem_takeWhile_of_not_mem {xs : List String} {m stem : String} (hm : m ∉ xs) (hstem : stem ∈ xs) :
    stem ∈ xs.takeWhile (· ≠ m) := by
  rwa [List.takeWhile_eq_self_iff.mpr fun y hy => by simpa using ne_of_mem_of_not_mem hy hm]

/-- What is in order after a further name was in order before. -/
theorem InOrder.of_concat {names : List String} {x : String} (h : InOrder (names ++ [x]) name) :
    InOrder names name := by
  refine List.Pairwise.imp (fun {m stem} hpair hheld hstem => ?_) h
  by_cases hm : m ∈ names
  · rcases mem_takeWhile_concat.mp (hpair hheld (List.mem_append_left _ hstem)) with hbefore | ⟨hnot, -⟩
    · exact hbefore
    · exact absurd hm hnot
  · exact mem_takeWhile_of_not_mem hm hstem

theorem Precedes.concat {names : List String} {m stem : String} (h : Precedes names m stem) (hne : stem ≠ name) :
    Precedes (names ++ [name]) m stem := by
  intro hheld hmem
  refine mem_takeWhile_concat.mpr (.inl (h hheld ?_))
  rcases List.mem_append.mp hmem with hmem | hmem
  · exact hmem
  · exact absurd (List.mem_singleton.mp hmem) hne

/-- A name does not upset its own order. -/
theorem InOrder.concat_self {names : List String} (h : InOrder names name) : InOrder (names ++ [name]) name := by
  have hne : ∀ stem ∈ stems name, stem ≠ name := by
    rintro stem hstem rfl
    exact absurd (length_lt_of_mem_stems hstem) (lt_irrefl _)
  obtain ⟨hfirst, hrest⟩ := List.pairwise_cons.mp h
  refine List.pairwise_cons.mpr ⟨fun stem hstem => (hfirst stem hstem).concat (hne stem hstem), ?_⟩
  exact hrest.imp_of_mem fun {m stem} _ hstem hpair => hpair.concat (hne stem hstem)

end

end LogCall
end GoodeMap
