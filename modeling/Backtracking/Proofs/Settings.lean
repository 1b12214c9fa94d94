import Backtracking.Analyzer
import Backtracking.Proofs.Construction
import Mathlib.Data.List.Induction

/-!
# Analyzers and their settings

An analyzer is made by settings, one after another: each sets one limit, or takes all limits back
to the defaults.  The order in which different limits are set does not matter, and a limit of one
kind says nothing about questions of the other kind.

**Questions.**  Whatever an analyzer is asked goes to the automaton of the pattern, if there is
one (`ask`).  So a text that is no pattern is refused in the same way by every question, and a
question that is cut short fails with its limit.

**Results.**
* `Analyzer.ofSettings_eq`: every limit is the one that was set last.
* `Analyzer.observe_filter`: settings that do not show can be left out.
* `Analyzer.answers_of_settings`: what the questions are answered under any settings.
-/

namespace Backtracking

/-- What can be set on an analyzer. -/
inductive Setting
  | maxRounds (limit : Option Nat)
  | maxPaths (limit : Option Nat)
  | pruneLoops (prune : Bool)
  | maxSteps (limit : Option Nat)
  /-- All limits are the defaults again. -/
  | restart
  deriving DecidableEq

namespace Setting

/-- The limit on rounds that is set. -/
def maxRounds? : Setting → Option (Option Nat)
  | maxRounds limit => some limit
  | _ => none

/-- The limit on paths that is set. -/
def maxPaths? : Setting → Option (Option Nat)
  | maxPaths limit => some limit
  | _ => none

/-- What is set about looped paths. -/
def pruneLoops? : Setting → Option Bool
  | pruneLoops prune => some prune
  | _ => none

/-- The limit on steps that is set. -/
def maxSteps? : Setting → Option (Option Nat)
  | maxSteps limit => some limit
  | _ => none

/-- Whether the setting is about searches. -/
def onSearch : Setting → Bool
  | maxSteps _ => false
  | _ => true

/-- Whether the setting is about checks. -/
def onCheck : Setting → Bool
  | maxSteps _ | restart => true
  | _ => false

/-- The newest of the values that are set behind the last restart, and the default if there is
none. -/
def newest {α : Type} (value? : Setting → Option α) (default : α) (settings : List Setting) : α :=
  ((settings.reverse.takeWhile fun s => s != restart).findSome? value?).getD default

theorem newest_concat {α : Type} (value? : Setting → Option α) (default : α)
    (settings : List Setting) (s : Setting) :
    newest value? default (settings ++ [s]) =
      if s = restart then default else (value? s).getD (newest value? default settings) := by
  rw [newest, List.reverse_append, List.reverse_singleton, List.singleton_append,
    List.takeWhile_cons]
  by_cases hs : s = restart
  · rw [if_pos hs, hs]
    rfl
  · rw [if_pos (bne_iff_ne.mpr hs), if_neg hs, List.findSome?_cons]
    cases value? s with
    | none => rfl
    | some value => rfl

end Setting

open Setting

/-- The limits of a search that were set last. -/
def SearchLimits.newest (settings : List Setting) : SearchLimits where
  maxRounds := Setting.newest maxRounds? (some 10000) settings
  maxPaths := Setting.newest maxPaths? (some 1000000) settings
  pruneLoops := Setting.newest pruneLoops? true settings

/-- The limits of a check that were set last. -/
def CheckLimits.newest (settings : List Setting) : CheckLimits where
  maxSteps := Setting.newest maxSteps? (some 1000000) settings

namespace Analyzer

/-- One setting. -/
def set (a : Analyzer) : Setting → Analyzer
  | .maxRounds limit => a.withMaxRounds limit
  | .maxPaths limit => a.withMaxPaths limit
  | .pruneLoops prune => a.withPruneLoops prune
  | .maxSteps limit => a.withMaxSteps limit
  | .restart => {}

/-- The analyzer that some settings make, one after another. -/
def ofSettings (settings : List Setting) : Analyzer :=
  settings.foldl set {}

theorem ofSettings_concat (settings : List Setting) (s : Setting) :
    ofSettings (settings ++ [s]) = (ofSettings settings).set s :=
  List.foldl_concat set {} s settings

/-- Every limit is the one that was set last. -/
theorem ofSettings_eq (settings : List Setting) :
    ofSettings settings = ⟨.newest settings, .newest settings⟩ := by
  induction settings using List.reverseRecOn with
  | nil =>
      rfl
  | append_singleton settings s ih =>
      rw [ofSettings_concat, ih]
      cases s <;>
        simp only [SearchLimits.newest, CheckLimits.newest, newest_concat, if_true, reduceCtorEq,
          if_false] <;>
        rfl

/-- A restart forgets what was set, and a later limit replaces an earlier one. -/
example : ofSettings [.maxRounds (some 7), .restart, .maxSteps (some 9), .maxSteps none] =
    { checkLimits := { maxSteps := none } } := by
  rfl

/-- Where what is observed of an analyzer is set by some settings only, the others can be left
out. -/
theorem observe_filter {α : Type} {observe : Analyzer → α} {shows : Setting → Bool}
    (determined : ∀ a b s, observe a = observe b → observe (a.set s) = observe (b.set s))
    (hidden : ∀ a s, shows s = false → observe (a.set s) = observe a) (settings : List Setting) :
    observe (ofSettings (settings.filter shows)) = observe (ofSettings settings) := by
  induction settings using List.reverseRecOn with
  | nil =>
      rfl
  | append_singleton settings s ih =>
      rw [List.filter_append, ofSettings_concat]
      cases hs : shows s with
      | true =>
          rw [List.filter_cons_of_pos hs, List.filter_nil, ofSettings_concat]
          exact determined _ _ s ih
      | false =>
          rw [List.filter_cons_of_neg (Bool.eq_false_iff.mp hs), List.filter_nil, List.append_nil,
            hidden _ s hs]
          exact ih

/-- Settings about checks do not change how far a search goes. -/
theorem searchLimits_filter (settings : List Setting) :
    (ofSettings (settings.filter onSearch)).searchLimits = (ofSettings settings).searchLimits := by
  refine observe_filter (fun a b s h => ?_) (fun a s hs => ?_) settings
  · cases s with
    | maxSteps limit => exact h
    | restart => rfl
    | _ => simp only [set, withMaxRounds, withMaxPaths, withPruneLoops, h]
  · cases s with
    | maxSteps limit => rfl
    | _ => cases hs

/-- Settings about searches do not change how far a check goes. -/
theorem checkLimits_filter (settings : List Setting) :
    (ofSettings (settings.filter onCheck)).checkLimits = (ofSettings settings).checkLimits := by
  refine observe_filter (fun a b s h => ?_) (fun a s hs => ?_) settings
  · cases s with
    | maxSteps limit | restart => rfl
    | _ => exact h
  · cases s with
    | maxSteps limit | restart => cases hs
    | _ => rfl

end Analyzer

section Questions

variable {α β : Type} {pattern word : List Char}

/-- A question about the automaton of a pattern. -/
def ask (pattern : List Char) (question : Nfa → Except LimitError α) : Except Failure α := do
  let nfa ← compile pattern
  (question nfa).mapError .limit

/-- The answer is a failure to compile exactly if the text is no pattern, and then it is the error
of the reader. -/
def RefusesMalformed (pattern : List Char) (answer : Except Failure α) : Prop :=
  ∀ e, answer = .error (.compile e) ↔ ∃ m, Pattern.parse pattern = .error m ∧ e = .malformed m

theorem ask_of_parse_eq_error {m : Malformed} (h : Pattern.parse pattern = .error m)
    (question : Nfa → Except LimitError α) :
    ask pattern question = .error (.compile (.malformed m)) := by
  rw [ask, compile, Nfa.ofText, Compiler.compile, h]
  rfl

/-- A pattern has an automaton, which is asked. -/
theorem exists_ask_of_parse_eq_ok {p : Pattern} (h : Pattern.parse pattern = .ok p) :
    ∃ nfa, Nfa.ofPattern p = .ok nfa ∧ ∀ {α : Type} (question : Nfa → Except LimitError α),
      ask pattern question = (question nfa).mapError .limit := by
  obtain ⟨nfa, c, hok, -⟩ := Compiler.exists_compileTree {} p
  refine ⟨nfa, ?_, fun question => ?_⟩
  · rw [Nfa.ofPattern, hok]
    rfl
  · rw [ask, compile, Nfa.ofText, Compiler.compile, h]
    change (((Compiler.compileTree {} p).map Prod.fst).mapError Failure.compile >>= _) = _
    rw [hok]
    rfl

theorem refusesMalformed_ask (pattern : List Char) (question : Nfa → Except LimitError α) :
    RefusesMalformed pattern (ask pattern question) := by
  intro e
  cases h : Pattern.parse pattern with
  | error m =>
      rw [ask_of_parse_eq_error h]
      constructor
      · intro he
        exact ⟨m, rfl, (Failure.compile.inj (Except.error.inj he)).symm⟩
      · rintro ⟨m', hm, rfl⟩
        rw [Except.error.inj hm]
  | ok p =>
      obtain ⟨nfa, -, hask⟩ := exists_ask_of_parse_eq_ok h
      rw [hask]
      constructor
      · intro he
        cases hq : question nfa with
        | error e' =>
            rw [hq] at he
            cases Except.error.inj he
        | ok answer =>
            rw [hq] at he
            cases he
      · rintro ⟨m, hm, -⟩
        cases hm

/-- What is made of an answer can be made before its limit is reported. -/
theorem map_ask (f : α → β) (pattern : List Char) (question : Nfa → Except LimitError α) :
    (ask pattern question).map f = ask pattern fun nfa => (question nfa).map f := by
  rw [ask, ask]
  cases compile pattern with
  | error e => rfl
  | ok nfa =>
      change ((question nfa).mapError Failure.limit).map f =
        ((question nfa).map f).mapError Failure.limit
      cases question nfa with
      | error e => rfl
      | ok answer => rfl

namespace Analyzer

theorem search_eq_ask (a : Analyzer) (pattern word : List Char) :
    a.search pattern word = ask pattern fun nfa => nfa.search word a.searchLimits := rfl

theorem spans_eq_ask (a : Analyzer) (pattern word : List Char) :
    a.spans pattern word =
      ask pattern fun nfa => (nfa.search word a.searchLimits).map Report.spans :=
  map_ask Report.spans pattern _

theorem check_eq_ask (a : Analyzer) (pattern : List Char) :
    a.check pattern = ask pattern fun nfa => nfa.check a.checkLimits := rfl

end Analyzer

theorem isSuperExploitable_eq_ask (pattern : List Char) :
    isSuperExploitable pattern =
      ask pattern fun nfa => (nfa.check { maxSteps := some 1000000 }).map Option.isSome :=
  map_ask Option.isSome pattern _

/-- Limits and errors stay where they belong, under all settings.  A text that is no pattern is
refused with the error of the reader by every question, and nothing else is.  The automaton of a
pattern is searched under the limits of searches that were set last and checked under the limit of
checks that was set last; where it is cut short, the limit is the answer.  Settings that differ
only in what is about checks give the same searches, and settings that differ only in what is
about searches the same checks.  Whether a pattern is super-exploitable is asked under the
defaults, whatever was set. -/
theorem Analyzer.answers_of_settings (settings : List Setting) (pattern word : List Char) :
    (RefusesMalformed pattern ((ofSettings settings).search pattern word) ∧
      RefusesMalformed pattern ((ofSettings settings).spans pattern word) ∧
      RefusesMalformed pattern ((ofSettings settings).check pattern) ∧
      RefusesMalformed pattern (isSuperExploitable pattern)) ∧
    (∀ p, Pattern.parse pattern = .ok p → ∃ nfa, Nfa.ofPattern p = .ok nfa ∧
      (ofSettings settings).search pattern word =
        (nfa.search word (.newest settings)).mapError .limit ∧
      (ofSettings settings).spans pattern word =
        ((nfa.search word (.newest settings)).map Report.spans).mapError .limit ∧
      (ofSettings settings).check pattern = (nfa.check (.newest settings)).mapError .limit ∧
      isSuperExploitable pattern =
        ((nfa.check { maxSteps := some 1000000 }).map Option.isSome).mapError .limit) ∧
    (∀ settings', settings'.filter onSearch = settings.filter onSearch →
      (ofSettings settings').search pattern word = (ofSettings settings).search pattern word ∧
      (ofSettings settings').spans pattern word = (ofSettings settings).spans pattern word) ∧
    ∀ settings', settings'.filter onCheck = settings.filter onCheck →
      (ofSettings settings').check pattern = (ofSettings settings).check pattern := by
  refine ⟨?_, fun p hp => ?_, fun settings' h => ?_, fun settings' h => ?_⟩
  · rw [search_eq_ask, spans_eq_ask, check_eq_ask, isSuperExploitable_eq_ask]
    exact ⟨refusesMalformed_ask _ _, refusesMalformed_ask _ _, refusesMalformed_ask _ _,
      refusesMalformed_ask _ _⟩
  · obtain ⟨nfa, hnfa, hask⟩ := exists_ask_of_parse_eq_ok hp
    rw [search_eq_ask, spans_eq_ask, check_eq_ask, isSuperExploitable_eq_ask, ofSettings_eq]
    exact ⟨nfa, hnfa, hask _, hask _, hask _, hask _⟩
  · have hlimits := congrArg (fun s => (ofSettings s).searchLimits) h
    simp only [searchLimits_filter] at hlimits
    rw [search_eq_ask, search_eq_ask, spans_eq_ask, spans_eq_ask, hlimits]
    exact ⟨rfl, rfl⟩
  · have hlimits := congrArg (fun s => (ofSettings s).checkLimits) h
    simp only [checkLimits_filter] at hlimits
    rw [check_eq_ask, check_eq_ask, hlimits]

end Questions

end Backtracking
