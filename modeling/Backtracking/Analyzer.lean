import Backtracking.Check.Verdict
import Backtracking.Nfa.Thompson
import Backtracking.Search.Run

/-!
# The analyzer

The questions that can be asked of a pattern text, under one set of limits: what it
matches, by how many paths, and whether it is super-exploitable.

**Failures.**  A text that is no pattern fails first, whatever the limits are.  A search
or a check that is cut short fails with its limit.
-/

namespace Backtracking

/-- Why a question has no answer. -/
inductive Failure
  /-- The pattern has no automaton. -/
  | compile (e : CompileError)
  /-- The search or the check was cut short. -/
  | limit (e : LimitError)
  deriving DecidableEq

/-- The wording of the cause. -/
def Failure.message : Failure → String
  | .compile e => e.message
  | .limit e => e.message

/-- The automaton of a pattern. -/
def compile (pattern : List Char) : Except Failure Nfa :=
  (Nfa.ofText pattern).mapError .compile

/-- Limits for searches and for checks. -/
structure Analyzer where
  searchLimits : SearchLimits := {}
  checkLimits : CheckLimits := {}
  deriving DecidableEq

namespace Analyzer

/-- Limits the rounds of a search. -/
def withMaxRounds (a : Analyzer) (limit : Option Nat) : Analyzer :=
  { a with searchLimits := { a.searchLimits with maxRounds := limit } }

/-- Limits the live and the recorded paths of a search. -/
def withMaxPaths (a : Analyzer) (limit : Option Nat) : Analyzer :=
  { a with searchLimits := { a.searchLimits with maxPaths := limit } }

/-- Says whether a search gives up looped paths. -/
def withPruneLoops (a : Analyzer) (prune : Bool) : Analyzer :=
  { a with searchLimits := { a.searchLimits with pruneLoops := prune } }

/-- Limits the steps of a check. -/
def withMaxSteps (a : Analyzer) (limit : Option Nat) : Analyzer :=
  { a with checkLimits := { a.checkLimits with maxSteps := limit } }

/-- Whether the pattern is super-exploitable, with a witness if it is. -/
def check (a : Analyzer) (pattern : List Char) : Except Failure Verdict := do
  let nfa ← compile pattern
  (nfa.check a.checkLimits).mapError .limit

/-- All that an exhaustive search for the pattern sees in the text. -/
def search (a : Analyzer) (pattern word : List Char) : Except Failure Report := do
  let nfa ← compile pattern
  (nfa.search word a.searchLimits).mapError .limit

/-- The spans of the text that the pattern matches. -/
def spans (a : Analyzer) (pattern word : List Char) : Except Failure SpanSet :=
  (a.search pattern word).map Report.spans

end Analyzer

/-- Whether the pattern is super-exploitable, under the default limits. -/
def isSuperExploitable (pattern : List Char) : Except Failure Bool :=
  (Analyzer.check {} pattern).map Option.isSome

end Backtracking
