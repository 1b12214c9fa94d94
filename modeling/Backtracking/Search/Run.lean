import Backtracking.Limit
import Backtracking.Search.Report

/-!
# Exhaustive search

All paths from the start state at every offset of a text, in synchronized rounds.
Paths that meet are never merged, so the rounds do the work that a backtracking engine
would do.

**End.**  A search ends when no path is alive or a limit is reached.
`Nfa.roundBound` rounds decide which: with loops pruned no configuration occurs twice on
a live path; with loops kept, a path that is still alive has left a record for every
round beyond the number of configurations, so a limit on paths is reached; and where
loops are kept without any limit, a path alive after that many rounds has looped and
can go round its loop for ever.
-/

namespace Backtracking

/-- How a search ended. -/
inductive SearchEnding
  /-- No path was left to be extended. -/
  | exhausted
  /-- The limit on rounds was reached while paths were alive. -/
  | roundLimit (limit : Nat)
  /-- The limit on paths was outgrown. -/
  | pathLimit (limit : Nat) (excess : Excess)
  /-- Paths are left that nothing will ever end. -/
  | endless
  deriving DecidableEq

/-- The error of a search that was not exhausted. -/
def SearchEnding.error? : SearchEnding → Option LimitError
  | .exhausted => none
  | .roundLimit limit => some (.rounds limit)
  | .pathLimit limit _ => some (.paths limit)
  | .endless => some .endless

/-- What a search saw in its completed rounds, and how it ended. -/
structure SearchRun where
  report : Report
  ending : SearchEnding

/-- The report, unless the search was cut short. -/
def SearchRun.result (r : SearchRun) : Except LimitError Report :=
  match r.ending.error? with
  | none => .ok r.report
  | some e => .error e

namespace Nfa

/-- Extends the live paths until the search ends, in at most `rounds` more rounds. -/
def explore (nfa : Nfa) (word : List Char) (limits : SearchLimits) :
    (rounds : Nat) → Report → (live : List Path) → SearchRun
  | 0, report, _ => { report, ending := .endless }
  | rounds + 1, report, live =>
      if live.isEmpty then
        { report, ending := .exhausted }
      else if let some limit := limits.maxRounds.filter fun limit => limit ≤ report.rounds then
        { report, ending := .roundLimit limit }
      else
        let arrivals := nfa.arrivals word live
        match limits.maxPaths.bind fun limit =>
          (Arrival.excess? nfa limits.pruneLoops limit report.records 0 arrivals).map
            fun excess => SearchEnding.pathLimit limit excess with
        | some ending => { report, ending }
        | none =>
            nfa.explore word limits rounds
              (report.addRound nfa limits.pruneLoops arrivals)
              ((arrivals.filter (Arrival.alive limits.pruneLoops)).map Arrival.path)

/-- A number of rounds after which a search has ended or will never end. -/
def roundBound (nfa : Nfa) (word : List Char) (limits : SearchLimits) : Nat :=
  nfa.graph.states.length * (word.length + 1) +
    limits.maxPaths.getD 0 + limits.maxRounds.getD 0 + 2

/-- The paths without edges, one for every offset. -/
def seeds (nfa : Nfa) (word : List Char) : List Path :=
  (List.range (word.length + 1)).map (Path.seed nfa.start)

/-- The whole course of a search. -/
def searchRun (nfa : Nfa) (word : List Char) (limits : SearchLimits) : SearchRun :=
  nfa.explore word limits (nfa.roundBound word limits) {} (nfa.seeds word)

/-- The report of an exhausted search. -/
def search (nfa : Nfa) (word : List Char) (limits : SearchLimits := {}) :
    Except LimitError Report :=
  (nfa.searchRun word limits).result

/-- The spans of all matches, under the default limits. -/
def spans (nfa : Nfa) (word : List Char) : Except LimitError SpanSet :=
  (nfa.search word).map Report.spans

end Nfa

end Backtracking
