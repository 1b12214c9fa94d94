import Backtracking.Analyzer
import Backtracking.Dfa
import Backtracking.Quoting

/-!
# The journal

What the stages of an analysis have to tell, as a list of messages: the sizes of the
automata, the rounds of a search and the course of a check.  Every message is read off
the value that its stage returns.
-/

namespace Backtracking

/-- How important a message is. -/
inductive Severity
  | debug
  | trace
  deriving DecidableEq

/-- The name of the severity. -/
def Severity.text : Severity → String
  | .debug => "DEBUG"
  | .trace => "TRACE"

/-- One message. -/
structure Entry where
  severity : Severity
  message : String
  deriving DecidableEq

namespace Journal

/-- The message on a compiled pattern. -/
def ofCompile (pattern : List Char) (nfa : Nfa) : List Entry :=
  let states := nfa.graph.states.length
  let transitions := nfa.graph.transitions.length
  [⟨.debug, s!"compiled {quoted pattern}: {states} states, {transitions} transitions"⟩]

/-- The message on a subset construction. -/
def ofDfa (nfa : Nfa) (dfa : Dfa) : List Entry :=
  let nfaStates := nfa.graph.states.length
  let dfaStates := dfa.graph.states.length
  [⟨.debug,
    s!"subset construction: {nfaStates} NFA states became {dfaStates} DFA states " ++
      s!"({dfa.accepting.size} accepting)"⟩]

/-- The messages on the rounds of a search, the first of which has the number `round`. -/
def ofRounds (round : Nat) : (lives : List Nat) → List Entry
  | [] => []
  | live :: lives => ⟨.trace, s!"round {round}: {live} live paths"⟩ :: ofRounds (round + 1) lives

/-- The message on the ending of a search. -/
def ofSearchEnding (r : Report) : SearchEnding → List Entry
  | .exhausted =>
      [⟨.debug,
        s!"matcher: {r.accepted.size} matches, {r.loops.size} loops, {r.rounds} rounds, " ++
          s!"peak {r.peakPaths} paths, ambiguity {r.ambiguity}"⟩]
  | .roundLimit limit => [⟨.debug, s!"matcher gave up after {limit} rounds"⟩]
  | .pathLimit limit .recorded =>
      [⟨.debug, s!"matcher gave up with more than {limit} recorded paths"⟩]
  | .pathLimit limit .live =>
      [⟨.debug, s!"matcher gave up with more than {limit} live paths"⟩]
  | .endless => []

/-- The messages on a search. -/
def ofSearch (r : SearchRun) : List Entry :=
  ofRounds 1 r.report.lives.toList ++ ofSearchEnding r.report r.ending

/-- The message on the ending of a check. -/
def ofCheckEnding (steps : Nat) : CheckEnding → Entry
  | .vulnerable w =>
      ⟨.debug, s!"state {w.state} repeats {quoted w.word} along two distinct cycles"⟩
  | .clear => ⟨.debug, s!"no ambiguous cycles after {steps} steps"⟩
  | .exhausted limit => ⟨.debug, s!"checker gave up after {limit} steps"⟩

/-- The messages on a check. -/
def ofCheck (r : CheckRun) : List Entry :=
  r.exempt.map (fun s => ⟨.trace, s!"state {s} is ambiguous but always accepts"⟩) ++
    [ofCheckEnding r.steps r.ending]

end Journal

/-- A pattern put through all stages: the outcomes of the search and of the check, and
the journal of all stages. -/
structure Inspection where
  search : Except LimitError Report
  check : Except LimitError Verdict
  journal : List Entry

/-- Compiles a pattern, makes its automaton deterministic, searches a text and checks
the automaton, even where the search is cut short. -/
def Analyzer.inspect (a : Analyzer) (pattern word : List Char) :
    Except CompileError Inspection := do
  let nfa ← Nfa.ofText pattern
  let dfa ← nfa.toDfa.mapError .invalidEdge
  let search := nfa.searchRun word a.searchLimits
  let check := nfa.checkRun a.checkLimits
  return {
    search := search.result
    check := check.result
    journal := Journal.ofCompile pattern nfa ++ Journal.ofDfa nfa dfa ++
      Journal.ofSearch search ++ Journal.ofCheck check }

end Backtracking
