import Backtracking.Limit
import Backtracking.Check.Twin

/-!
# The verdict on an automaton

A state makes an automaton super-exploitable when

1. it can be reached from the start,
2. two different walks lead from it back to it over the same word, so that every
   repetition of the word doubles the number of paths, and
3. the automaton can get stuck behind it: some state that can be reached from it is not
   the finish and does not come to the finish by epsilon edges alone.

**States looked at.**  Every cycle that consumes something passes through a state that
an edge of a character enters, so only these are tried, in ascending order.
-/

namespace Backtracking

/-- How long a check may take.  `none` is no limit. -/
structure CheckLimits where
  maxSteps : Option Nat := some 1000000
  deriving DecidableEq

/-- What makes an automaton super-exploitable: a state, a word, and two different walks
from the state back to it over the word. -/
structure Witness where
  state : StateId
  word : List Char
  first : List Transition
  second : List Transition
  deriving DecidableEq

/-- The answer of a check: a witness, or none if the automaton is not super-exploitable. -/
abbrev Verdict := Option Witness

/-- How a check ended. -/
inductive CheckEnding
  /-- A witness was found. -/
  | vulnerable (w : Witness)
  /-- All states were tried. -/
  | clear
  /-- The limit on steps was reached. -/
  | exhausted (limit : Nat)
  deriving DecidableEq

/-- The whole course of a check: the states that have twin cycles but behind which the
automaton cannot get stuck, the number of edges followed, and the ending. -/
structure CheckRun where
  exempt : List StateId
  steps : Nat
  ending : CheckEnding
  deriving DecidableEq

/-- A check that has taken all the steps that its limit allows. -/
def CheckRun.cutShort (exempt : List StateId) (e : Exhausted) : CheckRun :=
  { exempt, steps := e.limit, ending := .exhausted e.limit }

/-- The verdict, unless the check was cut short. -/
def CheckRun.result (r : CheckRun) : Except LimitError Verdict :=
  match r.ending with
  | .vulnerable w => .ok (some w)
  | .clear => .ok none
  | .exhausted limit => .error (.paths limit)

/-- The characters that are consumed along some edges. -/
def consumedWord (ts : List Transition) : List Char :=
  ts.filterMap fun t => t.label.consumed?

/-- What two closed walks from `s` prove. -/
def Witness.ofTwins (s : StateId) (w : TwinWalk) : Witness :=
  { state := s, word := consumedWord w.first, first := w.first, second := w.second }

namespace Nfa

/-- The states that can be reached from `s` along any edges, `s` included. -/
def reachable (nfa : Nfa) (s : StateId) : StateSet :=
  nfa.graph.follow (fun _ => true) [s]

/-- The reachable states that an edge of a character enters. -/
def entered (nfa : Nfa) : StateSet :=
  let reachable := nfa.reachable nfa.start
  .ofList ((nfa.graph.transitions.filter fun t =>
    t.label.consumed?.isSome && reachable.contains t.target).map Transition.target)

/-- Whether some state that can be reached from `s` needs more input to accept. -/
def canGetStuck (nfa : Nfa) (s : StateId) : Bool :=
  (nfa.reachable s).toList.any fun r =>
    r != nfa.finish && !(nfa.epsilonReachable [r]).contains nfa.finish

/-- The routes out of the given states, found one after another. -/
def routeTable (nfa : Nfa) (limit : Option Nat) :
    (states : List StateId) → RouteTable → (steps : Nat) → Except Exhausted (RouteTable × Nat)
  | [], table, steps => return (table, steps)
  | s :: states, table, steps => do
      let (routes, steps) ← nfa.routesFrom limit s steps
      nfa.routeTable limit states (table.insert s routes) steps

/-- Tries the given states one after another; `exempt` holds those with twin cycles that
did not count, newest first. -/
def tryStates (nfa : Nfa) (limit : Option Nat) (table : RouteTable) :
    (states exempt : List StateId) → (steps : Nat) → CheckRun
  | [], exempt, steps => { exempt := exempt.reverse, steps, ending := .clear }
  | s :: states, exempt, steps =>
      match table.twinCycles limit s steps with
      | .error e => .cutShort exempt.reverse e
      | .ok (steps, none) => nfa.tryStates limit table states exempt steps
      | .ok (steps, some w) =>
          if nfa.canGetStuck s then
            { exempt := exempt.reverse, steps, ending := .vulnerable (.ofTwins s w) }
          else
            nfa.tryStates limit table states (s :: exempt) steps

/-- The whole course of a check. -/
def checkRun (nfa : Nfa) (limits : CheckLimits) : CheckRun :=
  let states := nfa.entered.toList
  match nfa.routeTable limits.maxSteps states ∅ 0 with
  | .error e => .cutShort [] e
  | .ok (table, steps) => nfa.tryStates limits.maxSteps table states [] steps

/-- Whether the automaton is super-exploitable, with a witness if it is. -/
def check (nfa : Nfa) (limits : CheckLimits := {}) : Except LimitError Verdict :=
  (nfa.checkRun limits).result

end Nfa

end Backtracking
