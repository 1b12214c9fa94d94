import Backtracking.Check.Budget
import Backtracking.Nfa.Basic

/-!
# Routes

A route leads from one state to another and consumes one character: some epsilon edges
that visit no state twice, then the edge of the character.  Anchors never stand between
two consumed characters, so no route crosses one.

**Two are enough.**  Of the routes that end with the same edge two are kept; they show
already that the edge can be taken in more than one way.

**Algorithm.**  Depth first, in the order of the edges.  A run of epsilon edges that
visits no state twice is shorter than the number of states, which bounds the depth.
-/

namespace Backtracking

/-- A run of epsilon edges and the edge of a character behind it. -/
structure Route where
  run : List Transition
  edge : Transition
  letter : Char
  deriving DecidableEq

namespace Route

/-- All edges of the route. -/
def transitions (r : Route) : List Transition :=
  r.run ++ [r.edge]

/-- Where the route ends. -/
def target (r : Route) : StateId :=
  r.edge.target

end Route

/-- The routes found so far, newest first, and the steps that it took. -/
structure Harvest where
  steps : Nat
  routes : List Route := []

namespace Harvest

/-- Keeps a route, unless two routes with the same last edge are kept already. -/
def keep (h : Harvest) (r : Route) : Harvest :=
  if (h.routes.filter fun kept => kept.edge == r.edge).length < 2 then
    { h with routes := r :: h.routes }
  else
    h

end Harvest

namespace Nfa

/-- Collects the routes that go on from `at`, the end of a run of epsilon edges (`run`,
newest first) through the states `visited`; a run grows by at most `depth` more edges. -/
def harvest (nfa : Nfa) (limit : Option Nat) :
    (depth : Nat) → (here : StateId) → (visited : List StateId) → (run : List Transition) →
    Harvest → Except Exhausted Harvest
  | 0, _, _, _, h => return h
  | depth + 1, here, visited, run, h =>
      (nfa.graph.transitionsFrom here).foldlM (fun h t => do
        let steps ← spend limit h.steps
        let h := { h with steps }
        match t.label with
        | .char letter => return h.keep { run := run.reverse, edge := t, letter }
        | .epsilon =>
            if visited.contains t.target then
              return h
            else
              nfa.harvest limit depth t.target (t.target :: visited) (t :: run) h
        | .startAnchor | .endAnchor => return h) h

/-- The routes out of a state in the order found, after `steps` steps of a check. -/
def routesFrom (nfa : Nfa) (limit : Option Nat) (s : StateId) (steps : Nat) :
    Except Exhausted (List Route × Nat) := do
  let h ← nfa.harvest limit nfa.graph.states.length s [s] [] { steps }
  return (h.routes.reverse, h.steps)

end Nfa

end Backtracking
