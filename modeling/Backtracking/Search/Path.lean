import Backtracking.Nfa.Basic
import Backtracking.Search.Span

/-!
# Paths

A path through an automaton over a text, as a backtracking engine would walk it: a
list of configurations, each behind the one before it by one edge.

**Loops.**  A path is looped when it has come back to a configuration of its own.
Offsets never fall along a path, so only the configurations at the present offset have
to be looked at; they are the newest ones.
-/

namespace Backtracking

/-- A place of a search: a state of the automaton and an offset of the text. -/
structure Configuration where
  state : StateId
  offset : Nat
  deriving DecidableEq

/-- The configurations behind one edge. -/
def Nfa.moves (nfa : Nfa) (word : List Char) (c : Configuration) : List Configuration :=
  (nfa.graph.row c.state).filterMap fun e =>
    (e.label.cross? word c.offset).map fun offset => { state := e.target, offset }

/-- A path that began at the offset `origin`: where it has come to, and the
configurations before, newest first. -/
structure Path where
  origin : Nat
  here : Configuration
  past : List Configuration
  deriving DecidableEq

namespace Path

/-- A path without edges. -/
def seed (state : StateId) (offset : Nat) : Path :=
  { origin := offset, here := { state, offset }, past := [] }

/-- The path with one more edge, which leads to `c`. -/
def extend (p : Path) (c : Configuration) : Path :=
  { p with here := c, past := p.here :: p.past }

/-- The number of edges. -/
def steps (p : Path) : Nat :=
  p.past.length

/-- The part of the text that the path has consumed. -/
def span (p : Path) : Span :=
  { start := p.origin, stop := p.here.offset }

/-- All configurations, oldest first. -/
def history (p : Path) : List Configuration :=
  (p.here :: p.past).reverse

/-- Whether `c` is one of the newest configurations, those at the offset of `c`. -/
def revisits (c : Configuration) : List Configuration → Bool
  | [] => false
  | d :: past => d.offset == c.offset && (d.state == c.state || revisits c past)

/-- Whether the path has come back to a configuration of its own. -/
def looped (p : Path) : Bool :=
  revisits p.here p.past

/-- All paths with one more edge, in the order of the edges. -/
def successors (nfa : Nfa) (word : List Char) (p : Path) : List Path :=
  (nfa.moves word p.here).map p.extend

end Path

end Backtracking
