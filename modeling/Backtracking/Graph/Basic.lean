import Std.Data.ExtTreeMap
import Std.Data.ExtTreeSet
import Backtracking.Label

/-!
# Labelled graphs

A graph owns a finite set of states, one of them its start.  At every owned state
it stores whole transitions, in the order in which they were added.  A transition can
be added only between owned states; one that is refused leaves the graph as it was.

**View.**  A graph is read through `g.start`, `g.owns s` and `g.transitionsFrom s` (what
is stored at `s`, nothing for a foreign state).  Nothing in the type says that a
transition is stored at the state that it leaves; `g.row s` is what a walk out of `s`
reads of it, its label and its target.

**Equality.**  Equality of graphs is equality of starts, of owned states and of
the transitions at every state in their order, and it is decided.
-/

namespace Backtracking

/-- A state is known by its number. -/
abbrev StateId := Nat

/-- A finite set of states, listed in ascending order. -/
abbrev StateSet := Std.ExtTreeSet StateId

/-- An edge together with the state that it leaves. -/
structure Transition where
  source : StateId
  label : Label
  target : StateId
  deriving DecidableEq

namespace Transition

/-- The edge from `source` to `target` that consumes nothing and holds everywhere. -/
def silent (source target : StateId) : Transition :=
  { source, label := .epsilon, target }

/-- The ends in parentheses and the label on an arrow between them. -/
def text (t : Transition) : String :=
  s!"({t.source}) -{t.label.text}-> ({t.target})"

end Transition

/-- What a transition says apart from the state that it leaves. -/
structure Edge where
  label : Label
  target : StateId
  deriving DecidableEq

/-- What a walk reads of a transition. -/
def Transition.edge (t : Transition) : Edge :=
  ⟨t.label, t.target⟩

/-- Seen from its source, an edge is a transition. -/
def Edge.leaving (source : StateId) (e : Edge) : Transition :=
  { source, label := e.label, target := e.target }

/-- A start state and, for every owned state, the transitions stored there, oldest first. -/
structure Graph where
  start : StateId
  rows : Std.ExtTreeMap StateId (List Transition)
  deriving DecidableEq

/-- A transition with an end that the graph does not own. -/
structure InvalidEdge where
  transition : Transition
  deriving DecidableEq

/-- The message names the transition. -/
def InvalidEdge.message (e : InvalidEdge) : String :=
  s!"invalid edge {e.transition.text}"

namespace Graph

/-- Whether the state belongs to the graph. -/
def owns (g : Graph) (s : StateId) : Bool :=
  g.rows.contains s

/-- The owned states in ascending order. -/
def states (g : Graph) : List StateId :=
  g.rows.keys

/-- The transitions stored at a state, oldest first; at a state that is not owned there
are none. -/
def transitionsFrom (g : Graph) (s : StateId) : List Transition :=
  g.rows[s]?.getD []

/-- The labels and targets of the transitions stored at a state. -/
def row (g : Graph) (s : StateId) : List Edge :=
  (g.transitionsFrom s).map Transition.edge

/-- All transitions, by ascending state and then oldest first. -/
def transitions (g : Graph) : List Transition :=
  g.states.flatMap g.transitionsFrom

/-- A graph of one state, its start, without transitions. -/
def single (start : StateId) : Graph :=
  { start, rows := (∅ : Std.ExtTreeMap StateId (List Transition)).insert start [] }

/-- Makes the graph own a state; a state that it owns already keeps its transitions. -/
def addState (g : Graph) (s : StateId) : Graph :=
  { g with rows := g.rows.insertIfNew s [] }

/-- Puts transitions behind those that are stored at `s`. -/
def appendRow (rows : Std.ExtTreeMap StateId (List Transition)) (s : StateId)
    (more : List Transition) : Std.ExtTreeMap StateId (List Transition) :=
  rows.insert s (rows[s]?.getD [] ++ more)

/-- Puts a transition behind the others at its source, if both ends are owned: whether that
was so, and the graph afterwards. -/
def offer (g : Graph) (t : Transition) : Except InvalidEdge Unit × Graph :=
  if g.owns t.target && g.owns t.source then
    (.ok (), { g with rows := appendRow g.rows t.source [t] })
  else
    (.error ⟨t⟩, g)

/-- The graph with one transition more, for those who give it up with the first refusal. -/
def addTransition (g : Graph) (t : Transition) : Except InvalidEdge Graph :=
  match g.offer t with
  | (.ok (), g') => .ok g'
  | (.error e, _) => .error e

/-- Takes over the states and transitions of `other`; the start stays, and at a shared
state the transitions of `other` come behind. -/
def merge (g other : Graph) : Graph :=
  { g with rows := other.rows.toList.foldl (fun rows r => appendRow rows r.1 r.2) g.rows }

end Graph

end Backtracking
