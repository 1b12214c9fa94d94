import Backtracking.Graph.Follow

/-!
# Nondeterministic automata

A graph with one finish state, and what can be asked of it without looking at single
paths: its alphabet, closures under epsilon edges, and whether it accepts a whole word.

**Acceptance.**  `Nfa.accepts` carries the set of states that are possible at an offset
through the word.  At every offset the set is closed under the edges that can be crossed
there without consuming anything, anchors included.  Where no edge can be taken the word is
given up at once; that this changes nothing is `Nfa.consume_cons`.
-/

namespace Backtracking

/-- A graph in which one state, besides the start, is the finish. -/
structure Nfa where
  graph : Graph
  finish : StateId
  deriving DecidableEq

namespace Nfa

/-- Where every path begins. -/
def start (nfa : Nfa) : StateId :=
  nfa.graph.start

/-- The labels other than epsilon that occur, anchors included. -/
def alphabet (nfa : Nfa) : Std.ExtTreeSet Label :=
  .ofList ((nfa.graph.transitions.map Transition.label).filter fun l => l != .epsilon)

/-- The given states and all that can be reached from them along epsilon edges. -/
def epsilonReachable (nfa : Nfa) (states : List StateId) : StateSet :=
  nfa.graph.follow (fun l => l == .epsilon) states

/-- The ends of the edges labelled `on` that leave one of the states. -/
def stepTargets (nfa : Nfa) (states : List StateId) (on : Label) : List StateId :=
  states.flatMap (nfa.graph.targets fun l => l == on)

/-- The states behind one edge labelled `on` and any number of epsilon edges. -/
def epsilonClosure (nfa : Nfa) (states : List StateId) (on : Label) : StateSet :=
  nfa.epsilonReachable (nfa.stepTargets states on)

/-- The states behind any number of edges that can be crossed at `offset` for free. -/
def settle (nfa : Nfa) (length offset : Nat) (states : List StateId) : StateSet :=
  nfa.graph.follow (fun l => l.passableAt offset length) states

/-- The states that are possible at the end of a word of `length` characters, from those
possible at `offset` and the characters that are left.  None are if one of these characters
leads nowhere. -/
def consume (nfa : Nfa) (length : Nat) : (offset : Nat) → StateSet → List Char → StateSet
  | _, current, [] => current
  | offset, current, c :: rest =>
      let targets := nfa.stepTargets current.toList (.char c)
      if targets.isEmpty then
        ∅
      else
        nfa.consume length (offset + 1) (nfa.settle length (offset + 1) targets) rest

/-- Whether the whole word leads from the start to the finish. -/
def accepts (nfa : Nfa) (word : List Char) : Bool :=
  (nfa.consume word.length 0 (nfa.settle word.length 0 [nfa.start]) word).contains nfa.finish

theorem consume_empty (nfa : Nfa) (length offset : Nat) (rest : List Char) :
    nfa.consume length offset ∅ rest = ∅ := by
  cases rest with
  | nil => rfl
  | cons c rest => rw [consume, if_pos (by simp [stepTargets])]

/-- Whether or not the word is given up early, the last set is the same. -/
theorem consume_cons (nfa : Nfa) (length offset : Nat) (current : StateSet) (c : Char)
    (rest : List Char) :
    nfa.consume length offset current (c :: rest) =
      nfa.consume length (offset + 1)
        (nfa.settle length (offset + 1) (nfa.stepTargets current.toList (.char c))) rest := by
  rw [consume]
  split
  next stuck => rw [List.isEmpty_iff.mp stuck, settle, Graph.follow_nil, consume_empty]
  next => rfl

end Nfa

end Backtracking
