import Backtracking.Nfa.Basic

/-!
# Deterministic automata

The subset construction, and acceptance by the automaton that it makes.

**States.**  A state stands for a set of states of the nondeterministic automaton; it is
numbered by its place in `Dfa.subsets`.  Anchors are symbols like characters here: an
anchor edge leads to the set of states behind the anchor, and acceptance crosses it only
where the anchor holds.

**Order.**  Sets are numbered as they are discovered.  Of the sets that wait for their
edges the youngest is served first, and its labels are tried in the order of labels.
-/

namespace Backtracking

/-- A graph whose states stand for sets, and those among them that accept. -/
structure Dfa where
  graph : Graph
  accepting : StateSet
  subsets : Array StateSet

namespace Dfa

/-- Where every run begins. -/
def start (dfa : Dfa) : StateId :=
  dfa.graph.start

/-- The set that a state stands for. -/
def subset? (dfa : Dfa) (s : StateId) : Option StateSet :=
  dfa.subsets[s]?

/-- Whether a state accepts. -/
def isAccepting (dfa : Dfa) (s : StateId) : Bool :=
  dfa.accepting.contains s

/-- The state behind the first edge out of `s` with this label. -/
def next? (dfa : Dfa) (s : StateId) (on : Label) : Option StateId :=
  ((dfa.graph.row s).find? fun e => e.label == on).map Edge.target

/-- A construction under way: the automaton so far and the states whose edges are
still missing, youngest first. -/
structure Draft where
  dfa : Dfa
  pending : List StateId

/-- The state that stands for `subset`, and the construction in which it exists. -/
def Draft.stateOf (d : Draft) (finish : StateId) (subset : StateSet) : StateId × Draft :=
  match d.dfa.subsets.idxOf? subset with
  | some s => (s, d)
  | none =>
      let s := d.dfa.subsets.size
      (s,
        { dfa :=
            { graph := d.dfa.graph.addState s
              accepting :=
                if subset.contains finish then d.dfa.accepting.insert s else d.dfa.accepting
              subsets := d.dfa.subsets.push subset }
          pending := s :: d.pending })

/-- Adds the edge out of `source` for one label, unless nothing is behind it. -/
def Draft.addEdge (nfa : Nfa) (source : StateId) (subset : StateSet) (d : Draft)
    (label : Label) : Except InvalidEdge Draft :=
  let behind := nfa.epsilonClosure subset.toList label
  if behind.isEmpty then
    return d
  else do
    let (target, d) := d.stateOf nfa.finish behind
    let graph ← d.dfa.graph.addTransition { source, label, target }
    return { d with dfa := { d.dfa with graph } }

/-- Serves pending states until none is left, at most `rounds` of them. -/
def Draft.complete (nfa : Nfa) (alphabet : List Label) :
    (rounds : Nat) → Draft → Except InvalidEdge Dfa
  | 0, d => return d.dfa
  | rounds + 1, d =>
      match d.pending with
      | [] => return d.dfa
      | s :: pending => do
          let subset := (d.dfa.subset? s).getD ∅
          let d ← alphabet.foldlM (Draft.addEdge nfa s subset) { d with pending }
          d.complete nfa alphabet rounds

/-- A construction that knows no set but the closure of the start. -/
def Draft.initial (nfa : Nfa) : Draft :=
  ({ dfa := { graph := .single 0, accepting := ∅, subsets := #[] }, pending := [] } : Draft)
    |>.stateOf nfa.finish (nfa.epsilonReachable [nfa.start])
    |>.2

/-- The states that can be reached along anchors that hold at `offset`. -/
def settle (dfa : Dfa) (length offset : Nat) (states : List StateId) : StateSet :=
  dfa.graph.follow (fun l => l.anchorHolds offset length) states

/-- The states that are possible at the end of a word of `length` characters, from those
possible at `offset` and the characters that are left.  None are if one of these characters
leads nowhere. -/
def consume (dfa : Dfa) (length : Nat) : (offset : Nat) → StateSet → List Char → StateSet
  | _, current, [] => current
  | offset, current, c :: rest =>
      let moved := current.toList.filterMap fun s => dfa.next? s (.char c)
      if moved.isEmpty then
        ∅
      else
        dfa.consume length (offset + 1) (dfa.settle length (offset + 1) moved) rest

/-- Whether the whole word leads from the start to an accepting state. -/
def accepts (dfa : Dfa) (word : List Char) : Bool :=
  (dfa.consume word.length 0 (dfa.settle word.length 0 [dfa.start]) word).toList.any
    dfa.isAccepting

theorem consume_empty (dfa : Dfa) (length offset : Nat) (rest : List Char) :
    dfa.consume length offset ∅ rest = ∅ := by
  cases rest with
  | nil => rfl
  | cons c rest => rw [consume, if_pos (by simp)]

/-- Whether or not the word is given up early, the last set is the same. -/
theorem consume_cons (dfa : Dfa) (length offset : Nat) (current : StateSet) (c : Char)
    (rest : List Char) :
    dfa.consume length offset current (c :: rest) =
      dfa.consume length (offset + 1) (dfa.settle length (offset + 1)
        (current.toList.filterMap fun s => dfa.next? s (.char c))) rest := by
  rw [consume]
  split
  next stuck => rw [List.isEmpty_iff.mp stuck, settle, Graph.follow_nil, consume_empty]
  next => rfl

end Dfa

/-- The subset construction.  There are no more sets of states than `2 ^ n` for `n`
states, so that many rounds serve every set. -/
def Nfa.toDfa (nfa : Nfa) : Except InvalidEdge Dfa :=
  (Dfa.Draft.initial nfa).complete nfa nfa.alphabet.toList
    (Nat.pow 2 nfa.graph.states.length)

end Backtracking
