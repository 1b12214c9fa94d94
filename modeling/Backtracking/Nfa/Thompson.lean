import Backtracking.Graph.Numbering
import Backtracking.Nfa.Basic
import Backtracking.Pattern.Descent

/-!
# Thompson's construction

Every node of a pattern becomes an automaton with a fresh start and a fresh finish,
assembled from the automata of its parts; no two parts share a state.

**Numbering.**  States are numbered consecutively.  The parts of a node take their
numbers before the node takes its own two, start first.  A sequence takes no numbers of
its own, it joins its parts.

**Sessions.**  A `Compiler` carries the numbering from one pattern to the next.  The construction
does not depend on where its numbers come from (`Pattern.assemble`): `Compiler.compile` has them
without end, `Compiler.compileWithin` in 32 bits.
-/

namespace Backtracking

/-- Why a pattern has no automaton. -/
inductive CompileError
  /-- The text is no pattern. -/
  | malformed (e : Malformed)
  /-- The construction tried to join states that the automaton does not own. -/
  | invalidEdge (e : InvalidEdge)
  deriving DecidableEq

/-- The wording of the cause. -/
def CompileError.message : CompileError → String
  | .malformed e => e.message
  | .invalidEdge e => e.message

namespace Nfa

/-- A start and a finish that are not joined yet. -/
def bracket (start finish : StateId) : Nfa :=
  { graph := (Graph.single start).addState finish, finish }

/-- Adds an edge. -/
def connect (nfa : Nfa) (source : StateId) (label : Label) (target : StateId) :
    Except InvalidEdge Nfa := do
  let graph ← nfa.graph.addTransition { source, label, target }
  return { nfa with graph }

/-- Takes over the states and edges of another automaton. -/
def absorb (nfa part : Nfa) : Nfa :=
  { nfa with graph := nfa.graph.merge part.graph }

/-- Joins the ends by one edge. -/
def link (outer : Nfa) (label : Label) : Except InvalidEdge Nfa :=
  outer.connect outer.start label outer.finish

/-- One automaton after the other. -/
def chain (first second : Nfa) : Except InvalidEdge Nfa :=
  ({ first.absorb second with finish := second.finish } : Nfa).connect
    first.finish .epsilon second.start

/-- Takes a part into a frame as one way from the frame's start to its finish. -/
def detour (outer part : Nfa) : Except InvalidEdge Nfa := do
  let entered ← (outer.absorb part).connect outer.start .epsilon part.start
  entered.connect part.finish .epsilon outer.finish

/-- Takes two automata into a frame, either of which leads from its start to its finish. -/
def embrace (outer left right : Nfa) : Except InvalidEdge Nfa := do
  let half ← outer.detour left
  half.detour right

/-- Takes an automaton into a frame, in which it may be passed by (`skip`) or entered again
(`again`). -/
def enclose (outer body : Nfa) (skip again : Bool) : Except InvalidEdge Nfa := do
  let once ← outer.detour body
  let skipped ← if skip then once.connect outer.start .epsilon outer.finish else pure once
  if again then skipped.connect body.finish .epsilon body.start else pure skipped

/-- A start and a finish, numbered from `next` on, that are not joined yet. -/
def frame (next : StateId) : Nfa :=
  bracket next (next + 1)

/-- A frame whose ends are joined by one edge. -/
def atom (label : Label) (next : StateId) : Except InvalidEdge Nfa :=
  (frame next).link label

/-- A frame around two automata, either of which leads from its start to its finish. -/
def branch (left right : Nfa) (next : StateId) : Except InvalidEdge Nfa :=
  (frame next).embrace left right

/-- A frame around an automaton that may be passed by (`skip`) or entered again
(`again`). -/
def wrap (body : Nfa) (next : StateId) (skip again : Bool) : Except InvalidEdge Nfa :=
  (frame next).enclose body skip again

end Nfa

namespace Pattern

section Assembly

variable {m : Type → Type} [Monad m] [MonadLiftT (Except InvalidEdge) m] (mint : m StateId)

/-- A frame of two fresh numbers. -/
def freshBracket : m Nfa := do
  let start ← mint
  let finish ← mint
  return .bracket start finish

/-- Two states and one edge. -/
def assembleAtom (label : Label) : m Nfa := do
  let outer ← freshBracket mint
  outer.link label

/-- Two automata side by side. -/
def assembleBranch (left right : Nfa) : m Nfa := do
  let outer ← freshBracket mint
  outer.embrace left right

/-- An automaton in a frame. -/
def assembleWrap (body : Nfa) (skip again : Bool) : m Nfa := do
  let outer ← freshBracket mint
  outer.enclose body skip again

/-- The automaton of some characters: the alternatives are joined one by one from the left. -/
def assembleClass : List Char → m Nfa
  | [] => assembleAtom mint .epsilon
  | member :: members => do
      let first ← assembleAtom mint (.ofPatternChar member)
      members.foldlM (fun soFar member => do
        let single ← assembleAtom mint (.ofPatternChar member)
        assembleBranch mint soFar single) first

/-- The automaton of a pattern, where `mint` numbers its states. -/
def assemble : Pattern → m Nfa
  | empty => assembleAtom mint .epsilon
  | literal c => assembleAtom mint (.ofPatternChar c)
  | oneOf members => assembleClass mint members
  | sequence items => assembleSequence items
  | either left right => do
      let left ← left.assemble
      let right ← right.assemble
      assembleBranch mint left right
  | star body => do
      let body ← body.assemble
      assembleWrap mint body true true
  | plus body => do
      let body ← body.assemble
      assembleWrap mint body false true
  | optional body => do
      let body ← body.assemble
      assembleWrap mint body true false
  | group body => body.assemble
where
  assembleSequence : List Pattern → m Nfa
    | [] => assembleAtom mint .epsilon
    | item :: items => do
        let first ← item.assemble
        append first items
  append (soFar : Nfa) : List Pattern → m Nfa
    | [] => return soFar
    | item :: items => do
        let part ← item.assemble
        let joined ← soFar.chain part
        append joined items

end Assembly

/-- The automaton of a pattern, numbered from `next` on, and the next free number. -/
def build (next : StateId) (p : Pattern) : Except InvalidEdge (Nfa × StateId) := do
  let (nfa, numbering) ← (p.assemble Numbering.mint).run { next }
  return (nfa, numbering.next)

end Pattern

/-- A construction with numbers of 32 bits: it may stop altogether, and where it fails the numbers
that it has taken are gone. -/
abbrev Minting :=
  ExceptT InvalidEdge (StateT Numbering Option)

/-- Takes a fresh number of 32 bits. -/
def Minting.fresh (onOverflow : Overflow) : Minting StateId :=
  Numbering.mintWithin onOverflow

/-- A run of compilations that share one numbering. -/
structure Compiler where
  numbering : Numbering := {}
  deriving DecidableEq

namespace Compiler

/-- Starts the numbering over. -/
def reset (_ : Compiler) : Compiler :=
  {}

/-- The automaton of a tree, in the numbers that follow those given out so far. -/
def compileTree (c : Compiler) (p : Pattern) : Except CompileError (Nfa × Compiler) :=
  match p.build c.numbering.next with
  | .ok (nfa, next) => .ok (nfa, { numbering := { next } })
  | .error e => .error (.invalidEdge e)

/-- The automaton of a pattern text. -/
def compile (c : Compiler) (text : List Char) : Except CompileError (Nfa × Compiler) :=
  match Pattern.parse text with
  | .ok p => c.compileTree p
  | .error e => .error (.malformed e)

/-- What a call for a tree comes to with numbers of 32 bits, and the compiler behind it, unless
the program stops. -/
def compileTreeWithin (onOverflow : Overflow) (c : Compiler) (p : Pattern) :
    Option (Except CompileError Nfa × Compiler) :=
  ((p.assemble (Minting.fresh onOverflow)).run.run c.numbering).map fun (result, numbering) =>
    (result.mapError .invalidEdge, { numbering })

/-- What a call for a text comes to.  It takes no number before the text has been parsed. -/
def compileWithin (onOverflow : Overflow) (c : Compiler) (text : List Char) :
    Option (Except CompileError Nfa × Compiler) :=
  match Pattern.parse text with
  | .ok p => c.compileTreeWithin onOverflow p
  | .error e => some (.error (.malformed e), c)

end Compiler

/-- The automaton of a pattern text, numbered from zero. -/
def Nfa.ofText (text : List Char) : Except CompileError Nfa :=
  (Compiler.compile {} text).map Prod.fst

/-- The automaton of a tree, numbered from zero. -/
def Nfa.ofPattern (p : Pattern) : Except CompileError Nfa :=
  (Compiler.compileTree {} p).map Prod.fst

end Backtracking
