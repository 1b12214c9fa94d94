import Std.Data.ExtTreeMap
import Backtracking.Search.Round

/-!
# What a search has seen

A report grows with every round: matches and loops in the order in which they are
recorded, the number of live paths after each round, and a census of the ways to every
configuration.

**Ambiguity.**  The largest number of ways in which paths from one origin came to one
configuration without a loop.  Above one, the pattern can consume a text in more than
one way.
-/

namespace Backtracking

/-- A path that came to the finish. -/
structure Match where
  span : Span
  /-- The number of edges of the path. -/
  steps : Nat
  deriving DecidableEq

/-- Where paths from one origin can arrive. -/
structure Destination where
  origin : Nat
  state : StateId
  offset : Nat
  deriving DecidableEq

namespace Destination

/-- Where a path has arrived. -/
def ofPath (p : Path) : Destination :=
  { origin := p.origin, state := p.here.state, offset := p.here.offset }

instance : Ord Destination :=
  ⟨compareLex (compareOn origin) (compareLex (compareOn state) (compareOn offset))⟩

instance : Std.TransOrd Destination :=
  inferInstanceAs (Std.TransCmp
    (compareLex (compareOn origin) (compareLex (compareOn state) (compareOn offset))))

instance : Std.LawfulEqOrd Destination where
  eq_of_compare {a b} h := by
    have outer := compareLex_eq_eq.mp h
    have inner := compareLex_eq_eq.mp outer.2
    have origins : a.origin = b.origin := Nat.compare_eq_eq.mp outer.1
    have states : a.state = b.state := Nat.compare_eq_eq.mp inner.1
    have offsets : a.offset = b.offset := Nat.compare_eq_eq.mp inner.2
    cases a
    cases b
    simp_all

end Destination

/-- How many paths arrived at each destination, and the largest of these numbers. -/
structure Census where
  counts : Std.ExtTreeMap Destination Nat := ∅
  most : Nat := 0

namespace Census

/-- How many paths arrived at a destination. -/
def count (c : Census) (d : Destination) : Nat :=
  c.counts[d]?.getD 0

/-- Counts one more arrival. -/
def add (c : Census) (d : Destination) : Census :=
  let count := c.count d + 1
  { counts := c.counts.insert d count, most := max c.most count }

end Census

/-- Everything that a search has seen so far. -/
structure Report where
  /-- The paths that came to the finish, in the order recorded. -/
  accepted : Array Match := #[]
  /-- The looped paths, in the order recorded. -/
  loops : Array Path := #[]
  /-- The number of live paths after each round. -/
  lives : Array Nat := #[]
  census : Census := {}

namespace Report

/-- The distinct spans of the matches. -/
def spans (r : Report) : SpanSet :=
  r.accepted.foldl (fun spans m => spans.insert m.span) ∅

/-- Whether some path came to the finish. -/
def isMatch (r : Report) : Bool :=
  !r.accepted.isEmpty

/-- The number of matches and loops. -/
def records (r : Report) : Nat :=
  r.accepted.size + r.loops.size

/-- The number of rounds. -/
def rounds (r : Report) : Nat :=
  r.lives.size

/-- The largest number of live paths after a round. -/
def peakPaths (r : Report) : Nat :=
  r.lives.foldl max 0

/-- The largest number of ways to one destination. -/
def ambiguity (r : Report) : Nat :=
  r.census.most

/-- The report after one more round with these arrivals. -/
def addRound (r : Report) (nfa : Nfa) (prune : Bool) (arrivals : List Arrival) : Report :=
  let accepted := (arrivals.filter (Arrival.accepted nfa prune)).map fun a =>
    ({ span := a.path.span, steps := a.path.steps } : Match)
  let loops := (arrivals.filter Arrival.looped).map Arrival.path
  let fresh := (arrivals.filter fun a => !a.looped).map Arrival.path
  { accepted := r.accepted.appendList accepted
    loops := r.loops.appendList loops
    lives := r.lives.push ((arrivals.filter (Arrival.alive prune)).length)
    census := (fresh.map Destination.ofPath).foldl Census.add r.census }

end Report

end Backtracking
