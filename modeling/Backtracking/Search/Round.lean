import Backtracking.Search.Path

/-!
# Rounds of a search

In a round every live path is extended by every edge that it can cross.  What comes of
it is a list of arrivals in a fixed order: by the order of the live paths, and for one
path by the order of the edges.

* A looped arrival is recorded as a loop; it stays alive only if loops are not pruned.
* An arrival that is not looped is counted as a way to its configuration.
* An arrival that stays alive and stands in the finish is recorded as a match.

**Limit.**  Records and live paths may not outgrow the limit on paths.
`Arrival.excess?` says which of the two does so first.
-/

namespace Backtracking

/-- How far a search may go.  `none` is no limit. -/
structure SearchLimits where
  maxRounds : Option Nat := some 10000
  maxPaths : Option Nat := some 1000000
  /-- Whether a looped path is given up. -/
  pruneLoops : Bool := true
  deriving DecidableEq

/-- A path after its last edge, and whether that edge closed a loop. -/
structure Arrival where
  path : Path
  looped : Bool

namespace Arrival

/-- Looks for a loop at the end of a path. -/
def ofPath (path : Path) : Arrival :=
  { path, looped := path.looped }

/-- Whether the path is extended further. -/
def alive (prune : Bool) (a : Arrival) : Bool :=
  !(prune && a.looped)

/-- Whether the path is recorded as a match. -/
def accepted (nfa : Nfa) (prune : Bool) (a : Arrival) : Bool :=
  a.alive prune && a.path.here.state == nfa.finish

end Arrival

/-- What outgrew the limit on paths. -/
inductive Excess
  | recorded
  | live
  deriving DecidableEq

namespace Arrival

/-- Goes through the arrivals of a round, starting from the number of records and of
live paths so far, and stops where one of them outgrows the limit. -/
def excess? (nfa : Nfa) (prune : Bool) (limit : Nat) :
    (records live : Nat) → List Arrival → Option Excess
  | _, _, [] => none
  | records, live, a :: rest =>
      let noted := if a.looped then records + 1 else records
      let kept := if a.accepted nfa prune then noted + 1 else noted
      let alive := if a.alive prune then live + 1 else live
      if limit < kept then
        some .recorded
      else if limit < alive then
        some .live
      else
        excess? nfa prune limit kept alive rest

end Arrival

/-- The arrivals of the round that extends the given live paths. -/
def Nfa.arrivals (nfa : Nfa) (word : List Char) (live : List Path) : List Arrival :=
  live.flatMap fun p => (p.successors nfa word).map Arrival.ofPath

end Backtracking
