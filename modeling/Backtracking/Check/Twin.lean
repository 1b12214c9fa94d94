import Backtracking.Check.Route

/-!
# Twin cycles

Two walks from the same state go side by side over routes: in every step both consume
the same character, each by a route of its own.  Where they come back to the state
together, after having taken different routes at some step, the word that they have
consumed can be repeated in two ways.

**Algorithm.**  Breadth first over pairs of states, from the pair of the state with
itself, noting for a pair whether the walks are apart by now.  No pair is entered twice,
so the pairs of one length of walk form a generation, and there are no more generations
than pairs.  A walk keeps its routes; noting the parent of every pair instead and
following the notes back comes to the same (`RouteTable.Finds`).
-/

namespace Backtracking

/-- Where two walks have come to, and whether they have taken different routes. -/
structure TwinState where
  left : StateId
  right : StateId
  apart : Bool
  deriving DecidableEq

namespace TwinState

instance : Ord TwinState :=
  ⟨compareLex (compareOn left) (compareLex (compareOn right) (compareOn fun p => p.apart.toNat))⟩

instance : Std.TransOrd TwinState :=
  inferInstanceAs (Std.TransCmp (compareLex (compareOn left)
    (compareLex (compareOn right) (compareOn fun p => p.apart.toNat))))

instance : Std.LawfulEqOrd TwinState where
  eq_of_compare {a b} h := by
    have outer := compareLex_eq_eq.mp h
    have inner := compareLex_eq_eq.mp outer.2
    have lefts : a.left = b.left := Nat.compare_eq_eq.mp outer.1
    have rights : a.right = b.right := Nat.compare_eq_eq.mp inner.1
    have aparts : a.apart.toNat = b.apart.toNat := Nat.compare_eq_eq.mp inner.2
    obtain ⟨l, r, x⟩ := a
    obtain ⟨l', r', y⟩ := b
    cases x <;> cases y <;> simp_all

end TwinState

/-- Two walks side by side: where they have come to, and their routes, newest first. -/
structure TwinWalk where
  here : TwinState
  trail : List (Route × Route)

namespace TwinWalk

/-- Two walks that have not left their state. -/
def seed (s : StateId) : TwinWalk :=
  { here := { left := s, right := s, apart := false }, trail := [] }

/-- Both walks take one more route. -/
def extend (w : TwinWalk) (step : Route × Route) : TwinWalk :=
  { here :=
      { left := step.1.target
        right := step.2.target
        apart := w.here.apart || step.1 != step.2 }
    trail := step :: w.trail }

/-- The edges of the first walk. -/
def first (w : TwinWalk) : List Transition :=
  w.trail.reverse.flatMap fun step => step.1.transitions

/-- The edges of the second walk. -/
def second (w : TwinWalk) : List Transition :=
  w.trail.reverse.flatMap fun step => step.2.transitions

end TwinWalk

/-- The routes out of every state that takes part in a check. -/
abbrev RouteTable := Std.ExtTreeMap StateId (List Route)

/-- The pairs of routes that two walks can take side by side. -/
def RouteTable.joint (table : RouteTable) (p : TwinState) : List (Route × Route) :=
  (table[p.left]?.getD []).flatMap fun r =>
    ((table[p.right]?.getD []).filter fun r' => r.letter == r'.letter).map fun r' => (r, r')

/-- A search for twin cycles under way: the steps so far, the pairs entered, and the
walks of the next generation, newest first. -/
structure TwinSearch where
  steps : Nat
  entered : Std.ExtTreeSet TwinState
  fresh : List TwinWalk

/-- Why a search for twin cycles stops early. -/
inductive TwinStop
  | exhausted (e : Exhausted)
  | closed (steps : Nat) (w : TwinWalk)

namespace TwinSearch

/-- Tries one more step of two walks, which leads to `w`. -/
def offer (limit : Option Nat) (goal : TwinState) (s : TwinSearch) (w : TwinWalk) :
    Except TwinStop TwinSearch :=
  match spend limit s.steps with
  | .error e => .error (.exhausted e)
  | .ok steps =>
      if s.entered.contains w.here then
        .ok { s with steps }
      else if w.here = goal then
        .error (.closed steps w)
      else
        .ok { steps, entered := s.entered.insert w.here, fresh := w :: s.fresh }

/-- Tries all steps of a generation of walks. -/
def generation (limit : Option Nat) (table : RouteTable) (goal : TwinState)
    (s : TwinSearch) (walks : List TwinWalk) : Except TwinStop TwinSearch :=
  walks.foldlM (fun s w =>
    (table.joint w.here).foldlM (fun s step => s.offer limit goal (w.extend step)) s) s

/-- Goes through at most `rounds` generations. -/
def run (limit : Option Nat) (table : RouteTable) (goal : TwinState) :
    (rounds : Nat) → TwinSearch → Except TwinStop Nat
  | 0, s => return s.steps
  | rounds + 1, s =>
      if s.fresh.isEmpty then
        return s.steps
      else do
        let next ← generation limit table goal { s with fresh := [] } s.fresh.reverse
        next.run limit table goal rounds

end TwinSearch

/-- Two walks from `s` back to `s` that consume the same word by different routes, if
there are any, and the steps of the check so far. -/
def RouteTable.twinCycles (table : RouteTable) (limit : Option Nat) (s : StateId)
    (steps : Nat) : Except Exhausted (Nat × Option TwinWalk) :=
  let seed := TwinWalk.seed s
  let goal := { seed.here with apart := true }
  match TwinSearch.run limit table goal (2 * table.size * table.size + 1)
      { steps, entered := {seed.here}, fresh := [seed] } with
  | .ok steps => .ok (steps, none)
  | .error (.closed steps w) => .ok (steps, some w)
  | .error (.exhausted e) => .error e

end Backtracking
