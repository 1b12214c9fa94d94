import Backtracking.Graph.Basic

/-!
# Following edges

The states that can be reached from given ones along the edges of a graph whose
labels pass a test.

**Algorithm.**  Generation by generation: the states at the end of a passable edge out
of the last generation, less those met before, form the next one.  A state without a row
has no edges, so only the last generation can consist of such states alone; every other
one takes a row of its own, and one generation more than there are rows is enough, on
every cycle.
-/

namespace Backtracking
namespace Graph

/-- The states at the end of the passable edges out of a state. -/
def targets (g : Graph) (passable : Label → Bool) (s : StateId) : List StateId :=
  ((g.row s).filter fun e => passable e.label).map Edge.target

/-- Adds to `met` what can be reached from `generation` outside of it, at most `rounds`
generations. -/
def spread (next : StateId → List StateId) :
    (rounds : Nat) → (generation : List StateId) → (met : StateSet) → StateSet
  | 0, _, met => met
  | rounds + 1, generation, met =>
      let fresh : StateSet :=
        .ofList ((generation.flatMap next).filter fun s => !met.contains s)
      if fresh.isEmpty then
        met
      else
        spread next rounds fresh.toList (met.insertMany fresh.toList)

/-- The seeds and all states that can be reached from them along passable edges. -/
def follow (g : Graph) (passable : Label → Bool) (seeds : List StateId) : StateSet :=
  let met : StateSet := .ofList seeds
  spread (g.targets passable) (g.states.length + 1) met.toList met

/-- Nothing is reached from nowhere. -/
theorem follow_nil (g : Graph) (passable : Label → Bool) : g.follow passable [] = ∅ := by
  simp [follow, spread]

end Graph
end Backtracking
