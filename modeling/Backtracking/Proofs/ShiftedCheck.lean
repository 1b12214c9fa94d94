import Backtracking.Proofs.RenamedCheck
import Backtracking.Proofs.ShiftedSearch
import Mathlib.Tactic

/-!
# Checking a shifted automaton

A shift is a renaming of states that keeps their order and the order of the edges.  So the check
of a shifted automaton takes the same steps, and a limit stops it at the same edge.

**Results.**
* `Nfa.carries_shift`: what a check asks of a shifted automaton.
* `Nfa.check_shift`: the verdict on a shifted automaton, under every limit.
-/

namespace Backtracking

/-- The renaming that numbers all states higher by `k`. -/
def Renaming.shift (k : Nat) : Renaming where
  state := shiftState k
  char := id
  state_injective := shiftState_injective k
  char_injective := Function.injective_id

theorem Renaming.transition_shift (k : Nat) : (shift k).transition = Transition.shift k := by
  funext t
  rw [transition, shift, Label.relabel_id]
  rfl

/-- The witness at the shifted state. -/
def Witness.shift (k : Nat) (w : Witness) : Witness :=
  { w with
    state := shiftState k w.state
    first := w.first.map (Transition.shift k)
    second := w.second.map (Transition.shift k) }

theorem Renaming.witness_shift (k : Nat) : (shift k).witness = Witness.shift k := by
  funext w
  rw [witness, transition_shift, shift, List.map_id]
  rfl

namespace Nfa

theorem reachable_shift (k : Nat) (nfa : Nfa) (s : StateId) :
    (nfa.shift k).reachable (shiftState k s) = rename (shiftState k) (nfa.reachable s) :=
  Graph.follow_shift k nfa.graph _ [s]

theorem entered_shift (k : Nat) (nfa : Nfa) :
    (nfa.shift k).entered = rename (shiftState k) nfa.entered := by
  have hreach : (nfa.shift k).reachable (nfa.shift k).start =
      rename (shiftState k) (nfa.reachable nfa.start) := nfa.reachable_shift k nfa.start
  have hpick : ∀ ts : List Transition,
      (ts.map (Transition.shift k)).filter (fun t => t.label.consumed?.isSome &&
          (rename (shiftState k) (nfa.reachable nfa.start)).contains t.target) =
        (ts.filter fun t => t.label.consumed?.isSome &&
          (nfa.reachable nfa.start).contains t.target).map (Transition.shift k) :=
    filter_map_of_eq fun t => by
      simp only [Transition.shift, contains_rename_shiftState]
  rw [entered, hreach, transitions_shift, entered, rename_ofList, hpick, List.map_map, List.map_map]
  rfl

theorem canGetStuck_shift (k : Nat) (nfa : Nfa) (s : StateId) :
    (nfa.shift k).canGetStuck (shiftState k s) = nfa.canGetStuck s := by
  rw [canGetStuck, reachable_shift, toList_rename_shiftState, List.any_map, canGetStuck]
  refine List.any_congr rfl fun r => ?_
  have hclosed : (nfa.shift k).epsilonReachable [shiftState k r] =
      rename (shiftState k) (nfa.epsilonReachable [r]) := nfa.epsilonReachable_shift k [r]
  rw [Function.comp_apply, hclosed, shift, contains_rename_shiftState]
  exact congrArg (· && _) (congrArg not (shiftState_injective k).beq_eq)

theorem carries_shift (k : Nat) (nfa : Nfa) :
    (Renaming.shift k).Carries nfa (nfa.shift k) where
  transitionsFrom s := by
    rw [Renaming.transition_shift]
    exact Graph.transitionsFrom_shift k nfa.graph s
  length_states := nfa.length_states_shift k
  entered := by
    rw [entered_shift, toList_rename_shiftState]
    rfl
  canGetStuck := nfa.canGetStuck_shift k

/-- A shifted automaton has the shifted verdict, or its check stops at the same limit. -/
theorem check_shift (k : Nat) (nfa : Nfa) (limits : CheckLimits) :
    (nfa.shift k).check limits = (nfa.check limits).map (Option.map (Witness.shift k)) := by
  rw [(nfa.carries_shift k).check_eq, Renaming.witness_shift]

end Nfa

end Backtracking
