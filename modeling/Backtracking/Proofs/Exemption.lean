import Backtracking.Proofs.Components
import Backtracking.Proofs.Exactness

/-!
# No state is exempt

A check looks for a state with twin cycles behind which the automaton can get stuck.  A state
with twin cycles behind which it cannot would be exempt.

**Why there is none.**  Twin cycles consume something, so the edge of a character can be reached
from their state.  This edge is the only one out of its source, and the source is not the finish:
an automaton that has come there accepts nothing without a further character.

**Results.**
* `Nfa.Unexempted`: what this means for the definition of an exploitable automaton, for the
  search, and for the verdict.
* `Compiler.unexempted_compileTree`: it holds of every compiled tree.
-/

namespace Backtracking
namespace Nfa

variable {nfa : Nfa} {lo hi s q t : StateId} {c₁ c₂ : List Transition}

/-- A search for twin cycles from a state, over the routes that a check collects, finds some
under one limit or another. -/
def HasTwinCycles (nfa : Nfa) (q : StateId) : Prop :=
  ∃ limit table n steps m w, nfa.routeTable limit nfa.entered.toList ∅ 0 = .ok (table, n) ∧
    table.twinCycles limit q steps = .ok (m, some w)

/-- The condition that the automaton can get stuck changes nothing. -/
structure Unexempted (nfa : Nfa) : Prop where
  canGetStuck_of_arc : ∀ {s q a t}, nfa.Reaches s q → nfa.Arc q (.char a) t →
    nfa.canGetStuck s = true
  canGetStuck_of_twinCycles : ∀ {q}, nfa.HasTwinCycles q → nfa.canGetStuck q = true
  /-- It is enough to walk on and consume something, as the closed walks of the definition do. -/
  canGetStuck_of_walk : ∀ {q c m}, nfa.Walk q c m → consumedWord c ≠ [] →
    nfa.canGetStuck q = true
  exempt_eq_nil : ∀ limits, (nfa.checkRun limits).exempt = []
  exploitable_iff : nfa.Exploitable ↔
    ∃ q, nfa.Reaches nfa.start q ∧ ∃ c₁ c₂, nfa.Twins q c₁ c₂
  exists_check : ∃ v, nfa.check { maxSteps := none } = .ok v
  vulnerable_iff : ∀ {limits v}, nfa.check limits = .ok v →
    (v.isSome = true ↔ ∃ q ∈ nfa.entered, nfa.HasTwinCycles q)

/-- The automaton can get stuck before the end of a walk that consumes something. -/
theorem Walk.canStrand (hn : nfa.Shaped lo hi) (h : nfa.Walk s c₁ t)
    (hne : consumedWord c₁ ≠ []) : nfa.CanStrand s := by
  obtain ⟨e, he, hconsumes⟩ := exists_consumes_of_consumedWord_ne_nil hne
  obtain ⟨a, ha⟩ := label_eq_char_of_consumes hconsumes
  obtain ⟨before, after, rfl⟩ := List.append_of_mem he
  obtain ⟨m, hto, hfrom⟩ := walk_append_iff.mp h
  obtain ⟨rfl, harc, -⟩ := walk_cons_iff.mp hfrom
  exact (canStrand_of_arc hn (ha ▸ harc)).of_reaches hto.reaches

theorem Twins.canStrand (hn : nfa.Shaped lo hi) (h : nfa.Twins q c₁ c₂) : nfa.CanStrand q :=
  h.first.canStrand hn h.word_ne_nil

/-- Twin cycles that are found are twin walks. -/
theorem HasTwinCycles.exists_twins (hn : nfa.Shaped lo hi) (h : nfa.HasTwinCycles q) :
    ∃ c₁ c₂, nfa.Twins q c₁ c₂ := by
  obtain ⟨limit, table, n, steps, m, w, htable, hw⟩ := h
  obtain rfl := eq_checkTable_of_routeTable htable
  obtain ⟨hjoined, hhere⟩ := RouteTable.joined_of_twinCycles hw
  obtain ⟨ρ, σ, -, -, hρ, hσ, hletters, hapart, -⟩ := journeys_of_joined hn hjoined
  rw [hhere] at hρ hσ hapart
  exact ⟨legs ρ, legs σ, twins_of_journeys hρ hσ hletters (hapart.mp rfl)⟩

theorem HasTwinCycles.canGetStuck (hn : nfa.Shaped lo hi) (h : nfa.HasTwinCycles q) :
    nfa.canGetStuck q = true := by
  obtain ⟨c₁, c₂, htwins⟩ := h.exists_twins hn
  exact (canGetStuck_iff nfa q).mpr (htwins.canStrand hn)

/-- If the automaton can get stuck behind every state for which twin cycles are found, no state is
added to those that are exempt. -/
theorem exempt_tryStates {limit : Option Nat} {table : RouteTable}
    (h : ∀ {q steps m w}, table.twinCycles limit q steps = .ok (m, some w) →
      nfa.canGetStuck q = true)
    (states exempt : List StateId) (steps : Nat) :
    (nfa.tryStates limit table states exempt steps).exempt = exempt.reverse := by
  induction states generalizing steps with
  | nil =>
      rfl
  | cons s states ih =>
      rw [tryStates]
      split
      · rfl
      · exact ih _
      · next hw =>
          rw [if_pos (h hw)]

theorem exempt_checkRun (hn : nfa.Shaped lo hi) (limits : CheckLimits) :
    (nfa.checkRun limits).exempt = [] := by
  rw [checkRun]
  split
  · rfl
  · next table n htable =>
      exact exempt_tryStates
        (fun hw => HasTwinCycles.canGetStuck hn ⟨_, table, n, _, _, _, htable, hw⟩) _ _ _

/-- A check that gives an answer finds twin walks wherever there are some. -/
theorem isSome_of_twins (hn : nfa.Shaped lo hi) {limits : CheckLimits} {v : Verdict}
    (hcheck : nfa.check limits = .ok v) (hq : nfa.Reaches nfa.start q)
    (h : nfa.Twins q c₁ c₂) : v.isSome = true := by
  obtain ⟨x, ρ, σ, hqx, hxq, harc, hρ, hσ, hletters, hne⟩ := h.exists_journeys
  cases v with
  | some w =>
      rfl
  | none =>
      have hent : x ∈ nfa.entered := (mem_entered_iff nfa x).mpr ⟨hq.trans hqx, harc⟩
      exact absurd ((h.canStrand hn).of_reaches hxq)
        (not_canStrand_of_check hn hcheck hent hρ hσ hletters hne)

/-- What a witness is made of was found by the search. -/
theorem hasTwinCycles_of_check {limits : CheckLimits} {w : Witness}
    (h : nfa.check limits = .ok (some w)) : w.state ∈ nfa.entered ∧ nfa.HasTwinCycles w.state := by
  obtain ⟨n, htable, -⟩ := exists_tryStates_of_check h
  obtain ⟨before, s, after, hsplit, -, steps, m, tw, htw, -, rfl⟩ := exists_twinCycles_of_check h
  have hs : s ∈ nfa.entered.toList := by simp [hsplit]
  exact ⟨Std.ExtTreeSet.mem_toList.mp hs, _, _, n, steps, m, tw, htable, htw⟩

theorem Shaped.unexempted (hn : nfa.Shaped lo hi) : nfa.Unexempted where
  canGetStuck_of_arc hreach harc :=
    (canGetStuck_iff nfa _).mpr ((canStrand_of_arc hn harc).of_reaches hreach)
  canGetStuck_of_twinCycles h := h.canGetStuck hn
  canGetStuck_of_walk h hne := (canGetStuck_iff nfa _).mpr (h.canStrand hn hne)
  exempt_eq_nil := exempt_checkRun hn
  exploitable_iff :=
    ⟨fun ⟨q, hq, htwins, _⟩ => ⟨q, hq, htwins⟩,
      fun ⟨q, hq, c₁, c₂, h⟩ => ⟨q, hq, ⟨c₁, c₂, h⟩, h.canStrand hn⟩⟩
  exists_check := nfa.exists_check_eq_ok
  vulnerable_iff {limits v} hcheck := by
    constructor
    · intro hsome
      obtain ⟨w, rfl⟩ := Option.isSome_iff_exists.mp hsome
      exact ⟨w.state, hasTwinCycles_of_check hcheck⟩
    · rintro ⟨q, hq, h⟩
      obtain ⟨c₁, c₂, htwins⟩ := h.exists_twins hn
      exact isSome_of_twins hn hcheck ((mem_entered_iff nfa q).mp hq).1 htwins

end Nfa

/-- The automaton of a tree can get stuck behind every state with twin cycles, and behind every
state from which an edge of a character can be reached: a check exempts no state, and its verdict
depends on twin cycles only. -/
theorem Compiler.unexempted_compileTree (c : Compiler) (p : Pattern) :
    ∃ nfa c', c.compileTree p = .ok (nfa, c') ∧ nfa.Unexempted := by
  obtain ⟨nfa, c', hok, hfrag⟩ := c.exists_compileTree p
  exact ⟨nfa, c', hok, hfrag.shaped.unexempted⟩

end Backtracking
