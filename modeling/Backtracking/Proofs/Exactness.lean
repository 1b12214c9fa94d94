import Backtracking.Proofs.Construction
import Backtracking.Proofs.Verdict

/-!
# Checks are exact

An automaton is exploitable if two different walks lead from a reachable state back to it
over the same word, without anchors and with simple runs wherever they are put together,
and if the automaton can get stuck behind the state.

**States.**  The state may be any state, but a check looks only at those that the edge of
a character enters.  The walks are turned round until they begin behind their last
consumed character (`Nfa.Twins.exists_journeys`); there they are two journeys.

**Results.**
* `Compiler.check_compileTree_iff`: a check without a limit is right about every compiled
  tree.
-/

namespace Backtracking
namespace Nfa

open Relation

/-- Two different closed walks over the same word, which may follow each other in any
order. -/
structure Twins (nfa : Nfa) (q : StateId) (c₁ c₂ : List Transition) : Prop where
  first : nfa.Walk q c₁ q
  second : nfa.Walk q c₂ q
  different : c₁ ≠ c₂
  first_anchorFree : AnchorFree c₁
  second_anchorFree : AnchorFree c₂
  word_eq : consumedWord c₁ = consumedWord c₂
  word_ne_nil : consumedWord c₁ ≠ []
  simple : RunsSimple (c₁ ++ c₁) ∧ RunsSimple (c₁ ++ c₂) ∧
    RunsSimple (c₂ ++ c₁) ∧ RunsSimple (c₂ ++ c₂)

/-- Some state has twin walks, and the automaton can get stuck behind it. -/
def Exploitable (nfa : Nfa) : Prop :=
  ∃ q, nfa.Reaches nfa.start q ∧ (∃ c₁ c₂, nfa.Twins q c₁ c₂) ∧ nfa.CanStrand q

variable {nfa : Nfa} {q x : StateId} {c c₁ c₂ : List Transition}

/-- A closed walk between two others, turned round so that it begins and ends behind an
edge of the others. -/
theorem exists_journey_of_turn
    {a b : List Transition} {e : Transition}
    (hce : nfa.Walk q (a ++ e :: b) q) (hc : nfa.Walk q c q)
    (hfree : AnchorFree (a ++ e :: b)) (hcfree : AnchorFree c) (he : e.consumes = true)
    (hword : consumedWord c ≠ [])
    (hbefore : RunsSimple ((a ++ e :: b) ++ c)) (hafter : RunsSimple (c ++ (a ++ e :: b))) :
    ∃ rs, nfa.Journey e.target rs e.target ∧ legs rs = b ++ c ++ a ++ [e] := by
  obtain ⟨m, hto, hfrom⟩ := walk_append_iff.mp hce
  obtain ⟨rfl, he', hfrom⟩ := walk_cons_iff.mp hfrom
  refine exists_journey_of_walk ?_ ?_ he ?_ (by simp [he])
  · exact ((hfrom.append hc).append hto).append (walk_singleton_iff.mpr ⟨rfl, he', rfl⟩)
  · intro t ht
    simp only [List.mem_append, List.mem_singleton] at ht
    rcases ht with ((ht | ht) | ht) | rfl
    · exact hfree t (by simp [ht])
    · exact hcfree t ht
    · exact hfree t (by simp [ht])
    · exact hfree t (by simp)
  · have h := RunsSimple.append_of_overlap hword hbefore hafter
    refine RunsSimple.of_append_append a b ?_
    simpa using h

/-- Behind their last consumed character twin walks are journeys. -/
theorem Twins.exists_journeys (h : nfa.Twins q c₁ c₂) :
    ∃ (x : StateId) (ρ σ : List Route), nfa.Reaches q x ∧ nfa.Reaches x q ∧
      (∃ s a, nfa.Arc s (.char a) x) ∧ nfa.Journey x ρ x ∧ nfa.Journey x σ x ∧
      ρ.map Route.letter = σ.map Route.letter ∧ ρ ≠ σ := by
  obtain ⟨a, e, b, rfl, he, -⟩ :=
    exists_last_split (exists_consumes_of_consumedWord_ne_nil h.word_ne_nil)
  obtain ⟨letter, hletter⟩ := label_eq_char_of_consumes he
  obtain ⟨hself, hthere, hback, -⟩ := h.simple
  obtain ⟨ρ, hρ, hρlegs⟩ := exists_journey_of_turn h.first h.first h.first_anchorFree
    h.first_anchorFree he h.word_ne_nil hself hself
  obtain ⟨σ, hσ, hσlegs⟩ := exists_journey_of_turn h.first h.second h.first_anchorFree
    h.second_anchorFree he (h.word_eq ▸ h.word_ne_nil) hthere hback
  obtain ⟨m, hto, hfrom⟩ := walk_append_iff.mp h.first
  obtain ⟨rfl, harc, hfrom⟩ := walk_cons_iff.mp hfrom
  refine ⟨e.target, ρ, σ, ?_, hfrom.reaches, ⟨_, letter, hletter ▸ harc⟩, hρ, hσ, ?_, ?_⟩
  · exact ReflTransGen.tail hto.reaches ⟨_, harc⟩
  · rw [← hρ.consumedWord_legs, ← hσ.consumedWord_legs, hρlegs, hσlegs]
    simp only [consumedWord_append, h.word_eq]
  · rintro rfl
    rw [hρlegs] at hσlegs
    exact h.different
      (List.append_cancel_left (List.append_cancel_right (List.append_cancel_right hσlegs)))

/-- Two different journeys over the same word are twin walks. -/
theorem twins_of_journeys {ρ σ : List Route}
    (hρ : nfa.Journey q ρ q) (hσ : nfa.Journey q σ q)
    (hletters : ρ.map Route.letter = σ.map Route.letter) (hne : ρ ≠ σ) :
    nfa.Twins q (legs ρ) (legs σ) := by
  refine ⟨hρ.walk, hσ.walk, fun heq => hne (hρ.eq_of_legs_eq hσ heq), hρ.anchorFree,
    hσ.anchorFree, ?_, fun hnil => hne ?_, ?_, ?_, ?_, ?_⟩
  · rw [hρ.consumedWord_legs, hσ.consumedWord_legs, hletters]
  · rw [hρ.consumedWord_legs, List.map_eq_nil_iff] at hnil
    rw [hnil, List.map_nil] at hletters
    rw [hnil, List.map_eq_nil_iff.mp hletters.symm]
  · exact legs_append ρ ρ ▸ (hρ.append hρ).runsSimple
  · exact legs_append ρ σ ▸ (hρ.append hσ).runsSimple
  · exact legs_append σ ρ ▸ (hσ.append hρ).runsSimple
  · exact legs_append σ σ ▸ (hσ.append hσ).runsSimple

end Nfa

/-- The verdict on a compiled tree, without a limit: vulnerable if and only if exploitable. -/
theorem Compiler.check_compileTree_iff (c : Compiler) (p : Pattern) :
    ∃ nfa c', c.compileTree p = .ok (nfa, c') ∧
      ∃ v, nfa.check { maxSteps := none } = .ok v ∧ (v.isSome = true ↔ nfa.Exploitable) := by
  obtain ⟨nfa, c', hok, hfrag⟩ := c.exists_compileTree p
  obtain ⟨v, hv⟩ := nfa.exists_check_eq_ok
  refine ⟨nfa, c', hok, v, hv, ?_, ?_⟩
  · intro hsome
    obtain ⟨w, rfl⟩ := Option.isSome_iff_exists.mp hsome
    obtain ⟨hent, hstrand, ρ, σ, -, -, hne, hρ, hσ, hρword, hσword⟩ :=
      Nfa.exists_journeys_of_check hfrag.shaped hv
    exact ⟨w.state, ((Nfa.mem_entered_iff nfa _).mp hent).1,
      ⟨legs ρ, legs σ, Nfa.twins_of_journeys hρ hσ (hρword.trans hσword.symm) hne⟩, hstrand⟩
  · rintro ⟨q, hreach, ⟨c₁, c₂, htwins⟩, hstrand⟩
    obtain ⟨x, ρ, σ, hqx, hxq, harc, hρ, hσ, hletters, hne⟩ := htwins.exists_journeys
    cases v with
    | some w =>
        rfl
    | none =>
        have hent : x ∈ nfa.entered :=
          (Nfa.mem_entered_iff nfa x).mpr ⟨Relation.ReflTransGen.trans hreach hqx, harc⟩
        exact absurd (hstrand.of_reaches hxq)
          (Nfa.not_canStrand_of_check hfrag.shaped hv hent hρ hσ hletters hne)

end Backtracking
