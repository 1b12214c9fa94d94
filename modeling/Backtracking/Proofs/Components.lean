import Backtracking.Proofs.Counting
import Backtracking.Proofs.Verdict

/-!
# Journeys are few where a check finds nothing

Where a check finds nothing, a journey that can return to where it began is determined by
its word.  Any other journey leaves the states that can return at some route, and behind
this route fewer states lie ahead than before.

**Count.**  So a journey over a word of `n` characters is determined by the routes by which
it leaves, the places of the word at which it does so, and its end.  The number of states
ahead bounds how often it can leave, and the number of journeys is polynomial in `n`.

**Results.**
* `Nfa.Journey.eq_of_returns`: a journey that can return is the only one over its word.
* `Nfa.atMost_journeys`: how many journeys there are over a word.
-/

namespace Backtracking
namespace Nfa

open Relation

variable {nfa : Nfa} {lo hi : StateId} {s p q m : StateId} {r : Route} {ρ σ : List Route}

/-- The automaton can get stuck before a character: its edge is the only one out of its source,
so from there nothing is accepted without it. -/
theorem canStrand_of_arc (hn : nfa.Shaped lo hi) {a : Char} (ha : nfa.Arc s (.char a) q) :
    nfa.CanStrand s := by
  refine ⟨s, .refl, fun hfin => ?_, fun hslide => ?_⟩
  · exact hn.no_arc_from_finish (hfin ▸ ha)
  · have hrow : nfa.graph.row s = [⟨.char a, q⟩] := hn.lone ha (by simp)
    rcases ReflTransGen.cases_head hslide with heq | ⟨t, ht, -⟩
    · exact hn.no_arc_from_finish (heq ▸ ha)
    · rw [Arc, hrow, List.mem_singleton] at ht
      simp at ht

/-- The automaton can get stuck before the character of a route. -/
theorem IsRoute.canStrand (hn : nfa.Shaped lo hi) (hr : nfa.IsRoute s r) :
    nfa.CanStrand s :=
  (canStrand_of_arc hn (hr.letter ▸ hr.arc)).of_reaches hr.walk.reaches

/-- Some journey leads from one state to another. -/
def LeadsTo (nfa : Nfa) (s t : StateId) : Prop :=
  ∃ ρ, nfa.Journey s ρ t

/-- Where a check finds nothing, a journey that can return is the only one over its word. -/
theorem Journey.eq_of_returns (hn : nfa.Shaped lo hi)
    {limits : CheckLimits} (hcheck : nfa.check limits = .ok none)
    (hs : s ∈ nfa.entered) (hρ : nfa.Journey s ρ q) (hσ : nfa.Journey s σ q)
    (hback : nfa.LeadsTo q s) (hletters : ρ.map Route.letter = σ.map Route.letter) :
    ρ = σ := by
  rcases hback with ⟨τ, hτ⟩
  by_contra hne
  refine not_canStrand_of_check hn hcheck hs (hρ.append hτ) (hσ.append hτ) ?_ ?_ ?_
  · rw [List.map_append, List.map_append, hletters]
  · exact fun heq => hne (List.append_cancel_right heq)
  · cases hρ with
    | nil =>
        exact absurd (List.map_eq_nil_iff.mp hletters.symm).symm hne
    | cons hr _ =>
        exact hr.canStrand hn

/-- A journey can return from its end, or it takes a route behind which it cannot. -/
theorem Journey.exists_exit (h : nfa.Journey m ρ q) (hback : nfa.LeadsTo m p) :
    nfa.LeadsTo q p ∨
      ∃ α m' r β, ρ = α ++ r :: β ∧ nfa.Journey m α m' ∧ nfa.LeadsTo m' p ∧
        nfa.IsRoute m' r ∧ nfa.Journey r.target β q ∧ ¬ nfa.LeadsTo r.target p := by
  induction h with
  | nil =>
      exact Or.inl hback
  | @cons s q r ρ hr rest ih =>
      by_cases hnext : nfa.LeadsTo r.target p
      · rcases ih hnext with hend | ⟨α, m', r', β, rfl, hα, hm', hr', hβ, hout⟩
        · exact Or.inl hend
        · exact Or.inr ⟨r :: α, m', r', β, rfl, .cons hr hα, hm', hr', hβ, hout⟩
      · exact Or.inr ⟨[], s, r, ρ, rfl, .nil s, hback, hr, rest, hnext⟩

open Classical in
/-- The states that journeys from a state lead to. -/
noncomputable def ahead (nfa : Nfa) (s : StateId) : Finset StateId :=
  nfa.graph.states.toFinset.filter fun t => nfa.LeadsTo s t

theorem mem_ahead_iff (t : StateId) :
    t ∈ nfa.ahead s ↔ nfa.Owns t ∧ nfa.LeadsTo s t := by
  classical
  rw [ahead, Finset.mem_filter, List.mem_toFinset, Graph.mem_states, Owns]

theorem card_ahead_le (s : StateId) : (nfa.ahead s).card ≤ nfa.graph.states.length := by
  classical
  exact (Finset.card_filter_le _ _).trans (List.toFinset_card_le _)

/-- Fewer states lie ahead where there is no way back. -/
theorem card_ahead_lt (hp : nfa.Owns p) (hto : nfa.LeadsTo p q) (hout : ¬ nfa.LeadsTo q p) :
    (nfa.ahead q).card < (nfa.ahead p).card := by
  refine Finset.card_lt_card ((Finset.ssubset_iff_of_subset fun t ht => ?_).mpr ⟨p, ?_, ?_⟩)
  · rcases hto with ⟨α, hα⟩
    obtain ⟨hown, β, hβ⟩ := (mem_ahead_iff t).mp ht
    exact (mem_ahead_iff t).mpr ⟨hown, α ++ β, hα.append hβ⟩
  · exact (mem_ahead_iff p).mpr ⟨hp, [], .nil p⟩
  · exact fun h => hout ((mem_ahead_iff p).mp h).2

/-- All routes of the automaton. -/
def everyRoute (nfa : Nfa) : List Route :=
  nfa.graph.states.flatMap nfa.allRoutes

theorem IsRoute.mem_everyRoute (hn : nfa.Shaped lo hi) (hr : nfa.IsRoute s r) :
    r ∈ nfa.everyRoute :=
  List.mem_flatMap.mpr ⟨s, (Graph.mem_states _ _).mpr (hr.owns_source hn),
    (mem_allRoutes_iff hn s r).mpr hr⟩

/-- The journeys over a word that leave the states around `p` by a given route, at a given
place of the word. -/
def Leaves (nfa : Nfa) (p : StateId) (w : List Char) (exit : Route × Nat) (ρ : List Route) :
    Prop :=
  ∃ α m β, ρ = α ++ exit.1 :: β ∧ nfa.Journey p α m ∧ nfa.LeadsTo m p ∧
    nfa.IsRoute m exit.1 ∧ (∃ q, nfa.Journey exit.1.target β q) ∧
    ¬ nfa.LeadsTo exit.1.target p ∧ α.map Route.letter = w.take exit.2 ∧
    β.map Route.letter = w.drop (exit.2 + 1)

/-- Up to where it leaves, a journey is determined. -/
theorem atMost_leaves (hn : nfa.Shaped lo hi)
    {limits : CheckLimits} (hcheck : nfa.check limits = .ok none) (hp : p ∈ nfa.entered)
    (w : List Char) (exit : Route × Nat) {n : Nat}
    (hrest : (nfa.ahead exit.1.target).card < (nfa.ahead p).card →
      exit.1.target ∈ nfa.entered → AtMost n fun β =>
        (∃ q, nfa.Journey exit.1.target β q) ∧ β.map Route.letter = w.drop (exit.2 + 1)) :
    AtMost n (nfa.Leaves p w exit) := by
  by_cases hex : ∃ ρ, nfa.Leaves p w exit ρ
  · rcases hex with ⟨ρ, α, m, β, -, hα, hm, hr, -, hout, hαw, -⟩
    have hm' := hα.mem_entered hp
    have hrest := hrest
      (card_ahead_lt (owns_of_mem_entered hn hp) ⟨_, hα.append (.cons hr (.nil _))⟩ hout)
      (hr.target_mem_entered ((mem_entered_iff nfa m).mp hm').1)
    refine (hrest.image fun β => α ++ exit.1 :: β).mono le_rfl ?_
    rintro ρ' ⟨α', m', β', rfl, hα', hm', hr', hβ', -, hαw', hβw'⟩
    obtain rfl := hr.eq_of_isRoute hr'
    obtain rfl := hα.eq_of_returns hn hcheck hp hα' hm (hαw.trans hαw'.symm)
    exact ⟨β', ⟨hβ', hβw'⟩, rfl⟩
  · exact atMost_of_forall_not n (not_exists.mp hex)

/-- Where a check finds nothing, the number of journeys over a word is polynomial in the
length of the word. -/
theorem atMost_journeys (hn : nfa.Shaped lo hi)
    {limits : CheckLimits} (hcheck : nfa.check limits = .ok none) (d : Nat)
    (hp : p ∈ nfa.entered) (hd : (nfa.ahead p).card ≤ d) (w : List Char) {n : Nat}
    (hw : w.length ≤ n) :
    AtMost ((nfa.graph.states.length + nfa.everyRoute.length * n) ^ d) fun ρ =>
      (∃ q, nfa.Journey p ρ q) ∧ ρ.map Route.letter = w := by
  have howns := owns_of_mem_entered hn hp
  have hself : p ∈ nfa.ahead p := (mem_ahead_iff p).mpr ⟨howns, [], .nil p⟩
  induction d generalizing p w with
  | zero =>
      rw [Nat.le_zero, Finset.card_eq_zero] at hd
      exact absurd (hd ▸ hself) (Finset.notMem_empty p)
  | succ d ih =>
      -- the journeys that can return, one for each end
      have hstay : AtMost (nfa.graph.states.length * 1) fun ρ =>
          ∃ q, q ∈ nfa.graph.states ∧
            nfa.Journey p ρ q ∧ nfa.LeadsTo q p ∧ ρ.map Route.letter = w := by
        refine (atMost_mem nfa.graph.states).bind fun q _ => atMost_one fun ρ σ hρ hσ => ?_
        exact hρ.1.eq_of_returns hn hcheck hp hσ.1 hρ.2.1 (hρ.2.2.trans hσ.2.2.symm)
      -- those that leave, by one of the routes at one of the places
      have hleave := (atMost_mem (nfa.everyRoute ×ˢ List.range n)).bind fun exit _ =>
        atMost_leaves hn hcheck hp w exit fun hlt hent =>
          ih hent (by omega) (w.drop (exit.2 + 1))
            (by rw [List.length_drop]; omega) (owns_of_mem_entered hn hent)
            ((mem_ahead_iff _).mpr ⟨owns_of_mem_entered hn hent, [], .nil _⟩)
      refine (hstay.or hleave).mono ?_ ?_
      · have hpos : 0 < nfa.graph.states.length :=
          List.length_pos_of_mem ((Graph.mem_states _ _).mpr howns)
        rw [List.length_product, List.length_range, Nat.pow_succ', Nat.add_mul]
        refine Nat.add_le_add_right (Nat.mul_le_mul_left _ ?_) _
        exact Nat.one_le_pow _ _ (by omega)
      · rintro ρ ⟨⟨q, hρ⟩, rfl⟩
        rcases hρ.exists_exit ⟨[], .nil p⟩ with hback | ⟨α, m, r, β, rfl, hα, hm, hr, hβ, hout⟩
        · have hq := owns_of_mem_entered hn (hρ.mem_entered hp)
          exact Or.inl ⟨q, (Graph.mem_states _ _).mpr hq, hρ, hback, rfl⟩
        · refine Or.inr ⟨(r, α.length), ?_, α, m, β, rfl, hα, hm, hr, ⟨q, hβ⟩, hout, ?_, ?_⟩
          · rw [List.mem_product, List.mem_range]
            rw [List.length_map, List.length_append, List.length_cons] at hw
            exact ⟨hr.mem_everyRoute hn, by omega⟩
          · simp
          · simp [List.drop_append]

end Nfa

end Backtracking
