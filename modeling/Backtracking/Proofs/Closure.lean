import Backtracking.Check.Verdict
import Backtracking.Graph.View
import Mathlib.Logic.Relation
import Mathlib.Tactic

/-!
# Closures are exact

Following edges generation by generation finds exactly the states that can be reached
along passable edges.

**Saturation.**  A generation that is not empty holds a state with a row of its own, or
nothing leaves it.  So the number of rows whose state is still missing bounds the number
of generations (`closed_spread`).

**Results.**
* `mem_follow_iff`: following edges is the reflexive-transitive closure of `Graph.Link`.
* `mem_epsilonReachable_iff`, `mem_settle_iff`, `mem_reachable_iff`: its three instances.
-/

namespace Backtracking

/-- A set of states is listed in ascending order. -/
theorem StateSet.pairwise_toList (X : StateSet) : X.toList.Pairwise (· < ·) :=
  Std.ExtTreeSet.ordered_toList.imp fun h => Nat.compare_eq_lt.mp h

namespace Graph

open Relation

/-- Some passable edge leads from `s` to `t`. -/
def Link (g : Graph) (passable : Label → Bool) (s t : StateId) : Prop :=
  ∃ e ∈ g.row s, passable e.label = true ∧ e.target = t

theorem mem_targets_iff (g : Graph) (passable : Label → Bool) (s t : StateId) :
    t ∈ g.targets passable s ↔ g.Link passable s t := by
  simp only [targets, Link, List.mem_map, List.mem_filter]
  constructor
  · rintro ⟨e, ⟨he, hp⟩, ht⟩
    exact ⟨e, he, hp, ht⟩
  · rintro ⟨e, he, hp, ht⟩
    exact ⟨e, ⟨he, hp⟩, ht⟩

section Spread

variable (next : StateId → List StateId)

/-- Nothing leads out of the set. -/
def Closed (met : StateSet) : Prop :=
  ∀ s ∈ met, ∀ t ∈ next s, t ∈ met

/-- The states behind a generation that have not been met before. -/
def fresh (generation : List StateId) (met : StateSet) : StateSet :=
  .ofList ((generation.flatMap next).filter fun s => !met.contains s)

/-- The states of `domain` that have not been met. -/
def missing (domain : List StateId) (met : StateSet) : List StateId :=
  domain.filter fun s => !met.contains s

theorem spread_succ (rounds : Nat) (generation : List StateId) (met : StateSet) :
    spread next (rounds + 1) generation met =
      if (fresh next generation met).isEmpty then met
      else spread next rounds (fresh next generation met).toList
        (met.insertMany (fresh next generation met).toList) := by
  rfl

theorem mem_fresh_iff (generation : List StateId) (met : StateSet) (t : StateId) :
    t ∈ fresh next generation met ↔ (∃ s ∈ generation, t ∈ next s) ∧ t ∉ met := by
  rw [fresh, Std.ExtTreeSet.mem_ofList, List.contains_iff_mem, List.mem_filter,
    List.mem_flatMap, Bool.not_eq_true', ← Bool.not_eq_true, Std.ExtTreeSet.contains_iff_mem]

theorem mem_missing_iff (domain : List StateId) (met : StateSet) (s : StateId) :
    s ∈ missing domain met ↔ s ∈ domain ∧ s ∉ met := by
  rw [missing, List.mem_filter, Bool.not_eq_true', ← Bool.not_eq_true,
    Std.ExtTreeSet.contains_iff_mem]

theorem mem_insertMany_toList (met more : StateSet) (t : StateId) :
    t ∈ met.insertMany more.toList ↔ t ∈ met ∨ t ∈ more := by
  rw [Std.ExtTreeSet.mem_insertMany_list, List.contains_iff_mem, Std.ExtTreeSet.mem_toList]

/-- What is missing only shrinks. -/
theorem missing_sublist
    {domain : List StateId} {met met' : StateSet} (grows : ∀ t ∈ met, t ∈ met') :
    (missing domain met').Sublist (missing domain met) := by
  refine List.monotone_filter_right domain fun t ht => ?_
  rw [Bool.not_eq_true', ← Bool.not_eq_true, Std.ExtTreeSet.contains_iff_mem] at ht ⊢
  exact fun h => ht (grows t h)

/-- Meeting a missing state leaves fewer missing ones. -/
theorem length_missing_lt
    {domain : List StateId} {met met' : StateSet} {s : StateId}
    (grows : ∀ t ∈ met, t ∈ met')
    (hs : s ∈ domain) (old : s ∉ met) (new : s ∈ met') :
    (missing domain met').length < (missing domain met).length := by
  have hsub : (missing domain met').Sublist (missing domain met) := missing_sublist grows
  refine lt_of_le_of_ne hsub.length_le fun hlen => ?_
  have hmem : s ∈ missing domain met' := by
    rw [hsub.eq_of_length hlen]
    exact (mem_missing_iff domain met s).mpr ⟨hs, old⟩
  exact ((mem_missing_iff domain met' s).mp hmem).2 new

theorem subset_spread (rounds : Nat) (generation : List StateId) (met : StateSet) :
    ∀ t ∈ met, t ∈ spread next rounds generation met := by
  induction rounds generalizing generation met with
  | zero =>
      exact fun t ht => ht
  | succ rounds ih =>
      intro t ht
      rw [spread_succ]
      split_ifs
      · exact ht
      · exact ih _ _ t ((mem_insertMany_toList met _ t).mpr (Or.inl ht))

/-- Everything that is met can be reached from what was met before. -/
theorem exists_reach_of_mem_spread
    (rounds : Nat) (generation : List StateId) (met : StateSet)
    (front : ∀ s ∈ generation, s ∈ met)
    {t : StateId} (ht : t ∈ spread next rounds generation met) :
    ∃ s ∈ met, ReflTransGen (fun a b => b ∈ next a) s t := by
  induction rounds generalizing generation met with
  | zero =>
      exact ⟨t, ht, .refl⟩
  | succ rounds ih =>
      rw [spread_succ] at ht
      split_ifs at ht
      · exact ⟨t, ht, .refl⟩
      · obtain ⟨s, hs, path⟩ := ih _ _ (fun s hs =>
          (mem_insertMany_toList met _ s).mpr (Or.inr (Std.ExtTreeSet.mem_toList.mp hs))) ht
        rcases (mem_insertMany_toList met _ s).mp hs with hs | hs
        · exact ⟨s, hs, path⟩
        · obtain ⟨⟨r, hr, hrs⟩, -⟩ := (mem_fresh_iff next generation met s).mp hs
          exact ⟨r, front r hr, .head hrs path⟩

/-- A closed set stays as it is. -/
theorem spread_of_closed
    {met : StateSet} (closed : Closed next met) (rounds : Nat) {generation : List StateId}
    (front : ∀ s ∈ generation, s ∈ met) :
    spread next rounds generation met = met := by
  cases rounds with
  | zero =>
      rfl
  | succ rounds =>
      have hnone : fresh next generation met = ∅ := by
        rw [Std.ExtTreeSet.eq_empty_iff_forall_not_mem]
        intro t ht
        obtain ⟨⟨s, hs, hst⟩, hout⟩ := (mem_fresh_iff next generation met t).mp ht
        exact hout (closed s (front s hs) t hst)
      rw [spread_succ, if_pos (Std.ExtTreeSet.isEmpty_iff.mpr hnone)]

/-- What a new generation leaves unfinished is only the generation itself. -/
theorem behind_insertMany_fresh
    {generation : List StateId} {met : StateSet}
    (behind : ∀ s ∈ met, s ∈ generation ∨ ∀ t ∈ next s, t ∈ met) :
    ∀ s ∈ met.insertMany (fresh next generation met).toList,
      s ∈ (fresh next generation met).toList ∨
        ∀ t ∈ next s, t ∈ met.insertMany (fresh next generation met).toList := by
  intro s hs
  rcases (mem_insertMany_toList met _ s).mp hs with hs | hs
  · refine Or.inr fun t ht => (mem_insertMany_toList met _ t).mpr ?_
    by_cases hmet : t ∈ met
    · exact Or.inl hmet
    · rcases behind s hs with hgen | hall
      · exact Or.inr ((mem_fresh_iff next generation met t).mpr ⟨⟨s, hgen, ht⟩, hmet⟩)
      · exact Or.inl (hall t ht)
  · exact Or.inl (Std.ExtTreeSet.mem_toList.mpr hs)

/-- With more rounds than missing states nothing leads out of what is met in the end. -/
theorem closed_spread
    (domain : List StateId) (outside : ∀ s, s ∉ domain → next s = [])
    (rounds : Nat) (generation : List StateId) (met : StateSet)
    (behind : ∀ s ∈ met, s ∈ generation ∨ ∀ t ∈ next s, t ∈ met)
    (enough : (missing domain met).length < rounds) :
    Closed next (spread next rounds generation met) := by
  induction rounds generalizing generation met with
  | zero =>
      exact absurd enough (Nat.not_lt_zero _)
  | succ rounds ih =>
      rw [spread_succ]
      split_ifs with hnone
      · rw [Std.ExtTreeSet.isEmpty_iff] at hnone
        intro s hs t ht
        rcases behind s hs with hgen | hall
        · by_contra hout
          have hfresh := (mem_fresh_iff next generation met t).mpr ⟨⟨s, hgen, ht⟩, hout⟩
          rw [hnone] at hfresh
          exact Std.ExtTreeSet.not_mem_empty hfresh
        · exact hall t ht
      · have behind' := behind_insertMany_fresh next behind
        by_cases hdom : ∃ s ∈ fresh next generation met, s ∈ domain
        · rcases hdom with ⟨s, hs, hsdom⟩
          have hlt := length_missing_lt
            (fun t ht => (mem_insertMany_toList met _ t).mpr (Or.inl ht)) hsdom
            ((mem_fresh_iff next generation met s).mp hs).2
            ((mem_insertMany_toList met _ s).mpr (Or.inr hs))
          exact ih _ _ behind' (by omega)
        · -- the generation consists of states without rows: the set is closed already
          have closed : Closed next (met.insertMany (fresh next generation met).toList) := by
            intro a ha t ht
            rcases behind' a ha with hfr | hall
            · have hout := outside a fun hmem =>
                hdom ⟨a, Std.ExtTreeSet.mem_toList.mp hfr, hmem⟩
              simp [hout] at ht
            · exact hall t ht
          rw [spread_of_closed next closed rounds fun s hs =>
            (mem_insertMany_toList met _ s).mpr (Or.inr (Std.ExtTreeSet.mem_toList.mp hs))]
          exact closed

end Spread

/-- Following edges is the reflexive-transitive closure of the passable links. -/
theorem mem_follow_iff
    (g : Graph) (passable : Label → Bool) (seeds : List StateId) (t : StateId) :
    t ∈ g.follow passable seeds ↔ ∃ s ∈ seeds, ReflTransGen (g.Link passable) s t := by
  have hlink : ∀ a b, b ∈ g.targets passable a ↔ g.Link passable a b :=
    mem_targets_iff g passable
  have hseed : ∀ s, s ∈ (Std.ExtTreeSet.ofList seeds : StateSet) ↔ s ∈ seeds := fun s => by
    rw [Std.ExtTreeSet.mem_ofList, List.contains_iff_mem]
  constructor
  · intro ht
    obtain ⟨s, hs, path⟩ := exists_reach_of_mem_spread (g.targets passable) _ _ _
      (fun s hs => Std.ExtTreeSet.mem_toList.mp hs) ht
    exact ⟨s, (hseed s).mp hs, ReflTransGen.mono (fun a b => (hlink a b).mp) s t path⟩
  · rintro ⟨s, hs, path⟩
    have closed : Closed (g.targets passable) (g.follow passable seeds) := by
      refine closed_spread (g.targets passable) g.states (fun s hs => ?_) _ _ _
        (fun s hs => Or.inl (Std.ExtTreeSet.mem_toList.mpr hs))
        (Nat.lt_succ_of_le (List.length_filter_le _ _))
      rw [mem_states, Bool.not_eq_true] at hs
      rw [targets, row_eq_nil hs, List.filter_nil, List.map_nil]
    induction path with
    | refl =>
        exact subset_spread (g.targets passable) _ _ _ s ((hseed s).mpr hs)
    | tail _ hab ih =>
        exact closed _ ih _ ((hlink _ _).mpr hab)

end Graph

namespace Nfa

open Relation

/-- The closure under epsilon edges. -/
theorem mem_epsilonReachable_iff (nfa : Nfa) (states : List StateId) (t : StateId) :
    t ∈ nfa.epsilonReachable states ↔
      ∃ s ∈ states, ReflTransGen (nfa.graph.Link fun l => l == .epsilon) s t :=
  Graph.mem_follow_iff nfa.graph _ states t

/-- The closure under the edges that can be crossed for free at an offset. -/
theorem mem_settle_iff
    (nfa : Nfa) (length offset : Nat) (states : List StateId) (t : StateId) :
    t ∈ nfa.settle length offset states ↔
      ∃ s ∈ states,
        ReflTransGen (nfa.graph.Link fun l => l.passableAt offset length) s t :=
  Graph.mem_follow_iff nfa.graph _ states t

/-- The states reachable along any edges. -/
theorem mem_reachable_iff (nfa : Nfa) (s t : StateId) :
    t ∈ nfa.reachable s ↔ ReflTransGen (nfa.graph.Link fun _ => true) s t := by
  rw [reachable, Graph.mem_follow_iff]
  simp

end Nfa

end Backtracking
