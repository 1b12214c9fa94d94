import Backtracking.Proofs.Subsets

/-!
# Closures by a stack of waiting states

A closure can also be found one state at a time.  The states whose edges have not been looked at
wait on a stack, and the one on top is served next.  A state may wait more than once, but it is
served only once.

**Termination.**  Serving a state that has a row leaves fewer rows to be served, and every other
step leaves fewer states waiting.  So the stack runs empty, whatever cycles the edges make
(`Graph.exists_drains`).

**Invariant.**  An edge out of a state that was met leads to a state that was met or that waits.
Once nothing waits, nothing leads out of what was met (`Graph.Drains.closed`).

**Results.**
* `Graph.drains_iff`: the stack runs empty with exactly what following edges finds.
* `Nfa.epsilon_closures_exact`: the closures of an automaton are least fixed points.
-/

namespace Backtracking

open Relation

namespace Graph

variable {g : Graph} {passable : Label → Bool} {waiting : List StateId} {met all : StateSet}
variable {s t : StateId}

/-- The states behind a state that have not been met, the last one first. -/
def unmet (g : Graph) (passable : Label → Bool) (met : StateSet) (s : StateId) : List StateId :=
  ((g.targets passable s).filter fun t => !met.contains t).reverse

/-- With some states waiting, the topmost first, and some met, all waiting states are served until
none waits; then `all` are met. -/
inductive Drains (g : Graph) (passable : Label → Bool) :
    (waiting : List StateId) → (met all : StateSet) → Prop
  /-- Nothing waits. -/
  | empty (met : StateSet) : g.Drains passable [] met met
  /-- A state that has been met is dropped. -/
  | drop {s : StateId} {waiting : List StateId} {met all : StateSet} (old : s ∈ met)
      (rest : g.Drains passable waiting met all) : g.Drains passable (s :: waiting) met all
  /-- A new state is met, and what is behind it waits on top. -/
  | serve {s : StateId} {waiting : List StateId} {met all : StateSet} (new : s ∉ met)
      (rest : g.Drains passable (g.unmet passable (met.insert s) s ++ waiting)
        (met.insert s) all) :
      g.Drains passable (s :: waiting) met all

theorem mem_unmet_iff : t ∈ g.unmet passable met s ↔ g.Link passable s t ∧ t ∉ met := by
  rw [unmet, List.mem_reverse, List.mem_filter, mem_targets_iff, Bool.not_eq_true',
    ← Bool.not_eq_true, Std.ExtTreeSet.contains_iff_mem]

theorem mem_insert_iff : t ∈ met.insert s ↔ t = s ∨ t ∈ met := by
  rw [Std.ExtTreeSet.mem_insert, Nat.compare_eq_eq, eq_comm]

/-- Nothing is behind a state that has no row. -/
theorem unmet_eq_nil (foreign : s ∉ g.states) : g.unmet passable met s = [] := by
  rw [mem_states, Bool.not_eq_true] at foreign
  rw [unmet, targets, row_eq_nil foreign]
  rfl

/-- The stack runs empty. -/
theorem exists_drains (g : Graph) (passable : Label → Bool) (waiting : List StateId)
    (met : StateSet) : ∃ all, g.Drains passable waiting met all := by
  match waiting with
  | [] =>
      exact ⟨met, .empty met⟩
  | s :: waiting =>
      by_cases hs : s ∈ met
      · obtain ⟨all, rest⟩ := exists_drains g passable waiting met
        exact ⟨all, .drop hs rest⟩
      · obtain ⟨all, rest⟩ := exists_drains g passable
          (g.unmet passable (met.insert s) s ++ waiting) (met.insert s)
        exact ⟨all, .serve hs rest⟩
termination_by ((missing g.states met).length, waiting.length)
decreasing_by
  · exact Prod.Lex.right _ (Nat.lt_succ_self _)
  · have grows : ∀ t ∈ met, t ∈ met.insert s := fun t ht => mem_insert_iff.mpr (Or.inr ht)
    by_cases howned : s ∈ g.states
    · exact Prod.Lex.left _ _
        (length_missing_lt grows howned hs (mem_insert_iff.mpr (Or.inl rfl)))
    · rw [unmet_eq_nil howned]
      exact Prod.Lex.right' _ (missing_sublist grows).length_le (Nat.lt_succ_self _)

/-- What is met in the end was met before or can be reached from a waiting state. -/
theorem Drains.sound (h : g.Drains passable waiting met all) (ht : t ∈ all) :
    t ∈ met ∨ ∃ s ∈ waiting, ReflTransGen (g.Link passable) s t := by
  induction h with
  | empty met =>
      exact Or.inl ht
  | drop old rest ih =>
      obtain hmet | ⟨r, hr, path⟩ := ih ht
      · exact Or.inl hmet
      · exact Or.inr ⟨r, List.mem_cons_of_mem _ hr, path⟩
  | @serve s waiting met all new rest ih =>
      obtain hmet | ⟨r, hr, path⟩ := ih ht
      · obtain rfl | hmet := mem_insert_iff.mp hmet
        · exact Or.inr ⟨t, List.mem_cons_self, .refl⟩
        · exact Or.inl hmet
      · obtain hr | hr := List.mem_append.mp hr
        · exact Or.inr ⟨s, List.mem_cons_self, .head (mem_unmet_iff.mp hr).1 path⟩
        · exact Or.inr ⟨r, List.mem_cons_of_mem _ hr, path⟩

/-- Dropping a state that has been met loses nothing. -/
theorem held_of_drop (old : s ∈ met) (h : t ∈ met ∨ t ∈ s :: waiting) :
    t ∈ met ∨ t ∈ waiting := by
  obtain hmet | hmem := h
  · exact Or.inl hmet
  · obtain rfl | hmem := List.mem_cons.mp hmem
    · exact Or.inl old
    · exact Or.inr hmem

/-- Serving a state loses nothing, whatever is put on top. -/
theorem held_of_serve {top : List StateId} (h : t ∈ met ∨ t ∈ s :: waiting) :
    t ∈ met.insert s ∨ t ∈ top ++ waiting := by
  obtain hmet | hmem := h
  · exact Or.inl (mem_insert_iff.mpr (Or.inr hmet))
  · obtain rfl | hmem := List.mem_cons.mp hmem
    · exact Or.inl (mem_insert_iff.mpr (Or.inl rfl))
    · exact Or.inr (List.mem_append_right _ hmem)

/-- What was met before or waits is met in the end. -/
theorem Drains.mem_all (h : g.Drains passable waiting met all) (ht : t ∈ met ∨ t ∈ waiting) :
    t ∈ all := by
  induction h with
  | empty met =>
      exact ht.resolve_right List.not_mem_nil
  | drop old rest ih =>
      exact ih (held_of_drop old ht)
  | serve new rest ih =>
      exact ih (held_of_serve ht)

/-- Where an edge out of a state that was met leads to one that was met or waits, nothing leads
out of what is met in the end. -/
theorem Drains.closed (h : g.Drains passable waiting met all)
    (behind : ∀ s ∈ met, ∀ t, g.Link passable s t → t ∈ met ∨ t ∈ waiting) :
    ∀ s ∈ all, ∀ t, g.Link passable s t → t ∈ all := by
  induction h with
  | empty met =>
      exact fun s hs t hst => (behind s hs t hst).resolve_right List.not_mem_nil
  | drop old rest ih =>
      exact ih fun s hs t hst => held_of_drop old (behind s hs t hst)
  | @serve r waiting met all new rest ih =>
      refine ih fun s hs t hst => ?_
      obtain rfl | hmet := mem_insert_iff.mp hs
      · by_cases ht : t ∈ met.insert s
        · exact Or.inl ht
        · exact Or.inr (List.mem_append_left _ (mem_unmet_iff.mpr ⟨hst, ht⟩))
      · exact held_of_serve (behind s hmet t hst)

/-- A stack with nothing met yet holds in the end exactly what following edges finds. -/
theorem drains_iff : g.Drains passable waiting ∅ all ↔ all = g.follow passable waiting := by
  have correct : ∀ {all}, g.Drains passable waiting ∅ all → all = g.follow passable waiting := by
    intro all h
    refine Std.ExtTreeSet.ext_mem fun t => ?_
    rw [mem_follow_iff]
    constructor
    · intro ht
      exact (h.sound ht).resolve_left Std.ExtTreeSet.not_mem_empty
    · rintro ⟨s, hs, path⟩
      have hclosed := h.closed fun s hs => absurd hs Std.ExtTreeSet.not_mem_empty
      induction path with
      | refl => exact h.mem_all (Or.inr hs)
      | tail _ hlink ih => exact hclosed _ ih _ hlink
  constructor
  · exact correct
  · rintro rfl
    obtain ⟨all, h⟩ := exists_drains g passable waiting ∅
    exact correct h ▸ h

end Graph

namespace Nfa

/-- The closure under epsilon edges is the least set around the given states that epsilon edges do
not leave. -/
theorem isLeast_epsilonReachable (nfa : Nfa) (states : List StateId) :
    IsLeast
      {X : Set StateId | (∀ s ∈ states, s ∈ X) ∧ ∀ s ∈ X, ∀ t, nfa.Arc s .epsilon t → t ∈ X}
      {t | t ∈ nfa.epsilonReachable states} := by
  refine ⟨⟨fun s hs => ?_, fun s hs t harc => ?_⟩, fun X hX t ht => ?_⟩
  · exact (mem_epsilonReachable_iff_slides nfa states s).mpr ⟨s, hs, .refl⟩
  · obtain ⟨r, hr, hslide⟩ := (mem_epsilonReachable_iff_slides nfa states s).mp hs
    exact (mem_epsilonReachable_iff_slides nfa states t).mpr ⟨r, hr, hslide.tail harc⟩
  · obtain ⟨r, hr, hslide⟩ := (mem_epsilonReachable_iff_slides nfa states t).mp ht
    clear ht
    induction hslide with
    | refl => exact hX.1 r hr
    | tail _ harc ih => exact hX.2 _ ih _ harc

/-- Behind an epsilon edge the closure holds what one or more epsilon edges lead to. -/
theorem mem_epsilonClosure_epsilon_iff (nfa : Nfa) (states : List StateId) (t : StateId) :
    t ∈ nfa.epsilonClosure states .epsilon ↔
      ∃ s ∈ states, TransGen (fun a b => nfa.Arc a .epsilon b) s t := by
  rw [mem_epsilonClosure_iff]
  refine exists_congr fun s => and_congr_right fun _ => ?_
  rw [TransGen.head'_iff]
  rfl

/-- The closures of an automaton under epsilon edges are exact, for any states, owned or not, and
any label.  The plain closure is the least set that holds the states and that epsilon edges do not
leave; the closure behind a label holds what is behind one edge with the label and any number of
epsilon edges, so behind epsilon itself what one or more of them lead to.  Both are what a stack
of waiting states ends with, and it always runs empty. -/
theorem epsilon_closures_exact (nfa : Nfa) (states : List StateId) (on : Label) :
    IsLeast
      {X : Set StateId | (∀ s ∈ states, s ∈ X) ∧ ∀ s ∈ X, ∀ t, nfa.Arc s .epsilon t → t ∈ X}
      {t | t ∈ nfa.epsilonReachable states} ∧
    (∀ t, t ∈ nfa.epsilonClosure states on ↔
      ∃ s ∈ states, ∃ r, nfa.Arc s on r ∧ nfa.Slides r t) ∧
    (∀ t, t ∈ nfa.epsilonClosure states .epsilon ↔
      ∃ s ∈ states, TransGen (fun a b => nfa.Arc a .epsilon b) s t) ∧
    (∀ X, nfa.graph.Drains (fun l => l == .epsilon) states ∅ X ↔
      X = nfa.epsilonReachable states) ∧
    ∀ X, nfa.graph.Drains (fun l => l == .epsilon) (nfa.stepTargets states on) ∅ X ↔
      X = nfa.epsilonClosure states on :=
  ⟨nfa.isLeast_epsilonReachable states, nfa.mem_epsilonClosure_iff states on,
    nfa.mem_epsilonClosure_epsilon_iff states, fun _ => Graph.drains_iff,
    fun _ => Graph.drains_iff⟩

/-- Epsilon edges go round and round in `(a*)*`; nothing is behind a state that is not owned. -/
example : (Nfa.ofText ['(', 'a', '*', ')', '*']).toOption.map
    (fun nfa => ((nfa.epsilonReachable [nfa.start, 99]).toList,
      (nfa.epsilonClosure [3, 99] .epsilon).toList)) =
        some ([0, 2, 3, 4, 5, 99], [0, 2, 3, 5]) := by
  decide +kernel

end Nfa

end Backtracking
