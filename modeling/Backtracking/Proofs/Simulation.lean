import Backtracking.Proofs.Subsets

/-!
# The deterministic automaton accepts the same words

A run of the deterministic automaton may be in several states at once, since an anchor is
crossed for free where it holds.  `Dfa.Sees` collects the states of the nondeterministic
automaton behind all of them.

**Simulation.**  At every offset the deterministic run sees exactly the states in which the
nondeterministic run is.  Epsilon edges stay in the set of one state, an anchor leads from
one state to another (`Dfa.sees_settle_iff`), and so does a character
(`Dfa.sees_move_iff`).

**Results.**
* `Dfa.Represents.accepts_eq`: an automaton that represents another one accepts the same.
* `Compiler.accepts_toDfa_eq`: the two automata of a pattern, whatever its anchors.
-/

namespace Backtracking

open Relation

/-- Crossed for free is an epsilon edge, or an anchor that holds. -/
theorem Label.passableAt_iff (offset length : Nat) (l : Label) :
    l.passableAt offset length = true ↔ l = .epsilon ∨ l.anchorHolds offset length = true := by
  cases l <;> simp [passableAt, anchorHolds]

theorem Label.ne_epsilon_of_anchorHolds {offset length : Nat} {l : Label}
    (h : l.anchorHolds offset length = true) : l ≠ .epsilon := by
  rintro rfl
  cases h

namespace Nfa

/-- Epsilon edges can be crossed at every offset. -/
theorem Slides.free {nfa : Nfa} {s t : StateId} (h : nfa.Slides s t) (offset length : Nat) :
    ReflTransGen (nfa.graph.Link fun l => l.passableAt offset length) s t := by
  refine ReflTransGen.mono (fun a b harc => ?_) s t h
  exact ⟨_, harc, rfl, rfl⟩

end Nfa

namespace Dfa

/-- The state is in one of the sets that some states stand for. -/
def Sees (dfa : Dfa) (states : List StateId) (q : StateId) : Prop :=
  ∃ s ∈ states, ∃ X, dfa.subset? s = some X ∧ q ∈ X

variable {dfa : Dfa} {nfa : Nfa}

theorem mem_settle_iff (dfa : Dfa) (length offset : Nat) (states : List StateId) (t : StateId) :
    t ∈ dfa.settle length offset states ↔
      ∃ s ∈ states, ReflTransGen (dfa.graph.Link fun l => l.anchorHolds offset length) s t :=
  Graph.mem_follow_iff dfa.graph _ states t

/-- Where something is behind a label, there is an edge to the set of all that is. -/
theorem Represents.exists_arc (h : dfa.Represents nfa) {s q : StateId} {X : StateSet} {l : Label}
    (hs : dfa.subset? s = some X) (hl : l ≠ .epsilon) (hq : q ∈ nfa.epsilonClosure X.toList l) :
    ∃ t, dfa.Arc s l t ∧ dfa.subset? t = some (nfa.epsilonClosure X.toList l) := by
  obtain ⟨p, -, r, harc, -⟩ := (Nfa.mem_epsilonClosure_iff nfa _ l q).mp hq
  have hmem : l ∈ nfa.alphabet.toList :=
    Std.ExtTreeSet.mem_toList.mpr ((nfa.mem_alphabet_iff l).mpr ⟨hl, p, r, harc⟩)
  obtain ⟨t, ht⟩ := h.serves hs l hmem q hq
  obtain ⟨-, Y, hY, htarget⟩ := h.arc ht
  obtain rfl := Option.some.inj (hs.symm.trans hY)
  exact ⟨t, ht, htarget⟩

/-- What is seen behind anchors was reached for free from what was seen before them. -/
theorem Represents.exists_free_of_link (h : dfa.Represents nfa) {offset length : Nat}
    {s t q : StateId} {Y : StateSet}
    (path : ReflTransGen (dfa.graph.Link fun l => l.anchorHolds offset length) s t)
    (hY : dfa.subset? t = some Y) (hq : q ∈ Y) :
    ∃ p, dfa.Sees [s] p ∧
      ReflTransGen (nfa.graph.Link fun l => l.passableAt offset length) p q := by
  induction path generalizing Y q with
  | refl =>
      exact ⟨q, ⟨s, List.mem_singleton.mpr rfl, Y, hY, hq⟩, .refl⟩
  | @tail b t _ hlink ih =>
      rcases hlink with ⟨⟨l, r⟩, he, hhold, rfl⟩
      obtain ⟨-, X, hX, hclosure⟩ := h.arc (s := b) (l := l) (t := r) he
      obtain rfl := Option.some.inj (hY.symm.trans hclosure)
      obtain ⟨x, hx, y, harc, hslide⟩ := (Nfa.mem_epsilonClosure_iff nfa _ l q).mp hq
      obtain ⟨p, hp, hfree⟩ := ih hX (Std.ExtTreeSet.mem_toList.mp hx)
      have hpass : l.passableAt offset length = true :=
        (Label.passableAt_iff offset length l).mpr (Or.inr hhold)
      exact ⟨p, hp, (hfree.tail ⟨_, harc, hpass, rfl⟩).trans (hslide.free offset length)⟩

/-- What is reached for free from something seen is seen behind anchors. -/
theorem Represents.sees_of_free (h : dfa.Represents nfa) {offset length : Nat}
    {states : List StateId} {p q : StateId} (hp : dfa.Sees states p)
    (path : ReflTransGen (nfa.graph.Link fun l => l.passableAt offset length) p q) :
    dfa.Sees (dfa.settle length offset states).toList q := by
  induction path with
  | refl =>
      rcases hp with ⟨s, hs, X, hX, hpX⟩
      exact ⟨s, Std.ExtTreeSet.mem_toList.mpr ((mem_settle_iff dfa _ _ _ s).mpr ⟨s, hs, .refl⟩),
        X, hX, hpX⟩
  | @tail b q _ hlink ih =>
      rcases hlink with ⟨⟨l, r⟩, he, hpass, rfl⟩
      rcases ih with ⟨t, ht, X, hX, hbX⟩
      rcases (Label.passableAt_iff offset length l).mp hpass with rfl | hhold
      · -- an epsilon edge stays in the set of the state
        exact ⟨t, ht, X, hX, (h.slid hX).slides hbX (.single he)⟩
      · have hr : r ∈ nfa.epsilonClosure X.toList l :=
          (Nfa.mem_epsilonClosure_iff nfa _ l r).mpr
            ⟨b, Std.ExtTreeSet.mem_toList.mpr hbX, r, he, .refl⟩
        obtain ⟨t', harc, hclosure⟩ :=
          h.exists_arc hX (Label.ne_epsilon_of_anchorHolds hhold) hr
        rw [Std.ExtTreeSet.mem_toList, mem_settle_iff] at ht
        rcases ht with ⟨s, hs, path⟩
        refine ⟨t', ?_, _, hclosure, hr⟩
        rw [Std.ExtTreeSet.mem_toList, mem_settle_iff]
        exact ⟨s, hs, path.tail ⟨_, harc, hhold, rfl⟩⟩

/-- Anchors that hold are crossed by both automata together. -/
theorem sees_settle_iff (h : dfa.Represents nfa) (length offset : Nat) (states : List StateId)
    (q : StateId) :
    dfa.Sees (dfa.settle length offset states).toList q ↔
      ∃ p, dfa.Sees states p ∧
        ReflTransGen (nfa.graph.Link fun l => l.passableAt offset length) p q := by
  constructor
  · rintro ⟨t, ht, Y, hY, hq⟩
    rw [Std.ExtTreeSet.mem_toList, mem_settle_iff] at ht
    rcases ht with ⟨s, hs, path⟩
    obtain ⟨p, ⟨s', hs', hp⟩, hfree⟩ := h.exists_free_of_link path hY hq
    rw [List.mem_singleton.mp hs'] at hp
    exact ⟨p, ⟨s, hs, hp⟩, hfree⟩
  · rintro ⟨p, hp, hfree⟩
    exact h.sees_of_free hp hfree

/-- A character is consumed by both automata together. -/
theorem sees_move_iff (h : dfa.Represents nfa) (states : List StateId) (c : Char) (q : StateId) :
    dfa.Sees (states.filterMap fun s => dfa.next? s (.char c)) q ↔
      ∃ p, dfa.Sees states p ∧ ∃ r, nfa.Arc p (.char c) r ∧ nfa.Slides r q := by
  constructor
  · rintro ⟨t, ht, Y, hY, hq⟩
    obtain ⟨s, hs, hnext⟩ := List.mem_filterMap.mp ht
    obtain ⟨-, X, hX, hclosure⟩ := h.arc (h.next?_eq_some_iff.mp hnext)
    obtain rfl := Option.some.inj (hY.symm.trans hclosure)
    obtain ⟨p, hp, hr⟩ := (Nfa.mem_epsilonClosure_iff nfa _ _ q).mp hq
    exact ⟨p, ⟨s, hs, X, hX, Std.ExtTreeSet.mem_toList.mp hp⟩, hr⟩
  · rintro ⟨p, ⟨s, hs, X, hX, hp⟩, hr⟩
    have hq : q ∈ nfa.epsilonClosure X.toList (.char c) :=
      (Nfa.mem_epsilonClosure_iff nfa _ _ q).mpr ⟨p, Std.ExtTreeSet.mem_toList.mpr hp, hr⟩
    obtain ⟨t, harc, hclosure⟩ := h.exists_arc hX Label.noConfusion hq
    exact ⟨t, List.mem_filterMap.mpr ⟨s, hs, h.next?_eq_some_iff.mpr harc⟩, _, hclosure, hq⟩

/-- Carried through a word, the two automata stay together. -/
theorem sees_consume_iff (h : dfa.Represents nfa) {length : Nat} (rest : List Char) {offset : Nat}
    {current met : StateSet} (hcur : ∀ q, dfa.Sees current.toList q ↔ q ∈ met) (q : StateId) :
    dfa.Sees (dfa.consume length offset current rest).toList q ↔
      q ∈ nfa.consume length offset met rest := by
  induction rest generalizing offset current met with
  | nil =>
      exact hcur q
  | cons c rest ih =>
      rw [consume_cons, Nfa.consume_cons]
      refine ih fun q => ?_
      rw [sees_settle_iff h, Nfa.mem_settle_iff]
      simp only [sees_move_iff h, hcur, Nfa.mem_stepTargets_iff, Std.ExtTreeSet.mem_toList]
      constructor
      · rintro ⟨p, ⟨s, hs, r, harc, hslide⟩, hfree⟩
        exact ⟨r, ⟨s, hs, harc⟩, (hslide.free _ _).trans hfree⟩
      · rintro ⟨r, ⟨s, hs, harc⟩, hfree⟩
        exact ⟨r, ⟨s, hs, r, harc, .refl⟩, hfree⟩

theorem sees_start_iff (h : dfa.Represents nfa) (q : StateId) :
    dfa.Sees [dfa.start] q ↔ nfa.Slides nfa.start q := by
  simp [Sees, h.start_eq, h.start_subset, Nfa.mem_epsilonReachable_singleton_iff]

/-- An automaton that represents another one accepts the same words. -/
theorem Represents.accepts_eq (h : dfa.Represents nfa) (word : List Char) :
    dfa.accepts word = nfa.accepts word := by
  have hcur : ∀ q, dfa.Sees (dfa.settle word.length 0 [dfa.start]).toList q ↔
      q ∈ nfa.settle word.length 0 [nfa.start] := by
    intro q
    rw [sees_settle_iff h, Nfa.mem_settle_iff]
    simp only [sees_start_iff h, List.mem_singleton, exists_eq_left]
    constructor
    · rintro ⟨p, hslide, hfree⟩
      exact (hslide.free _ _).trans hfree
    · intro hfree
      exact ⟨_, .refl, hfree⟩
  have hfinish : dfa.Sees (dfa.consume word.length 0 (dfa.settle word.length 0 [dfa.start])
      word).toList nfa.finish ↔
        nfa.finish ∈ nfa.consume word.length 0 (nfa.settle word.length 0 [nfa.start]) word :=
    sees_consume_iff h word hcur nfa.finish
  rw [Bool.eq_iff_iff, accepts, Nfa.accepts, Std.ExtTreeSet.contains_iff_mem, ← hfinish,
    List.any_eq_true]
  exact exists_congr fun s => and_congr_right fun _ => h.accepting_iff s

end Dfa

/-- The subset construction keeps the language of every tree, and of every text that reads
as the tree: wherever anchors stand, both automata accept the same words. -/
theorem Compiler.accepts_toDfa_eq (c : Compiler) (p : Pattern) :
    ∃ nfa c', c.compileTree p = .ok (nfa, c') ∧
      (∀ text, Pattern.parse text = .ok p → c.compile text = .ok (nfa, c')) ∧
      ∃ dfa, nfa.toDfa = .ok dfa ∧ ∀ word, dfa.accepts word = nfa.accepts word := by
  obtain ⟨nfa, c', hok, hfrag⟩ := c.exists_compileTree p
  obtain ⟨dfa, hdfa, hrep⟩ := Nfa.exists_toDfa hfrag.shaped
  refine ⟨nfa, c', hok, fun text hparse => ?_, dfa, hdfa, hrep.accepts_eq⟩
  rw [compile, hparse]
  exact hok

/-- Anchors inside a loop and inside a class do not keep the automata of `(^a|[$b])*`
apart. -/
theorem Compiler.accepts_toDfa_of_anchors_in_loop :
    ∃ nfa c' dfa, Compiler.compile {} "(^a|[$b])*".toList = .ok (nfa, c') ∧
      nfa.toDfa = .ok dfa ∧ ∀ word, dfa.accepts word = nfa.accepts word := by
  obtain ⟨nfa, c', -, hcompile, dfa, hdfa, haccepts⟩ := Compiler.accepts_toDfa_eq {}
    (.star (.group (.either (.sequence [.literal '^', .literal 'a']) (.oneOf ['$', 'b']))))
  exact ⟨nfa, c', dfa, hcompile _ (by decide +kernel), hdfa, haccepts⟩

end Backtracking
