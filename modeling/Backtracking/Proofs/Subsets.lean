import Backtracking.Dfa
import Backtracking.Proofs.Language
import Backtracking.Proofs.Walk

/-!
# The subset construction

The states of the deterministic automaton stand for sets of states of the
nondeterministic one.  `Dfa.Models` says what holds of the automaton while it is built,
and `Dfa.Represents` adds that no edge is missing in the end.

**Termination.**  Every state is served once, and the sets that states stand for are
different sets of owned states.  So there are no more rounds than such sets
(`Dfa.Models.size_le`).

**Results.**
* `Nfa.mem_epsilonClosure_iff`: what is behind a label, up to epsilon edges.
* `Nfa.exists_toDfa`: the construction never fails, and what it makes represents.
-/

namespace Backtracking

open Relation

namespace Nfa

variable {nfa : Nfa} {lo hi : StateId}

/-- The closure behind a label: one edge with the label and then epsilon edges. -/
theorem mem_epsilonClosure_iff
    (nfa : Nfa) (states : List StateId) (on : Label) (t : StateId) :
    t ∈ nfa.epsilonClosure states on ↔ ∃ s ∈ states, ∃ r, nfa.Arc s on r ∧ nfa.Slides r t := by
  rw [epsilonClosure, mem_epsilonReachable_iff_slides]
  simp only [mem_stepTargets_iff]
  constructor
  · rintro ⟨r, ⟨s, hs, harc⟩, hslide⟩
    exact ⟨s, hs, r, harc, hslide⟩
  · rintro ⟨s, hs, r, harc, hslide⟩
    exact ⟨r, ⟨s, hs, harc⟩, hslide⟩

/-- The alphabet holds the labels of the edges, epsilon apart. -/
theorem mem_alphabet_iff (nfa : Nfa) (l : Label) :
    l ∈ nfa.alphabet ↔ l ≠ .epsilon ∧ ∃ s t, nfa.Arc s l t := by
  have hedge := nfa.graph.exists_mem_transitions_iff fun e => e.label = l
  rw [alphabet, Std.ExtTreeSet.mem_ofList, List.contains_iff_mem, List.mem_filter,
    List.mem_map, bne_iff_ne, and_comm]
  refine and_congr_right fun _ => hedge.trans ⟨?_, ?_⟩
  · rintro ⟨s, e, he, rfl⟩
    exact ⟨s, e.target, he⟩
  · rintro ⟨s, t, h⟩
    exact ⟨s, ⟨l, t⟩, h, rfl⟩

/-- A set of owned states that epsilon edges do not leave. -/
structure Slid (nfa : Nfa) (X : StateSet) : Prop where
  owns : ∀ q ∈ X, nfa.Owns q
  slides : ∀ {q r}, q ∈ X → nfa.Slides q r → r ∈ X

theorem slid_epsilonReachable (hn : nfa.Shaped lo hi) {states : List StateId}
    (h : ∀ s ∈ states, nfa.Owns s) : nfa.Slid (nfa.epsilonReachable states) where
  owns q hq := by
    obtain ⟨s, hs, hslide⟩ := (mem_epsilonReachable_iff_slides nfa states q).mp hq
    exact hslide.owns hn (h s hs)
  slides {q r} hq hqr := by
    obtain ⟨s, hs, hslide⟩ := (mem_epsilonReachable_iff_slides nfa states q).mp hq
    exact (mem_epsilonReachable_iff_slides nfa states r).mpr ⟨s, hs, hslide.trans hqr⟩

theorem slid_epsilonClosure (hn : nfa.Shaped lo hi) (states : List StateId) (on : Label) :
    nfa.Slid (nfa.epsilonClosure states on) := by
  refine slid_epsilonReachable hn fun t ht => ?_
  obtain ⟨s, -, harc⟩ := (mem_stepTargets_iff states on t).mp ht
  exact (hn.inside harc).2

end Nfa

namespace Dfa

/-- The automaton has an edge from `s` to `t` labelled `l`. -/
def Arc (dfa : Dfa) (s : StateId) (l : Label) (t : StateId) : Prop :=
  ⟨l, t⟩ ∈ dfa.graph.row s

/-- What the states and edges of an automaton mean, whether or not edges are missing. -/
structure Models (dfa : Dfa) (nfa : Nfa) : Prop where
  start_eq : dfa.start = 0
  start_subset : dfa.subset? 0 = some (nfa.epsilonReachable [nfa.start])
  /-- States are numbered consecutively. -/
  owns_iff : ∀ s, dfa.graph.owns s = true ↔ s < dfa.subsets.size
  accepting_iff : ∀ s,
    dfa.isAccepting s = true ↔ ∃ X, dfa.subset? s = some X ∧ nfa.finish ∈ X
  slid : ∀ {s X}, dfa.subset? s = some X → nfa.Slid X
  distinct : dfa.subsets.toList.Nodup
  /-- An edge leads to the closure behind its label. -/
  arc : ∀ {s l t}, dfa.Arc s l t → l ≠ .epsilon ∧
    ∃ X, dfa.subset? s = some X ∧ dfa.subset? t = some (nfa.epsilonClosure X.toList l)
  filed : dfa.graph.Filed

/-- Where something is behind one of the labels, an edge leads there. -/
def Serves (dfa : Dfa) (nfa : Nfa) (s : StateId) (X : StateSet) (labels : List Label) : Prop :=
  ∀ l ∈ labels, ∀ q ∈ nfa.epsilonClosure X.toList l, ∃ t, dfa.Arc s l t

/-- No edge is missing. -/
structure Represents (dfa : Dfa) (nfa : Nfa) : Prop extends dfa.Models nfa where
  serves : ∀ {s X}, dfa.subset? s = some X → dfa.Serves nfa s X nfa.alphabet.toList

variable {dfa : Dfa} {nfa : Nfa} {lo hi : StateId}

theorem lt_size_of_subset? {s : StateId} {X : StateSet} (h : dfa.subset? s = some X) :
    s < dfa.subsets.size :=
  (Array.getElem?_eq_some_iff.mp h).1

theorem exists_subset? {s : StateId} (h : s < dfa.subsets.size) :
    ∃ X, dfa.subset? s = some X :=
  ⟨_, Array.getElem?_eq_getElem h⟩

/-- Different states stand for different sets. -/
theorem Models.eq_of_subset? (h : dfa.Models nfa) {s t : StateId} {X : StateSet}
    (hs : dfa.subset? s = some X) (ht : dfa.subset? t = some X) : s = t := by
  rw [subset?, ← Array.getElem?_toList] at hs ht
  exact (List.getElem?_inj (List.getElem?_eq_some_iff.mp hs).1 h.distinct).mp
    (hs.trans ht.symm)

/-- A set of states is known by its members. -/
theorem injective_toFinset : Function.Injective fun X : StateSet => X.toList.toFinset := by
  intro X Y hXY
  refine Std.ExtTreeSet.ext_mem fun q => ?_
  have hmem : ∀ Z : StateSet, q ∈ Z ↔ q ∈ Z.toList.toFinset := fun Z => by
    rw [List.mem_toFinset, Std.ExtTreeSet.mem_toList]
  rw [hmem X, hmem Y]
  exact iff_of_eq (congrArg (q ∈ ·) hXY)

/-- There are no more states than sets of states. -/
theorem Models.size_le (h : dfa.Models nfa) :
    dfa.subsets.size ≤ 2 ^ nfa.graph.states.length := by
  have hsub : (dfa.subsets.toList.map fun X => X.toList.toFinset).toFinset ⊆
      nfa.graph.states.toFinset.powerset := by
    intro Y hY
    obtain ⟨X, hX, rfl⟩ := List.mem_map.mp (List.mem_toFinset.mp hY)
    obtain ⟨s, hs⟩ := List.getElem?_of_mem hX
    refine Finset.mem_powerset.mpr fun q hq => ?_
    rw [List.mem_toFinset, Std.ExtTreeSet.mem_toList] at hq
    rw [List.mem_toFinset, Graph.mem_states]
    exact (h.slid (s := s) (by rwa [subset?, ← Array.getElem?_toList])).owns q hq
  have hcard := Finset.card_le_card hsub
  rw [List.toFinset_card_of_nodup (h.distinct.map injective_toFinset), List.length_map,
    Array.length_toList, Finset.card_powerset] at hcard
  exact hcard.trans (Nat.pow_le_pow_right Nat.two_pos (List.toFinset_card_le _))

/-- The edge with a label is the only one with this label. -/
theorem Models.next?_eq_some_iff (h : dfa.Models nfa) {s t : StateId} {l : Label} :
    dfa.next? s l = some t ↔ dfa.Arc s l t := by
  have found : ∀ {t}, dfa.next? s l = some t → dfa.Arc s l t := by
    intro t ht
    obtain ⟨⟨l', t'⟩, he, rfl⟩ := Option.map_eq_some_iff.mp ht
    obtain rfl : l' = l := by simpa using List.find?_some he
    exact List.mem_of_find?_eq_some he
  refine ⟨found, fun harc => ?_⟩
  have hsome : (dfa.next? s l).isSome = true := by
    rw [next?, Option.isSome_map, List.find?_isSome]
    exact ⟨_, harc, beq_self_eq_true l⟩
  obtain ⟨t', ht'⟩ := Option.isSome_iff_exists.mp hsome
  obtain ⟨-, X, hX, ht⟩ := h.arc harc
  obtain ⟨-, X', hX', hsub'⟩ := h.arc (found ht')
  obtain rfl := Option.some.inj (hX.symm.trans hX')
  rw [ht', h.eq_of_subset? ht hsub']

namespace Draft

/-- What holds of a construction under way. -/
structure Sound (nfa : Nfa) (d : Draft) : Prop extends d.dfa.Models nfa where
  known : ∀ s ∈ d.pending, s < d.dfa.subsets.size

/-- Nothing is taken back, and new states wait for their edges. -/
structure Grows (d d' : Draft) : Prop where
  subset? : ∀ {s X}, d.dfa.subset? s = some X → d'.dfa.subset? s = some X
  arc : ∀ {s l t}, d.dfa.Arc s l t → d'.dfa.Arc s l t
  old : ∀ s < d'.dfa.subsets.size, s ∉ d'.pending → s < d.dfa.subsets.size ∧ s ∉ d.pending
  waiting : d'.pending.length + d.dfa.subsets.size = d.pending.length + d'.dfa.subsets.size

theorem Grows.refl (d : Draft) : d.Grows d :=
  ⟨id, id, fun _ hs hp => ⟨hs, hp⟩, rfl⟩

theorem Grows.trans {d d' d'' : Draft} (h : d.Grows d') (h' : d'.Grows d'') : d.Grows d'' where
  subset? hs := h'.subset? (h.subset? hs)
  arc ht := h'.arc (h.arc ht)
  old s hs hp := by
    obtain ⟨hs', hp'⟩ := h'.old s hs hp
    exact h.old s hs' hp'
  waiting := by
    have := h.waiting
    have := h'.waiting
    omega

theorem Grows.serves {d d' : Draft} (h : d.Grows d') {s : StateId} {X : StateSet}
    {labels : List Label} (hs : d.dfa.Serves nfa s X labels) :
    d'.dfa.Serves nfa s X labels := by
  intro l hl q hq
  obtain ⟨t, ht⟩ := hs l hl q hq
  exact ⟨t, h.arc ht⟩

variable {d : Draft}

/-- A set that is known already. -/
theorem stateOf_of_idxOf? (finish : StateId) {X : StateSet} {s : StateId}
    (hfound : d.dfa.subsets.idxOf? X = some s) :
    d.stateOf finish X = (s, d) ∧ d.dfa.subset? s = some X := by
  refine ⟨by rw [stateOf, hfound], ?_⟩
  rw [← d.dfa.subsets.toArray_toList, List.idxOf?_toArray] at hfound
  obtain ⟨hs, hX, -⟩ := List.idxOf?_eq_some_iff.mp hfound
  rw [Dfa.subset?, ← Array.getElem?_toList]
  exact List.getElem?_eq_some_iff.mpr ⟨hs, hX⟩

/-- A new state for a set, which waits for its edges. -/
def push (d : Draft) (finish : StateId) (X : StateSet) : Draft :=
  { dfa :=
      { graph := d.dfa.graph.addState d.dfa.subsets.size
        accepting :=
          if X.contains finish then d.dfa.accepting.insert d.dfa.subsets.size
          else d.dfa.accepting
        subsets := d.dfa.subsets.push X }
    pending := d.dfa.subsets.size :: d.pending }

/-- A set that is not known yet. -/
theorem stateOf_of_idxOf?_eq_none (finish : StateId) {X : StateSet}
    (hnew : d.dfa.subsets.idxOf? X = none) :
    d.stateOf finish X = (d.dfa.subsets.size, d.push finish X) := by
  rw [stateOf, hnew]
  rfl

theorem size_push (d : Draft) (finish : StateId) (X : StateSet) :
    (d.push finish X).dfa.subsets.size = d.dfa.subsets.size + 1 :=
  Array.size_push X

theorem subset?_push (d : Draft) (finish : StateId) (X : StateSet) (s : StateId) :
    (d.push finish X).dfa.subset? s =
      if s = d.dfa.subsets.size then some X else d.dfa.subset? s :=
  Array.getElem?_push

theorem arc_push_iff (finish : StateId) (X : StateSet) {s t : StateId} {l : Label} :
    (d.push finish X).dfa.Arc s l t ↔ d.dfa.Arc s l t := by
  rw [Arc, push, Graph.row_addState]
  rfl

theorem isAccepting_push_iff (d : Draft) (finish : StateId) (X : StateSet) (s : StateId) :
    (d.push finish X).dfa.isAccepting s = true ↔
      s = d.dfa.subsets.size ∧ finish ∈ X ∨ d.dfa.isAccepting s = true := by
  rw [isAccepting, isAccepting, push, ← Std.ExtTreeSet.contains_iff_mem]
  split_ifs with hfin
  · rw [Std.ExtTreeSet.contains_insert, Bool.or_eq_true, beq_iff_eq, Nat.compare_eq_eq,
      eq_comm, hfin, eq_self_iff_true, and_true]
  · simp [hfin]

theorem grows_push (d : Draft) (finish : StateId) (X : StateSet) :
    d.Grows (d.push finish X) where
  subset? {s Y} hs := by
    rw [subset?_push, if_neg (Nat.ne_of_lt (lt_size_of_subset? hs)), hs]
  arc ht := (arc_push_iff finish X).mpr ht
  old s hs hp := by
    rw [size_push] at hs
    rw [push, List.mem_cons, not_or] at hp
    exact ⟨by omega, hp.2⟩
  waiting := by
    rw [size_push, push, List.length_cons, Nat.add_right_comm]
    rfl

/-- The new state stands for a set that no other state stands for. -/
theorem Sound.push (h : d.Sound nfa) {X : StateSet} (hX : nfa.Slid X)
    (hnew : X ∉ d.dfa.subsets) : (d.push nfa.finish X).Sound nfa := by
  have hgrows := d.grows_push nfa.finish X
  refine ⟨⟨h.start_eq, hgrows.subset? h.start_subset, fun s => ?_, fun s => ?_, ?_, ?_, ?_,
    h.filed.addState _⟩, ?_⟩
  · rw [size_push, Draft.push, Graph.owns_addState, Bool.or_eq_true, beq_iff_eq, h.owns_iff]
    lia
  · rw [isAccepting_push_iff, h.accepting_iff, subset?_push]
    split_ifs with hs
    · subst hs
      have hfree : ∀ Y, d.dfa.subset? d.dfa.subsets.size ≠ some Y := fun Y hY =>
        absurd (lt_size_of_subset? hY) (Nat.lt_irrefl _)
      simp [hfree]
    · simp [hs]
  · intro s Y hY
    rw [subset?_push] at hY
    split_ifs at hY
    · exact Option.some.inj hY ▸ hX
    · exact h.slid hY
  · rw [Draft.push, Array.toList_push, ← List.concat_eq_append, List.nodup_concat]
    exact ⟨fun hmem => hnew (Array.mem_toList_iff.mp hmem), h.distinct⟩
  · intro s l t ht
    obtain ⟨hl, Y, hY, htarget⟩ := h.arc ((arc_push_iff _ _).mp ht)
    exact ⟨hl, Y, hgrows.subset? hY, hgrows.subset? htarget⟩
  · intro s hs
    rw [size_push]
    rcases List.mem_cons.mp hs with rfl | hs
    · exact Nat.lt_succ_self _
    · exact Nat.lt_succ_of_lt (h.known s hs)

/-- The state of a set exists afterwards. -/
theorem exists_stateOf (h : d.Sound nfa) {X : StateSet} (hX : nfa.Slid X) :
    ∃ s d', d.stateOf nfa.finish X = (s, d') ∧ d'.Sound nfa ∧ d.Grows d' ∧
      d'.dfa.subset? s = some X := by
  cases hfound : d.dfa.subsets.idxOf? X with
  | some s =>
      obtain ⟨heq, hs⟩ := stateOf_of_idxOf? nfa.finish hfound
      exact ⟨s, d, heq, h, .refl d, hs⟩
  | none =>
      refine ⟨_, _, stateOf_of_idxOf?_eq_none nfa.finish hfound,
        h.push hX (Array.idxOf?_eq_none_iff.mp hfound), d.grows_push nfa.finish X, ?_⟩
      rw [subset?_push, if_pos rfl]

/-- An edge to the closure behind its label can be added. -/
theorem Sound.exists_addTransition (h : d.Sound nfa) {s t : StateId} {X : StateSet}
    {l : Label} (hl : l ≠ .epsilon) (hs : d.dfa.subset? s = some X)
    (ht : d.dfa.subset? t = some (nfa.epsilonClosure X.toList l)) :
    ∃ graph, d.dfa.graph.addTransition { source := s, label := l, target := t } = .ok graph ∧
      Sound nfa { d with dfa := { d.dfa with graph } } ∧
      d.Grows { d with dfa := { d.dfa with graph } } ∧
      Arc { d.dfa with graph } s l t := by
  have howns : d.dfa.graph.owns s = true ∧ d.dfa.graph.owns t = true := by
    rw [h.owns_iff, h.owns_iff]
    exact ⟨lt_size_of_subset? hs, lt_size_of_subset? ht⟩
  obtain ⟨graph, hadd⟩ :=
    (Graph.exists_addTransition_iff (t := { source := s, label := l, target := t })).mpr howns
  obtain ⟨hstart, hgraph, -⟩ := Graph.addTransition_eq_ok hadd
  have harc : ∀ {r l' t'}, (⟨l', t'⟩ : Edge) ∈ graph.row r ↔
      d.dfa.Arc r l' t' ∨ r = s ∧ l' = l ∧ t' = t := by
    intro r l' t'
    rw [Graph.row_of_addTransition hadd]
    split_ifs with hr
    · obtain rfl : s = r := hr
      simp [Arc]
    · have hr : r ≠ s := Ne.symm hr
      simp [Arc, hr]
  refine ⟨graph, hadd, ⟨⟨hstart.trans h.start_eq, h.start_subset, fun r => ?_,
    h.accepting_iff, h.slid, h.distinct, ?_, h.filed.addTransition hadd⟩, h.known⟩, ?_,
    harc.mpr (Or.inr ⟨rfl, rfl, rfl⟩)⟩
  · rw [hgraph, h.owns_iff]
  · intro r l' t' h'
    rcases harc.mp h' with h' | ⟨rfl, rfl, rfl⟩
    · exact h.arc h'
    · exact ⟨hl, X, hs, ht⟩
  · exact ⟨id, fun h' => harc.mpr (Or.inl h'), fun r hr hp => ⟨hr, hp⟩, rfl⟩

/-- The edge of a label can be added, and is there afterwards if it is needed. -/
theorem exists_addEdge (hn : nfa.Shaped lo hi) (h : d.Sound nfa) {s : StateId} {X : StateSet}
    (hs : d.dfa.subset? s = some X) {l : Label} (hl : l ≠ .epsilon) :
    ∃ d', addEdge nfa s X d l = .ok d' ∧ d'.Sound nfa ∧ d.Grows d' ∧
      d'.dfa.Serves nfa s X [l] := by
  by_cases hnone : (nfa.epsilonClosure X.toList l).isEmpty = true
  · refine ⟨d, by rw [addEdge, if_pos hnone]; rfl, h, .refl d, ?_⟩
    rw [Std.ExtTreeSet.isEmpty_iff] at hnone
    intro l' hl' q hq
    rw [List.mem_singleton.mp hl', hnone] at hq
    exact absurd hq Std.ExtTreeSet.not_mem_empty
  · obtain ⟨t, d₁, heq, h₁, hgrows, ht⟩ :=
      exists_stateOf h (Nfa.slid_epsilonClosure hn X.toList l)
    obtain ⟨graph, hadd, h₂, hgrows₂, harc⟩ :=
      h₁.exists_addTransition hl (hgrows.subset? hs) ht
    refine ⟨{ d₁ with dfa := { d₁.dfa with graph } }, ?_, h₂, hgrows.trans hgrows₂, ?_⟩
    · rw [addEdge, if_neg hnone, heq]
      change (d₁.dfa.graph.addTransition _ >>= _) = _
      rw [hadd]
      rfl
    · intro l' hl' q _
      rw [List.mem_singleton.mp hl']
      exact ⟨t, harc⟩

/-- All edges of a state can be added. -/
theorem exists_foldlM_addEdge (hn : nfa.Shaped lo hi) {s : StateId} {X : StateSet}
    (labels : List Label) (hlabels : ∀ l ∈ labels, l ≠ .epsilon) {d : Draft} (h : d.Sound nfa)
    (hs : d.dfa.subset? s = some X) :
    ∃ d', labels.foldlM (addEdge nfa s X) d = .ok d' ∧ d'.Sound nfa ∧ d.Grows d' ∧
      d'.dfa.Serves nfa s X labels := by
  induction labels generalizing d with
  | nil =>
      exact ⟨d, rfl, h, .refl d, fun l hl => absurd hl List.not_mem_nil⟩
  | cons l labels ih =>
      obtain ⟨hl, hrest⟩ := List.forall_mem_cons.mp hlabels
      obtain ⟨d₁, hok, h₁, hgrows, hserves⟩ := exists_addEdge hn h hs hl
      obtain ⟨d₂, hok₂, h₂, hgrows₂, hserves₂⟩ := ih hrest h₁ (hgrows.subset? hs)
      refine ⟨d₂, ?_, h₂, hgrows.trans hgrows₂, ?_⟩
      · rw [List.foldlM_cons, hok]
        exact hok₂
      · refine List.forall_mem_cons.mpr ⟨?_, hserves₂⟩
        exact hgrows₂.serves hserves l (List.mem_singleton.mpr rfl)

/-- Every state that does not wait has all its edges. -/
def Served (nfa : Nfa) (d : Draft) : Prop :=
  ∀ {s X}, d.dfa.subset? s = some X → s ∉ d.pending →
    d.dfa.Serves nfa s X nfa.alphabet.toList

/-- Where no state waits, no edge is missing. -/
theorem Served.represents (hserved : d.Served nfa) (h : d.Sound nfa) (hnone : d.pending = []) :
    d.dfa.Represents nfa := by
  refine ⟨h.toModels, fun hs => hserved hs ?_⟩
  rw [hnone]
  exact List.not_mem_nil

/-- A round serves the first state that waits, and the states that it adds wait. -/
theorem Served.round {d' : Draft} {s : StateId} {pending : List StateId} {X : StateSet}
    (hserved : d.Served nfa) (hp : d.pending = s :: pending) (hX : d.dfa.subset? s = some X)
    (hgrows : Grows { d with pending } d')
    (hserves : d'.dfa.Serves nfa s X nfa.alphabet.toList) : d'.Served nfa := by
  intro r Y hr hout
  obtain ⟨hlt, hold⟩ := hgrows.old r (lt_size_of_subset? hr) hout
  obtain ⟨Z, hZ⟩ := exists_subset? hlt
  obtain rfl := Option.some.inj ((hgrows.subset? hZ).symm.trans hr)
  by_cases hrs : r = s
  · subst hrs
    obtain rfl := Option.some.inj (hX.symm.trans hZ)
    exact hserves
  · refine hgrows.serves (d := { d with pending }) (hserved hZ ?_)
    rw [hp, List.mem_cons, not_or]
    exact ⟨hrs, hold⟩

/-- With a round for every set of states that has no state yet, and for every state that
waits, no state is left waiting. -/
theorem exists_complete (hn : nfa.Shaped lo hi) (rounds : Nat) {d : Draft} (h : d.Sound nfa)
    (hserved : d.Served nfa)
    (enough : 2 ^ nfa.graph.states.length + d.pending.length ≤ rounds + d.dfa.subsets.size) :
    ∃ dfa, d.complete nfa nfa.alphabet.toList rounds = .ok dfa ∧ dfa.Represents nfa := by
  induction rounds generalizing d with
  | zero =>
      have hsize := h.size_le
      have hnone : d.pending = [] := List.length_eq_zero_iff.mp (by omega)
      exact ⟨d.dfa, rfl, hserved.represents h hnone⟩
  | succ rounds ih =>
      cases hp : d.pending with
      | nil =>
          exact ⟨d.dfa, by rw [complete, hp]; rfl, hserved.represents h hp⟩
      | cons s pending =>
          obtain ⟨X, hX⟩ := exists_subset? (h.known s (by simp [hp]))
          have h' : Sound nfa { d with pending } :=
            ⟨h.toModels, fun r hr => h.known r (by rw [hp]; exact List.mem_cons_of_mem s hr)⟩
          obtain ⟨d₁, hok, h₁, hgrows, hserves⟩ :=
            exists_foldlM_addEdge hn nfa.alphabet.toList
              (fun l hl => ((nfa.mem_alphabet_iff l).mp (Std.ExtTreeSet.mem_toList.mp hl)).1)
              h' hX
          have hwait : d₁.pending.length + d.dfa.subsets.size =
              pending.length + d₁.dfa.subsets.size := hgrows.waiting
          rw [hp, List.length_cons] at enough
          obtain ⟨dfa, hdone, hrep⟩ :=
            ih h₁ (hserved.round hp hX hgrows hserves) (by omega)
          refine ⟨dfa, ?_, hrep⟩
          rw [complete, hp]
          change ((nfa.alphabet.toList.foldlM
            (addEdge nfa s ((d.dfa.subset? s).getD ∅)) { d with pending }) >>= _) = _
          rw [hX, Option.getD_some, hok]
          exact hdone

/-- The construction begins with one state, which stands for the closure of the start. -/
theorem initial_eq (nfa : Nfa) :
    initial nfa =
      push { dfa := { graph := .single 0, accepting := ∅, subsets := #[] }, pending := [] }
        nfa.finish (nfa.epsilonReachable [nfa.start]) := by
  rw [initial, stateOf_of_idxOf?_eq_none]
  exact Array.idxOf?_empty

theorem sound_initial (hn : nfa.Shaped lo hi) : (initial nfa).Sound nfa := by
  have hsub : ∀ s X, (initial nfa).dfa.subset? s = some X ↔
      s = 0 ∧ nfa.epsilonReachable [nfa.start] = X := by
    intro s X
    rw [initial_eq, subset?_push]
    split_ifs with hs
    · simp [show s = 0 from hs]
    · simp [show s ≠ 0 from hs, Dfa.subset?]
  refine ⟨⟨by rw [initial_eq]; rfl, (hsub 0 _).mpr ⟨rfl, rfl⟩, fun s => ?_, fun s => ?_, ?_,
    by rw [initial_eq]; exact List.nodup_singleton _, ?_,
    by rw [initial_eq]; exact (Graph.filed_single 0).addState _⟩, ?_⟩
  · rw [initial_eq, size_push, push, Graph.owns_addState, Graph.owns_single]
    simp
  · simp only [hsub]
    rw [initial_eq, isAccepting_push_iff]
    simp [isAccepting]
  · intro s X hX
    rw [← ((hsub s X).mp hX).2]
    exact Nfa.slid_epsilonReachable hn (by simpa using hn.start_owned)
  · intro s l t ht
    rw [initial_eq, arc_push_iff] at ht
    simp [Arc] at ht
  · intro s hs
    rw [initial_eq, push, List.mem_singleton] at hs
    rw [initial_eq, size_push, hs]
    exact Nat.one_pos

end Draft

end Dfa

/-- The subset construction never fails, and no edge is missing in what it makes. -/
theorem Nfa.exists_toDfa {nfa : Nfa} {lo hi : StateId} (hn : nfa.Shaped lo hi) :
    ∃ dfa, nfa.toDfa = .ok dfa ∧ dfa.Represents nfa := by
  have heq := Dfa.Draft.initial_eq nfa
  refine Dfa.Draft.exists_complete hn _ (Dfa.Draft.sound_initial hn) (fun {s X} hs hout => ?_) ?_
  · have hlt := Dfa.lt_size_of_subset? hs
    rw [heq, Dfa.Draft.size_push] at hlt
    rw [heq, Dfa.Draft.push, List.mem_singleton] at hout
    exact absurd (Nat.lt_one_iff.mp hlt) hout
  · rw [heq, Dfa.Draft.size_push]
    exact Nat.le_refl _

end Backtracking
