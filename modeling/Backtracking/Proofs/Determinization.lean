import Backtracking.Proofs.Shape
import Backtracking.Proofs.Simulation

/-!
# What the subset construction makes

The automaton that the subset construction makes, as a whole: how its states are numbered, which
sets they stand for, where its edges lead, and that it has no state too many.

**While it is built.**  `Dfa.Models` says what states and edges mean.  Three more things are kept:
every state has been come to, a state that waits has no edges, and the labels at a state are
different (`Dfa.Draft.Tidy`).  A step adds an edge, and its target if that is new
(`Dfa.Draft.addEdge_eq_ok`).

**No dead end.**  Every state of the nondeterministic automaton has a way to the finish.  A state
that stands for a set with this state in it has the same way, epsilon edges left out
(`Dfa.Represents.exists_accepting`).

**Results.**
* `Dfa.Determinizes`: the properties.
* `Compiler.exists_toDfa_determinizes`: they hold for every tree and numbering.
-/

namespace Backtracking

open Relation

/-- No label is listed twice. -/
theorem Nfa.nodup_alphabet (nfa : Nfa) : nfa.alphabet.toList.Nodup :=
  Std.ExtTreeSet.distinct_toList.imp fun hne heq => hne (Std.compare_eq_iff_eq.mpr heq)

/-- Epsilon edges lead to nothing new. -/
theorem Nfa.Slid.epsilonReachable_eq {nfa : Nfa} {X : StateSet} (h : nfa.Slid X) :
    nfa.epsilonReachable X.toList = X := by
  refine Std.ExtTreeSet.ext_mem fun q => ?_
  rw [mem_epsilonReachable_iff_slides]
  constructor
  · rintro ⟨r, hr, hslide⟩
    exact h.slides (Std.ExtTreeSet.mem_toList.mp hr) hslide
  · intro hq
    exact ⟨q, Std.ExtTreeSet.mem_toList.mpr hq, .refl⟩

theorem Nfa.start_mem_epsilonReachable (nfa : Nfa) :
    nfa.start ∈ nfa.epsilonReachable [nfa.start] :=
  (nfa.mem_epsilonReachable_singleton_iff _ _).mpr .refl

namespace Dfa

variable {dfa : Dfa} {nfa : Nfa} {lo hi : StateId} {s t : StateId} {X : StateSet} {l : Label}

theorem exists_mem_of_ne_empty (h : X ≠ ∅) : ∃ q, q ∈ X := by
  rw [Ne, Std.ExtTreeSet.eq_empty_iff_forall_not_mem] at h
  exact not_forall_not.mp h

/-- The state `t` can be reached from `s` along any edges. -/
def Reaches (dfa : Dfa) (s t : StateId) : Prop :=
  ReflTransGen (fun a b => ∃ l, dfa.Arc a l b) s t

/-- An automaton that stands for another one state set by state set, without a state too many. -/
structure Determinizes (dfa : Dfa) (nfa : Nfa) : Prop where
  states_eq : dfa.graph.states = List.range dfa.subsets.size
  subset_start : dfa.subset? dfa.start = some (nfa.epsilonReachable [nfa.start])
  subset_isSome : ∀ s, (dfa.subset? s).isSome = true ↔ s ∈ dfa.graph.states
  ne_empty : ∀ {s X}, dfa.subset? s = some X → X ≠ ∅
  ascending : ∀ {s X}, dfa.subset? s = some X → X.toList.Pairwise (· < ·)
  /-- Sets are closed under epsilon edges. -/
  epsilonReachable_eq : ∀ {s X}, dfa.subset? s = some X → nfa.epsilonReachable X.toList = X
  subset_inj : ∀ {s t X}, dfa.subset? s = some X → dfa.subset? t = some X → s = t
  label_ne : ∀ t ∈ dfa.graph.transitions, t.label ≠ .epsilon
  /-- No two edges share their source and their label. -/
  nodup_labels : (dfa.graph.transitions.map fun t => (t.source, t.label)).Nodup
  next?_eq_some_iff : ∀ {s X l t}, dfa.subset? s = some X → l ≠ .epsilon →
    (dfa.next? s l = some t ↔ dfa.subset? t = some (nfa.epsilonClosure X.toList l))
  next?_eq_none_iff : ∀ {s X l}, dfa.subset? s = some X → l ≠ .epsilon →
    (dfa.next? s l = none ↔ nfa.epsilonClosure X.toList l = ∅)
  isAccepting_iff : ∀ s,
    dfa.isAccepting s = true ↔ ∃ X, dfa.subset? s = some X ∧ nfa.finish ∈ X
  reached : ∀ s ∈ dfa.graph.states, dfa.Reaches dfa.start s
  /-- From every state a word can be completed. -/
  completed : ∀ s ∈ dfa.graph.states, ∃ t, dfa.Reaches s t ∧ dfa.isAccepting t = true

theorem Models.states_eq (h : dfa.Models nfa) :
    dfa.graph.states = List.range dfa.subsets.size := by
  refine List.Pairwise.eq_of_mem_iff (r := (· < ·)) dfa.graph.pairwise_states
    List.pairwise_lt_range fun s => ?_
  rw [Graph.mem_states, h.owns_iff, List.mem_range]

/-- No two edges share their source and their label if no two edges at a state share theirs. -/
theorem nodup_transitions
    (hf : dfa.graph.Filed) (h : ∀ s, ((dfa.graph.row s).map Edge.label).Nodup) :
    (dfa.graph.transitions.map fun t => (t.source, t.label)).Nodup := by
  rw [Graph.transitions, List.map_flatMap]
  refine List.nodup_flatMap.mpr ⟨fun s _ => ?_, ?_⟩
  · have hpairs := (h s).map (Prod.mk_right_injective s)
    rw [List.map_map] at hpairs
    rw [hf.transitionsFrom_eq, List.map_map]
    exact hpairs
  · refine dfa.graph.pairwise_states.imp fun hlt p hp hp' => Nat.ne_of_lt hlt ?_
    obtain ⟨t, ht, rfl⟩ := List.mem_map.mp hp
    obtain ⟨t', ht', heq⟩ := List.mem_map.mp hp'
    rw [← hf _ t ht, ← hf _ t' ht']
    exact (congrArg Prod.fst heq).symm

section Represents

variable (h : dfa.Represents nfa)
include h

/-- A way to the finish leads to an accepting state from every state that stands for its
beginning. -/
theorem Represents.exists_accepting {q : StateId} (hs : dfa.subset? s = some X) (hq : q ∈ X)
    (hway : nfa.Reaches q nfa.finish) :
    ∃ t, dfa.Reaches s t ∧ dfa.isAccepting t = true := by
  induction hway using ReflTransGen.head_induction_on generalizing s X with
  | refl =>
      exact ⟨s, .refl, (h.accepting_iff s).mpr ⟨X, hs, hq⟩⟩
  | @head q r hstep _ ih =>
      obtain ⟨l, harc⟩ := hstep
      by_cases hl : l = .epsilon
      · -- the set is not left along an epsilon edge
        exact ih hs ((h.slid hs).slides hq (.single (hl ▸ harc)))
      · have hr : r ∈ nfa.epsilonClosure X.toList l :=
          (Nfa.mem_epsilonClosure_iff nfa _ l r).mpr
            ⟨q, Std.ExtTreeSet.mem_toList.mpr hq, r, harc, .refl⟩
        obtain ⟨s', hedge, hs'⟩ := h.exists_arc hs hl hr
        obtain ⟨t, hreach, hacc⟩ := ih hs' hr
        exact ⟨t, .head ⟨l, hedge⟩ hreach, hacc⟩

variable (hne : ∀ {s X}, dfa.subset? s = some X → X ≠ ∅)
include hne

theorem Represents.next?_eq_some_iff_subset? (hs : dfa.subset? s = some X) (hl : l ≠ .epsilon) :
    dfa.next? s l = some t ↔ dfa.subset? t = some (nfa.epsilonClosure X.toList l) := by
  rw [h.next?_eq_some_iff]
  constructor
  · intro harc
    obtain ⟨-, Y, hY, ht⟩ := h.arc harc
    obtain rfl := Option.some.inj (hs.symm.trans hY)
    exact ht
  · intro ht
    obtain ⟨q, hq⟩ := exists_mem_of_ne_empty (hne ht)
    obtain ⟨t', harc, ht'⟩ := h.exists_arc hs hl hq
    exact h.eq_of_subset? ht' ht ▸ harc

theorem Represents.next?_eq_none_iff (hs : dfa.subset? s = some X) (hl : l ≠ .epsilon) :
    dfa.next? s l = none ↔ nfa.epsilonClosure X.toList l = ∅ := by
  rw [Option.eq_none_iff_forall_ne_some]
  simp only [Ne, h.next?_eq_some_iff_subset? hne hs hl]
  constructor
  · intro hnone
    by_contra hsome
    obtain ⟨q, hq⟩ := exists_mem_of_ne_empty hsome
    obtain ⟨t, -, ht⟩ := h.exists_arc hs hl hq
    exact hnone t ht
  · intro hempty t ht
    exact hne ht hempty

end Represents

namespace Draft

/-- What a construction under way keeps besides the meaning of its states: every state has been
come to, and a state that waits has no edges. -/
structure Tidy (d : Draft) : Prop where
  nodup_pending : d.pending.Nodup
  row_pending : ∀ s ∈ d.pending, d.dfa.graph.row s = []
  nodup_labels : ∀ s, ((d.dfa.graph.row s).map Edge.label).Nodup
  ne_empty : ∀ {s X}, d.dfa.subset? s = some X → X ≠ ∅
  reached : ∀ s < d.dfa.subsets.size, d.dfa.Reaches 0 s

/-- A construction that is at the edges of a state, for which some labels are left to try. -/
structure Serving (d : Draft) (s : StateId) (labels : List Label) : Prop extends d.Tidy where
  known : s < d.dfa.subsets.size
  not_waiting : s ∉ d.pending
  nodup_left : labels.Nodup
  label_new : ∀ l ∈ labels, l ∉ (d.dfa.graph.row s).map Edge.label

variable {d d' : Draft} {labels : List Label} {finish : StateId}

theorem row_push (d : Draft) (finish : StateId) (X : StateSet) (s : StateId) :
    (d.push finish X).dfa.graph.row s = d.dfa.graph.row s :=
  Graph.row_addState _ _ s

/-- An edge to `t` has been added, and `t` as well if no state stood for its set. -/
structure Extends (d d' : Draft) (s : StateId) (l : Label) (t : StateId) (X : StateSet) :
    Prop where
  row : ∀ r, d'.dfa.graph.row r =
    if s = r then d.dfa.graph.row r ++ [⟨l, t⟩] else d.dfa.graph.row r
  target : d'.dfa.subsets = d.dfa.subsets ∧ d'.pending = d.pending ∨
    t = d.dfa.subsets.size ∧ d'.dfa.subsets = d.dfa.subsets.push X ∧ d'.pending = t :: d.pending

/-- A step does nothing where nothing is behind the label, and adds one edge elsewhere. -/
theorem addEdge_eq_ok (hok : addEdge nfa s X d l = .ok d') :
    nfa.epsilonClosure X.toList l = ∅ ∧ d' = d ∨
      nfa.epsilonClosure X.toList l ≠ ∅ ∧
        ∃ t, d.Extends d' s l t (nfa.epsilonClosure X.toList l) := by
  rw [addEdge] at hok
  split_ifs at hok with hempty
  · exact Or.inl ⟨Std.ExtTreeSet.isEmpty_iff.mp hempty, (Except.ok.inj hok).symm⟩
  · refine Or.inr ⟨fun h => hempty (Std.ExtTreeSet.isEmpty_iff.mpr h), ?_⟩
    cases hfound : d.dfa.subsets.idxOf? (nfa.epsilonClosure X.toList l) with
    | some t =>
        rw [(stateOf_of_idxOf? nfa.finish hfound).1] at hok
        obtain ⟨graph, hadd, hok⟩ := exists_of_bind_eq_ok hok
        obtain rfl := Except.ok.inj hok
        exact ⟨t, Graph.row_of_addTransition hadd, Or.inl ⟨rfl, rfl⟩⟩
    | none =>
        rw [stateOf_of_idxOf?_eq_none nfa.finish hfound] at hok
        obtain ⟨graph, hadd, hok⟩ := exists_of_bind_eq_ok hok
        obtain rfl := Except.ok.inj hok
        refine ⟨d.dfa.subsets.size, fun r => ?_, Or.inr ⟨rfl, rfl, rfl⟩⟩
        rw [← row_push d nfa.finish (nfa.epsilonClosure X.toList l) r]
        exact Graph.row_of_addTransition hadd r

theorem Extends.arc (h : d.Extends d' s l t X) {r r' : StateId} {l' : Label}
    (harc : d.dfa.Arc r l' r') : d'.dfa.Arc r l' r' := by
  rw [Arc, h.row]
  split_ifs
  · exact List.mem_append_left _ harc
  · exact harc

theorem Extends.arc_new (h : d.Extends d' s l t X) : d'.dfa.Arc s l t := by
  rw [Arc, h.row, if_pos rfl]
  exact List.mem_append_right _ (List.mem_singleton_self _)

theorem Extends.reaches (h : d.Extends d' s l t X) {r r' : StateId} (hr : d.dfa.Reaches r r') :
    d'.dfa.Reaches r r' :=
  ReflTransGen.mono (fun _ _ ⟨l', harc⟩ => ⟨l', h.arc harc⟩) _ _ hr

theorem Extends.lt_or_eq (h : d.Extends d' s l t X) {r : StateId} (hr : r < d'.dfa.subsets.size) :
    r < d.dfa.subsets.size ∨ r = t := by
  rcases h.target with ⟨hsubsets, -⟩ | ⟨rfl, hsubsets, -⟩
  · exact Or.inl (hsubsets ▸ hr)
  · rw [hsubsets, Array.size_push] at hr
    exact Nat.lt_succ_iff_lt_or_eq.mp hr

theorem Extends.size_le (h : d.Extends d' s l t X) :
    d.dfa.subsets.size ≤ d'.dfa.subsets.size := by
  rcases h.target with ⟨hsubsets, -⟩ | ⟨-, hsubsets, -⟩
  · rw [hsubsets]
  · rw [hsubsets, Array.size_push]
    exact Nat.le_succ _

theorem Extends.subset?_or_eq (h : d.Extends d' s l t X) {r : StateId} {Y : StateSet}
    (hr : d'.dfa.subset? r = some Y) : d.dfa.subset? r = some Y ∨ X = Y := by
  rw [subset?] at hr
  rcases h.target with ⟨hsubsets, -⟩ | ⟨-, hsubsets, -⟩
  · rw [hsubsets] at hr
    exact Or.inl hr
  · rw [hsubsets, Array.getElem?_push] at hr
    split_ifs at hr
    · exact Or.inr (Option.some.inj hr)
    · exact Or.inl hr

theorem Extends.mem_pending (h : d.Extends d' s l t X) {r : StateId} (hr : r ∈ d'.pending) :
    r ∈ d.pending ∨ r = d.dfa.subsets.size := by
  rcases h.target with ⟨-, hpending⟩ | ⟨rfl, -, hpending⟩
  · exact Or.inl (hpending ▸ hr)
  · rw [hpending, List.mem_cons] at hr
    exact hr.symm

theorem Extends.nodup_pending (h : d.Extends d' s l t X) (hd : d.Sound nfa)
    (hnodup : d.pending.Nodup) : d'.pending.Nodup := by
  rcases h.target with ⟨-, hpending⟩ | ⟨rfl, -, hpending⟩
  · rwa [hpending]
  · rw [hpending, List.nodup_cons]
    exact ⟨fun hmem => Nat.lt_irrefl _ (hd.known _ hmem), hnodup⟩

/-- No edges leave a state that is not there yet. -/
theorem Sound.row_size (h : d.Sound nfa) : d.dfa.graph.row d.dfa.subsets.size = [] := by
  refine Graph.row_eq_nil (Bool.eq_false_iff.mpr fun howns => ?_)
  exact Nat.lt_irrefl _ ((h.owns_iff _).mp howns)

/-- A step leaves the construction tidy and has tried one label. -/
theorem Serving.extend (hd : d.Serving s (l :: labels)) (h : d.Sound nfa)
    (hstep : d.Extends d' s l t X) (hX : X ≠ ∅) : d'.Serving s labels := by
  obtain ⟨hfresh, hleft⟩ := List.nodup_cons.mp hd.nodup_left
  obtain ⟨hnew, hrest⟩ := List.forall_mem_cons.mp hd.label_new
  have hlabels : (d'.dfa.graph.row s).map Edge.label =
      (d.dfa.graph.row s).map Edge.label ++ [l] := by
    rw [hstep.row, if_pos rfl, List.map_append]
    rfl
  have hrow : ∀ r, r ≠ s → d'.dfa.graph.row r = d.dfa.graph.row r :=
    fun r hr => by rw [hstep.row, if_neg hr.symm]
  have hnot : s ∉ d'.pending := fun hmem => (hstep.mem_pending hmem).elim hd.not_waiting
    (Nat.ne_of_lt hd.known)
  refine
    { nodup_pending := hstep.nodup_pending h hd.nodup_pending
      row_pending := fun r hr => ?_
      nodup_labels := fun r => ?_
      ne_empty := fun hr => (hstep.subset?_or_eq hr).elim hd.ne_empty fun heq => heq ▸ hX
      reached := fun r hr => ?_
      known := hd.known.trans_le hstep.size_le
      not_waiting := hnot
      nodup_left := hleft
      label_new := fun l' hl' => ?_ }
  · rw [hrow r fun heq => hnot (heq ▸ hr)]
    rcases hstep.mem_pending hr with hold | rfl
    · exact hd.row_pending r hold
    · exact h.row_size
  · by_cases hr : r = s
    · rw [hr, hlabels, ← List.concat_eq_append, List.nodup_concat]
      exact ⟨hnew, hd.nodup_labels s⟩
    · rw [hrow r hr]
      exact hd.nodup_labels r
  · rcases hstep.lt_or_eq hr with hold | rfl
    · exact hstep.reaches (hd.reached r hold)
    · exact (hstep.reaches (hd.reached s hd.known)).tail ⟨l, hstep.arc_new⟩
  · rw [hlabels, List.mem_append, List.mem_singleton, not_or]
    exact ⟨hrest l' hl', fun heq => hfresh (heq ▸ hl')⟩

/-- Trying all labels that are left leaves the construction tidy. -/
theorem Serving.tidy_of_foldlM (hn : nfa.Shaped lo hi) (hlabels : ∀ l ∈ labels, l ≠ .epsilon)
    (h : d.Sound nfa) (hd : d.Serving s labels) (hs : d.dfa.subset? s = some X)
    (hok : labels.foldlM (addEdge nfa s X) d = .ok d') : d'.Tidy := by
  induction labels generalizing d with
  | nil =>
      obtain rfl := Except.ok.inj hok
      exact hd.toTidy
  | cons l labels ih =>
      obtain ⟨hl, hrest⟩ := List.forall_mem_cons.mp hlabels
      obtain ⟨d₁, hok₁, h₁, hgrows, -⟩ := exists_addEdge hn h hs hl
      rw [List.foldlM_cons, hok₁] at hok
      refine ih hrest h₁ ?_ (hgrows.subset? hs) hok
      rcases addEdge_eq_ok hok₁ with ⟨-, rfl⟩ | ⟨hX, t, hstep⟩
      · exact
          { hd with
            nodup_left := (List.nodup_cons.mp hd.nodup_left).2
            label_new := (List.forall_mem_cons.mp hd.label_new).2 }
      · exact hd.extend h hstep hX

/-- A state that waits can be served. -/
theorem Tidy.serving (hd : d.Tidy) (h : d.Sound nfa) {pending : List StateId}
    (hp : d.pending = s :: pending) :
    Serving { d with pending } s nfa.alphabet.toList := by
  have hmem : s ∈ d.pending := hp ▸ List.mem_cons_self
  obtain ⟨hnot, hnodup⟩ := List.nodup_cons.mp (hp ▸ hd.nodup_pending)
  have hrow : d.dfa.graph.row s = [] := hd.row_pending s hmem
  exact
    { nodup_pending := hnodup
      row_pending := fun r hr => hd.row_pending r (hp ▸ List.mem_cons_of_mem s hr)
      nodup_labels := hd.nodup_labels
      ne_empty := hd.ne_empty
      reached := hd.reached
      known := h.known s hmem
      not_waiting := hnot
      nodup_left := nfa.nodup_alphabet
      label_new := fun l _ => by simp [hrow] }

/-- What is completed from a tidy construction is tidy. -/
theorem Tidy.complete (hn : nfa.Shaped lo hi) (rounds : Nat) (h : d.Sound nfa) (hd : d.Tidy)
    (hok : d.complete nfa nfa.alphabet.toList rounds = .ok dfa) :
    ∃ d' : Draft, d'.dfa = dfa ∧ d'.Tidy := by
  induction rounds generalizing d with
  | zero =>
      exact ⟨d, Except.ok.inj hok, hd⟩
  | succ rounds ih =>
      rw [Draft.complete] at hok
      split at hok
      next hp =>
        exact ⟨d, Except.ok.inj hok, hd⟩
      next s pending hp =>
        obtain ⟨X, hX⟩ := exists_subset? (h.known s (hp ▸ List.mem_cons_self))
        have h' : Sound nfa { d with pending } :=
          ⟨h.toModels, fun r hr => h.known r (hp ▸ List.mem_cons_of_mem s hr)⟩
        have hlabels : ∀ l ∈ nfa.alphabet.toList, l ≠ .epsilon := fun l hl =>
          ((nfa.mem_alphabet_iff l).mp (Std.ExtTreeSet.mem_toList.mp hl)).1
        obtain ⟨d₁, hok₁, h₁, -, -⟩ :=
          exists_foldlM_addEdge hn nfa.alphabet.toList hlabels h' hX
        simp only [hX, Option.getD_some, hok₁] at hok
        exact ih h₁ ((hd.serving h hp).tidy_of_foldlM hn hlabels h' hX hok₁) hok

theorem tidy_initial (nfa : Nfa) : (initial nfa).Tidy := by
  have hne : nfa.epsilonReachable [nfa.start] ≠ ∅ := fun hempty =>
    Std.ExtTreeSet.not_mem_empty (hempty ▸ nfa.start_mem_epsilonReachable)
  have hrow : ∀ s, (initial nfa).dfa.graph.row s = [] := fun s => by
    rw [initial_eq, row_push, Graph.row_single]
  rw [initial_eq] at hrow ⊢
  refine ⟨List.nodup_singleton _, fun s _ => hrow s, fun s => ?_, fun {s X} hX => ?_,
    fun s hs => ?_⟩
  · rw [hrow]
    exact List.nodup_nil
  · rw [subset?_push] at hX
    split_ifs at hX
    · exact Option.some.inj hX ▸ hne
    · cases hX
  · rw [size_push] at hs
    obtain rfl : s = 0 := Nat.lt_one_iff.mp hs
    exact .refl

end Draft

/-- What the subset construction makes of an automaton without dead ends. -/
theorem determinizes_of_toDfa (hn : nfa.Shaped lo hi) (htrim : nfa.Trim)
    (hok : nfa.toDfa = .ok dfa) : dfa.Determinizes nfa := by
  obtain ⟨dfa', hok', h⟩ := Nfa.exists_toDfa hn
  obtain rfl := Except.ok.inj (hok.symm.trans hok')
  obtain ⟨d, rfl, htidy⟩ := (Draft.tidy_initial nfa).complete hn _ (Draft.sound_initial hn) hok
  have hstates : ∀ s, s ∈ d.dfa.graph.states ↔ s < d.dfa.subsets.size := fun s => by
    rw [Graph.mem_states, h.owns_iff]
  refine
    { states_eq := h.states_eq
      subset_start := by rw [h.start_eq, h.start_subset]
      subset_isSome := fun s => ?_
      ne_empty := htidy.ne_empty
      ascending := fun {_ X} _ => X.pairwise_toList
      epsilonReachable_eq := fun hs => (h.slid hs).epsilonReachable_eq
      subset_inj := h.eq_of_subset?
      label_ne := fun t ht => (h.arc ((h.filed.mem_transitions t).mp ht)).1
      nodup_labels := nodup_transitions h.filed htidy.nodup_labels
      next?_eq_some_iff := h.next?_eq_some_iff_subset? htidy.ne_empty
      next?_eq_none_iff := h.next?_eq_none_iff htidy.ne_empty
      isAccepting_iff := h.accepting_iff
      reached := fun s hs => ?_
      completed := fun s hs => ?_ }
  · rw [hstates, Option.isSome_iff_exists]
    exact ⟨fun ⟨X, hX⟩ => lt_size_of_subset? hX, exists_subset?⟩
  · rw [h.start_eq]
    exact htidy.reached s ((hstates s).mp hs)
  · obtain ⟨X, hX⟩ := exists_subset? ((hstates s).mp hs)
    obtain ⟨q, hq⟩ := exists_mem_of_ne_empty (htidy.ne_empty hX)
    exact h.exists_accepting hX hq (htrim q ((h.slid hX).owns q hq)).2

end Dfa

/-- The subset construction of every tree ends, whatever the numbering is, and its automaton
stands for that of the tree set by set, with no state that is not reached and no dead end. -/
theorem Compiler.exists_toDfa_determinizes (c : Compiler) (p : Pattern) :
    ∃ nfa c' dfa, c.compileTree p = .ok (nfa, c') ∧ nfa.toDfa = .ok dfa ∧
      dfa.Determinizes nfa := by
  obtain ⟨nfa, c', hok, hfrag⟩ := c.exists_compileTree p
  obtain ⟨dfa, hdfa, -⟩ := Nfa.exists_toDfa hfrag.shaped
  exact ⟨nfa, c', dfa, hok, hdfa, Dfa.determinizes_of_toDfa hfrag.shaped hfrag.trim hdfa⟩

end Backtracking
