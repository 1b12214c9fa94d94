import Backtracking.Proofs.Closure
import Backtracking.Proofs.Transport
import Mathlib.Tactic

/-!
# Shifted automata

An automaton whose states are all numbered higher by the same number is the same automaton
under other names.  This module says what shifting is and that the construction commutes
with it.

**Finite maps and sets.**  They are renamed through the list of their entries
(`rekey`, `rename`).  Under an injective renaming a renamed key holds the renamed value, and
adding an entry commutes with the renaming; a renaming that keeps the order keeps the order
of the list.

**Results.**
* `Graph.owns_shift`, `Graph.states_shift`, `Graph.transitionsFrom_shift`, `Graph.row_shift`,
  `Graph.transitions_shift`: the view of a shifted graph.
* `Pattern.Built.shift`: the construction from a higher number on makes the shifted
  automaton.
-/

namespace Backtracking

open Std

/-- What is picked from a renamed list by a test that the renaming does not change. -/
theorem filter_map_of_eq {α β : Type} {f : α → β} {p : α → Bool} {q : β → Bool}
    (h : ∀ a, q (f a) = p a) (l : List α) : (l.map f).filter q = (l.filter p).map f := by
  rw [List.filter_map]
  exact congrArg (List.map f) (List.filter_congr fun a _ => h a)

section Renaming

variable {α β : Type} [Ord α] [TransOrd α] [LawfulEqOrd α] {f : α → α} {g : β → β}

/-- A finite map under other keys and values. -/
def rekey (f : α → α) (g : β → β) (m : ExtTreeMap α β) : ExtTreeMap α β :=
  .ofList (m.toList.map fun e => (f e.1, g e.2))

/-- A finite set under other names. -/
def rename (f : α → α) (X : ExtTreeSet α) : ExtTreeSet α :=
  .ofList (X.toList.map f)

theorem distinct_renamed (hf : Function.Injective f) (m : ExtTreeMap α β) :
    (m.toList.map fun e => (f e.1, g e.2)).Pairwise fun a b => ¬ compare a.1 b.1 = .eq := by
  refine List.pairwise_map.mpr (ExtTreeMap.distinct_keys_toList.imp fun hne heq => hne ?_)
  exact LawfulEqOrd.compare_eq_iff_eq.mpr (hf (LawfulEqOrd.compare_eq_iff_eq.mp heq))

theorem size_rekey (hf : Function.Injective f) (m : ExtTreeMap α β) :
    (rekey f g m).size = m.size := by
  rw [rekey, ExtTreeMap.size_ofList (distinct_renamed hf m), List.length_map,
    ExtTreeMap.length_toList]

omit [LawfulEqOrd α] in
theorem rekey_empty : rekey f g ∅ = ∅ := by
  rw [rekey, ExtTreeMap.toList_eq_nil_iff.mpr rfl]
  exact ExtTreeMap.ofList_nil

omit [TransOrd α] in
theorem compare_renamed (hf : Function.Injective f) (a b : α) :
    compare (f a) (f b) = .eq ↔ compare a b = .eq := by
  rw [LawfulEqOrd.compare_eq_iff_eq, LawfulEqOrd.compare_eq_iff_eq, hf.eq_iff]

variable [DecidableEq α]

theorem mem_rename_iff {X : ExtTreeSet α} {b : α} : b ∈ rename f X ↔ ∃ a ∈ X, f a = b := by
  rw [rename, ExtTreeSet.mem_ofList, List.contains_iff_mem, List.mem_map]
  simp only [ExtTreeSet.mem_toList]

theorem contains_rename (hf : Function.Injective f) (X : ExtTreeSet α) (a : α) :
    (rename f X).contains (f a) = X.contains a := by
  rw [Bool.eq_iff_iff, ← ExtTreeSet.mem_iff_contains, ← ExtTreeSet.mem_iff_contains,
    mem_rename_iff]
  exact ⟨fun ⟨b, hb, heq⟩ => hf heq ▸ hb, fun ha => ⟨a, ha, rfl⟩⟩

theorem rename_ofList (l : List α) :
    rename f (ExtTreeSet.ofList l) = ExtTreeSet.ofList (l.map f) := by
  refine ExtTreeSet.ext_mem fun b => ?_
  rw [mem_rename_iff, ExtTreeSet.mem_ofList, List.contains_iff_mem, List.mem_map]
  simp only [ExtTreeSet.mem_ofList, List.contains_iff_mem]

theorem rename_insert (X : ExtTreeSet α) (a : α) :
    rename f (X.insert a) = (rename f X).insert (f a) := by
  refine ExtTreeSet.ext_mem fun b => ?_
  simp only [mem_rename_iff, ExtTreeSet.mem_insert, LawfulEqOrd.compare_eq_iff_eq]
  constructor
  · rintro ⟨c, rfl | hc, rfl⟩
    · exact Or.inl rfl
    · exact Or.inr ⟨c, hc, rfl⟩
  · rintro (rfl | ⟨c, hc, rfl⟩)
    · exact ⟨a, Or.inl rfl, rfl⟩
    · exact ⟨c, Or.inr hc, rfl⟩

theorem rename_insertMany (X : ExtTreeSet α) (l : List α) :
    rename f (X.insertMany l) = (rename f X).insertMany (l.map f) := by
  refine ExtTreeSet.ext_mem fun b => ?_
  simp only [mem_rename_iff, ExtTreeSet.mem_insertMany_list, List.contains_iff_mem, List.mem_map]
  constructor
  · rintro ⟨c, hc | hc, rfl⟩
    · exact Or.inl ⟨c, hc, rfl⟩
    · exact Or.inr ⟨c, hc, rfl⟩
  · rintro (⟨c, hc, rfl⟩ | ⟨c, hc, rfl⟩)
    · exact ⟨c, Or.inl hc, rfl⟩
    · exact ⟨c, Or.inr hc, rfl⟩

theorem rename_singleton (a : α) : rename f {a} = {f a} := by
  have hsingle : ∀ a : α, ({a} : ExtTreeSet α) = ExtTreeSet.ofList [a] :=
    fun _ => ExtTreeSet.ofList_singleton.symm
  rw [hsingle, rename_ofList, hsingle, List.map_singleton]

theorem getElem?_rekey_eq_none {m : ExtTreeMap α β} {b : α} (h : ∀ a ∈ m, f a ≠ b) :
    (rekey f g m)[b]? = none := by
  refine ExtTreeMap.getElem?_ofList_of_contains_eq_false ?_
  rw [List.map_map, ← Bool.not_eq_true, List.contains_iff_mem, List.mem_map]
  rintro ⟨⟨a, v⟩, he, rfl⟩
  refine h a ?_ rfl
  rw [ExtTreeMap.mem_iff_isSome_getElem?, ExtTreeMap.mem_toList_iff_getElem?_eq_some.mp he]
  rfl

theorem getElem?_rekey (hf : Function.Injective f) (m : ExtTreeMap α β) (a : α) :
    (rekey f g m)[f a]? = m[a]?.map g := by
  cases h : m[a]? with
  | some b =>
      have hmem : (a, b) ∈ m.toList := ExtTreeMap.mem_toList_iff_getElem?_eq_some.mpr h
      exact ExtTreeMap.getElem?_ofList_of_mem compare_self (distinct_renamed hf m)
        (List.mem_map_of_mem (f := fun e => (f e.1, g e.2)) hmem)
  | none =>
      refine getElem?_rekey_eq_none fun b hb heq => ?_
      rw [ExtTreeMap.mem_iff_isSome_getElem?, hf heq, h] at hb
      cases hb

/-- Two maps that hold the same under every new key, and nothing under other keys, are the
same. -/
theorem eq_rekey_of_getElem? (hf : Function.Injective f) {m m' : ExtTreeMap α β}
    (h : ∀ a, m'[f a]? = m[a]?.map g) (hout : ∀ b, (∀ a, f a ≠ b) → m'[b]? = none) :
    m' = rekey f g m := by
  refine ExtTreeMap.ext_getElem? fun b => ?_
  by_cases hb : ∃ a, f a = b
  · obtain ⟨a, rfl⟩ := hb
    rw [h, getElem?_rekey hf]
  · have hne : ∀ a, f a ≠ b := not_exists.mp hb
    rw [hout b hne, getElem?_rekey_eq_none fun a _ => hne a]

theorem rekey_insert (hf : Function.Injective f) (m : ExtTreeMap α β) (a : α) (b : β) :
    rekey f g (m.insert a b) = (rekey f g m).insert (f a) (g b) := by
  refine (eq_rekey_of_getElem? hf (fun c => ?_) fun c hc => ?_).symm
  · rw [ExtTreeMap.getElem?_insert, ExtTreeMap.getElem?_insert, getElem?_rekey hf]
    simp only [compare_renamed hf]
    split <;> rfl
  · rw [ExtTreeMap.getElem?_insert, if_neg fun heq => hc a (LawfulEqOrd.compare_eq_iff_eq.mp heq),
      getElem?_rekey_eq_none fun a' _ => hc a']

end Renaming

/-- The number that a state has after a shift by `k`. -/
def shiftState (k : Nat) (s : StateId) : StateId :=
  k + s

theorem shiftState_injective (k : Nat) : Function.Injective (shiftState k) :=
  fun _ _ h => Nat.add_left_cancel h

theorem shiftState_inj {k : Nat} {s t : StateId} : shiftState k s = shiftState k t ↔ s = t :=
  (shiftState_injective k).eq_iff

theorem exists_shiftState_or_lt (k : Nat) (s : StateId) : (∃ t, shiftState k t = s) ∨ s < k := by
  by_cases h : k ≤ s
  · exact Or.inl ⟨s - k, Nat.add_sub_cancel' h⟩
  · exact Or.inr (Nat.lt_of_not_le h)

/-- A shift keeps the order of states. -/
theorem pairwise_shiftState {k : Nat} {l : List StateId} (h : l.Pairwise (· < ·)) :
    (l.map (shiftState k)).Pairwise (· < ·) :=
  List.pairwise_map.mpr (h.imp fun hlt => Nat.add_lt_add_left hlt k)

/-- Shifted sets are listed in the same order. -/
theorem toList_rename_shiftState (k : Nat) (X : StateSet) :
    (rename (shiftState k) X).toList = X.toList.map (shiftState k) := by
  refine List.Pairwise.eq_of_mem_iff (StateSet.pairwise_toList _)
    (pairwise_shiftState X.pairwise_toList) fun s => ?_
  rw [ExtTreeSet.mem_toList, mem_rename_iff, List.mem_map]
  simp only [ExtTreeSet.mem_toList]

theorem contains_rename_shiftState (k : Nat) (X : StateSet) (s : StateId) :
    (rename (shiftState k) X).contains (shiftState k s) = X.contains s :=
  contains_rename (shiftState_injective k) X s

theorem isEmpty_rename_shiftState (k : Nat) (X : StateSet) :
    (rename (shiftState k) X).isEmpty = X.isEmpty := by
  rw [← ExtTreeSet.isEmpty_toList, toList_rename_shiftState, List.isEmpty_map,
    ExtTreeSet.isEmpty_toList]

/-- The transition between shifted states. -/
def Transition.shift (k : Nat) (t : Transition) : Transition :=
  { t with source := shiftState k t.source, target := shiftState k t.target }

def Edge.shift (k : Nat) (e : Edge) : Edge :=
  { e with target := shiftState k e.target }

namespace Graph

/-- The graph in which all states are numbered higher by `k`. -/
def shift (k : Nat) (g : Graph) : Graph :=
  { start := shiftState k g.start
    rows := rekey (shiftState k) (List.map (Transition.shift k)) g.rows }

variable {k : Nat} {g h : Graph} {s : StateId}

theorem transitionsFrom_shift (k : Nat) (g : Graph) (s : StateId) :
    (g.shift k).transitionsFrom (shiftState k s) =
      (g.transitionsFrom s).map (Transition.shift k) := by
  rw [transitionsFrom, shift, getElem?_rekey (shiftState_injective k), transitionsFrom]
  cases g.rows[s]? <;> rfl

theorem row_shift (k : Nat) (g : Graph) (s : StateId) :
    (g.shift k).row (shiftState k s) = (g.row s).map (Edge.shift k) := by
  rw [row, transitionsFrom_shift, List.map_map, row, List.map_map]
  rfl

theorem owns_shift (k : Nat) (g : Graph) (s : StateId) :
    (g.shift k).owns (shiftState k s) = g.owns s := by
  rw [owns, shift, ExtTreeMap.contains_eq_isSome_getElem?,
    getElem?_rekey (shiftState_injective k), Option.isSome_map, owns,
    ExtTreeMap.contains_eq_isSome_getElem?]

theorem shiftState_ne_of_lt (hs : s < k) (t : StateId) : shiftState k t ≠ s := by
  rw [shiftState]
  lia

theorem owns_shift_of_lt (g : Graph) (hs : s < k) : (g.shift k).owns s = false := by
  rw [owns, shift, ExtTreeMap.contains_eq_isSome_getElem?,
    getElem?_rekey_eq_none fun t _ => shiftState_ne_of_lt hs t]
  rfl

/-- A graph with the view of a shifted graph is the shifted graph. -/
theorem eq_shift_of_view (hstart : h.start = shiftState k g.start)
    (howns : ∀ s, h.owns (shiftState k s) = g.owns s)
    (hfrom : ∀ s, h.transitionsFrom (shiftState k s) =
      (g.transitionsFrom s).map (Transition.shift k))
    (hout : ∀ s < k, h.owns s = false) : h = g.shift k := by
  refine ext_view hstart (fun s => ?_) fun s => ?_
  · obtain ⟨t, rfl⟩ | hs := exists_shiftState_or_lt k s
    · rw [howns, owns_shift]
    · rw [hout s hs, owns_shift_of_lt g hs]
  · obtain ⟨t, rfl⟩ | hs := exists_shiftState_or_lt k s
    · rw [hfrom, transitionsFrom_shift]
    · rw [transitionsFrom_eq_nil (hout s hs), transitionsFrom_eq_nil (owns_shift_of_lt g hs)]

theorem states_shift (k : Nat) (g : Graph) : (g.shift k).states = g.states.map (shiftState k) := by
  refine List.Pairwise.eq_of_mem_iff (pairwise_states _) (pairwise_shiftState g.pairwise_states)
    fun s => ?_
  rw [mem_states, List.mem_map]
  obtain ⟨t, rfl⟩ | hs := exists_shiftState_or_lt k s
  · rw [owns_shift]
    exact ⟨fun h => ⟨t, (mem_states g t).mpr h, rfl⟩,
      fun ⟨t', ht', heq⟩ => shiftState_injective k heq ▸ (mem_states g t').mp ht'⟩
  · rw [owns_shift_of_lt g hs]
    exact ⟨fun h => (by cases h), fun ⟨t, _, heq⟩ => absurd heq (shiftState_ne_of_lt hs t)⟩

theorem transitions_shift (k : Nat) (g : Graph) :
    (g.shift k).transitions = g.transitions.map (Transition.shift k) := by
  rw [transitions, states_shift, List.flatMap_map, transitions, List.map_flatMap]
  simp only [transitionsFrom_shift]

theorem single_shift (k : Nat) (s : StateId) :
    (single s).shift k = single (shiftState k s) := by
  refine (eq_shift_of_view rfl (fun t => ?_) (fun t => ?_) fun t ht => ?_).symm
  · rw [owns_single, owns_single, Bool.eq_iff_iff, beq_iff_eq, beq_iff_eq, shiftState_inj]
  · rw [transitionsFrom_single, transitionsFrom_single, List.map_nil]
  · rw [owns_single, beq_eq_false_iff_ne]
    exact (shiftState_ne_of_lt ht s).symm

theorem addState_shift (k : Nat) (g : Graph) (s : StateId) :
    (g.addState s).shift k = (g.shift k).addState (shiftState k s) := by
  refine (eq_shift_of_view rfl (fun t => ?_) (fun t => ?_) fun t ht => ?_).symm
  · rw [owns_addState, owns_addState, owns_shift, Bool.eq_iff_iff, Bool.or_eq_true,
      Bool.or_eq_true, beq_iff_eq, beq_iff_eq, shiftState_inj]
  · rw [transitionsFrom_addState, transitionsFrom_addState, transitionsFrom_shift]
  · rw [owns_addState, owns_shift_of_lt g ht, Bool.or_false, beq_eq_false_iff_ne]
    exact (shiftState_ne_of_lt ht s).symm

theorem merge_shift (k : Nat) (g h : Graph) :
    (g.merge h).shift k = (g.shift k).merge (h.shift k) := by
  refine (eq_shift_of_view rfl (fun t => ?_) (fun t => ?_) fun t ht => ?_).symm
  · rw [owns_merge, owns_merge, owns_shift, owns_shift]
  · rw [transitionsFrom_merge, transitionsFrom_merge, transitionsFrom_shift,
      transitionsFrom_shift, List.map_append]
  · rw [owns_merge, owns_shift_of_lt g ht, owns_shift_of_lt h ht]
    rfl

theorem addTransition_shift (k : Nat) {t : Transition} (hok : g.addTransition t = .ok h) :
    (g.shift k).addTransition (t.shift k) = .ok (h.shift k) := by
  obtain ⟨hstart, howns, hfrom⟩ := addTransition_eq_ok hok
  obtain ⟨h', hadd⟩ : ∃ h', (g.shift k).addTransition (t.shift k) = .ok h' := by
    rw [exists_addTransition_iff]
    simp only [Transition.shift, owns_shift]
    exact exists_addTransition_iff.mp ⟨h, hok⟩
  obtain ⟨hstart', howns', hfrom'⟩ := addTransition_eq_ok hadd
  rw [hadd]
  refine congrArg Except.ok (eq_shift_of_view (hstart'.trans ?_) (fun s => ?_) (fun s => ?_)
    fun s hs => ?_)
  · rw [hstart]
    rfl
  · rw [howns', owns_shift, howns]
  · rw [hfrom', hfrom, transitionsFrom_shift]
    simp only [Transition.shift, shiftState_inj]
    split_ifs
    · rw [List.map_append]
      rfl
    · rfl
  · rw [howns', owns_shift_of_lt g hs]

theorem targets_shift (k : Nat) (g : Graph) (passable : Label → Bool) (s : StateId) :
    (g.shift k).targets passable (shiftState k s) = (g.targets passable s).map (shiftState k) := by
  rw [targets, row_shift, List.filter_map, targets, List.map_map, List.map_map]
  rfl

section Spread

variable {next next' : StateId → List StateId}
variable (hnext : ∀ s, next' (shiftState k s) = (next s).map (shiftState k))
include hnext

theorem fresh_shift (generation : List StateId) (met : StateSet) :
    fresh next' (generation.map (shiftState k)) (rename (shiftState k) met) =
      rename (shiftState k) (fresh next generation met) := by
  have hnew : ∀ l : List StateId,
      (l.map (shiftState k)).filter (fun s => !(rename (shiftState k) met).contains s) =
        (l.filter fun s => !met.contains s).map (shiftState k) :=
    filter_map_of_eq fun s => by rw [contains_rename_shiftState]
  rw [fresh, fresh, rename_ofList, List.flatMap_map]
  simp only [hnext]
  rw [← List.map_flatMap, hnew]

/-- Following shifted edges goes through the shifted generations. -/
theorem spread_shift (rounds : Nat) (generation : List StateId) (met : StateSet) :
    spread next' rounds (generation.map (shiftState k)) (rename (shiftState k) met) =
      rename (shiftState k) (spread next rounds generation met) := by
  induction rounds generalizing generation met with
  | zero =>
      rfl
  | succ rounds ih =>
      rw [spread_succ, spread_succ, fresh_shift hnext, toList_rename_shiftState,
        isEmpty_rename_shiftState, ← rename_insertMany, ih]
      split_ifs <;> rfl

end Spread

theorem follow_shift (k : Nat) (g : Graph) (passable : Label → Bool) (seeds : List StateId) :
    (g.shift k).follow passable (seeds.map (shiftState k)) =
      rename (shiftState k) (g.follow passable seeds) := by
  rw [follow, states_shift, List.length_map, ← rename_ofList, toList_rename_shiftState]
  exact spread_shift (targets_shift k g passable) _ _ _

end Graph

namespace Nfa

/-- The automaton in which all states are numbered higher by `k`. -/
def shift (k : Nat) (nfa : Nfa) : Nfa :=
  { graph := nfa.graph.shift k, finish := shiftState k nfa.finish }

variable {k : Nat} {nfa nfa' first second outer part left right body : Nfa} {next : StateId}

theorem row_shift (k : Nat) (nfa : Nfa) (s : StateId) :
    (nfa.shift k).graph.row (shiftState k s) = (nfa.graph.row s).map (Edge.shift k) :=
  Graph.row_shift k nfa.graph s

theorem length_states_shift (k : Nat) (nfa : Nfa) :
    (nfa.shift k).graph.states.length = nfa.graph.states.length := by
  rw [shift, Graph.states_shift, List.length_map]

theorem transitions_shift (k : Nat) (nfa : Nfa) :
    (nfa.shift k).graph.transitions = nfa.graph.transitions.map (Transition.shift k) :=
  Graph.transitions_shift k nfa.graph

theorem frame_shift (k : Nat) (next : StateId) : (frame next).shift k = frame (k + next) := by
  rw [shift, frame, bracket, Graph.addState_shift, Graph.single_shift]
  rfl

theorem absorb_shift (k : Nat) (nfa part : Nfa) :
    (nfa.absorb part).shift k = (nfa.shift k).absorb (part.shift k) := by
  rw [shift, absorb, Graph.merge_shift]
  rfl

theorem connect_shift (k : Nat) {s t : StateId} {l : Label} (hok : nfa.connect s l t = .ok nfa') :
    (nfa.shift k).connect (shiftState k s) l (shiftState k t) = .ok (nfa'.shift k) := by
  obtain ⟨g, hg, hok⟩ := exists_of_bind_eq_ok hok
  obtain rfl := Except.ok.inj hok
  have hg' : (nfa.shift k).graph.addTransition
      { source := shiftState k s, label := l, target := shiftState k t } = .ok (g.shift k) :=
    Graph.addTransition_shift k hg
  rw [connect, hg']
  rfl

theorem atom_shift (k : Nat) {label : Label} (hok : atom label next = .ok nfa) :
    atom label (k + next) = .ok (nfa.shift k) := by
  rw [atom, ← frame_shift]
  exact connect_shift k hok

theorem chain_shift (k : Nat) (hok : first.chain second = .ok nfa) :
    (first.shift k).chain (second.shift k) = .ok (nfa.shift k) := by
  rw [chain, ← absorb_shift]
  exact connect_shift k hok

theorem detour_shift (k : Nat) (hok : outer.detour part = .ok nfa) :
    (outer.shift k).detour (part.shift k) = .ok (nfa.shift k) := by
  obtain ⟨entered, hin, hout⟩ := exists_of_bind_eq_ok hok
  have hin' : ((outer.absorb part).shift k).connect (outer.shift k).start .epsilon
      (part.shift k).start = .ok (entered.shift k) := connect_shift k hin
  rw [detour, ← absorb_shift, hin']
  exact connect_shift k hout

theorem branch_shift (k : Nat) (hok : left.branch right next = .ok nfa) :
    (left.shift k).branch (right.shift k) (k + next) = .ok (nfa.shift k) := by
  obtain ⟨half, hleft, hright⟩ := exists_of_bind_eq_ok hok
  rw [branch, ← frame_shift, embrace, detour_shift k hleft]
  exact detour_shift k hright

theorem wrap_eq_bind (body : Nfa) (next : StateId) (skip again : Bool) :
    body.wrap next skip again =
      ((frame next).detour body >>= fun once =>
        (if skip then once.connect next .epsilon (next + 1) else pure once) >>= fun skipped =>
          if again then skipped.connect body.finish .epsilon body.start else pure skipped) := by
  cases skip <;> rfl

/-- An edge that is added under a condition only. -/
theorem connect_if_shift (k : Nat) {wanted : Bool} {s t : StateId} {l : Label}
    (hok : (if wanted then nfa.connect s l t else pure nfa) = .ok nfa') :
    (if wanted then (nfa.shift k).connect (shiftState k s) l (shiftState k t)
      else pure (nfa.shift k)) = .ok (nfa'.shift k) := by
  cases wanted with
  | true =>
      exact connect_shift k hok
  | false =>
      exact congrArg (fun nfa => Except.ok (nfa.shift k)) (Except.ok.inj hok)

theorem wrap_shift (k : Nat) {skip again : Bool} (hok : body.wrap next skip again = .ok nfa) :
    (body.shift k).wrap (k + next) skip again = .ok (nfa.shift k) := by
  rw [wrap_eq_bind] at hok ⊢
  obtain ⟨once, honce, hok⟩ := exists_of_bind_eq_ok hok
  obtain ⟨skipped, hskip, hok⟩ := exists_of_bind_eq_ok hok
  rw [← frame_shift, bind_eq_of_eq_ok (detour_shift k honce)]
  exact (bind_eq_of_eq_ok (connect_if_shift k hskip)).trans (connect_if_shift k hok)

theorem epsilonReachable_shift (k : Nat) (nfa : Nfa) (states : List StateId) :
    (nfa.shift k).epsilonReachable (states.map (shiftState k)) =
      rename (shiftState k) (nfa.epsilonReachable states) :=
  Graph.follow_shift k nfa.graph _ states

end Nfa

/-- Every step of the construction shifts its automaton if its numbers are higher. -/
theorem Nfa.kept_shift (k : Nat) : Nfa.Kept k id fun nfa nfa' => nfa' = nfa.shift k where
  epsilon hok := ⟨_, atom_shift k hok, rfl⟩
  character hok := ⟨_, atom_shift k hok, rfl⟩
  chain _ _ hfirst hsecond hok := ⟨_, by rw [hfirst, hsecond]; exact chain_shift k hok, rfl⟩
  branch _ _ hleft hright hok := ⟨_, by rw [hleft, hright]; exact branch_shift k hok, rfl⟩
  wrap _ hbody hok := ⟨_, by rw [hbody]; exact wrap_shift k hok, rfl⟩

/-- The construction from a number higher by `k` on makes the automaton shifted by `k`. -/
theorem Pattern.Built.shift {p : Pattern} {lo hi : StateId} {nfa : Nfa} (h : p.Built lo hi nfa)
    (k : Nat) : p.Built (k + lo) (k + hi) (nfa.shift k) := by
  obtain ⟨nfa', h', rfl⟩ := (Nfa.kept_shift k).exists_built h
  rwa [relabel_id] at h'

end Backtracking
