import Backtracking.Proofs.Printing
import Backtracking.Proofs.Shape
import Mathlib.Algebra.BigOperators.Group.Finset.Basic

/-!
# The size of an automaton

The automaton of a pattern text is no larger than a fixed multiple of the text.

**Counting.**  The states of a tree are counted by `Pattern.stateCount`.  Its edges are counted
here in the same way: a combinator keeps the rows of its parts and adds a fixed number of silent
edges, so the edges of the parts add up (`Pattern.Built.length_transitions`).

**Charging.**  Some nodes of a tree have no character of their own: an empty alternative, a
sequence, the joints between its items.  They are paid for by the characters around them.  An item
takes two states and four edges less than its characters pay for (`Pattern.Affords`), and so a
sequence pays for its joints and a bar for its frame.

**Results.**
* `Pattern.Built.length_transitions`: the number of edges of the automaton of a tree.
* `Compiler.size_le_of_compile`: the bounds on states and edges, by the length of the text.
-/

namespace Backtracking

/-- The edges of a graph are those of its rows. -/
theorem Graph.length_transitions (g : Graph) :
    g.transitions.length = (g.states.map fun s => (g.row s).length).sum := by
  simp [transitions, List.length_flatMap]

/-- Rows of states that are not owned add nothing. -/
theorem Graph.length_transitions_eq_sum {g : Graph} {A : Finset StateId}
    (h : ∀ s, g.owns s = true → s ∈ A) :
    g.transitions.length = ∑ s ∈ A, (g.row s).length := by
  have hsub : g.states.toFinset ⊆ A := by
    intro s hs
    exact h s ((mem_states _ _).mp (List.mem_toFinset.mp hs))
  have hnodup : g.states.Nodup := Std.ExtTreeMap.nodup_keys
  rw [length_transitions, ← List.sum_toFinset _ hnodup]
  refine Finset.sum_subset hsub fun s _ hs => ?_
  rw [row_eq_nil (Bool.eq_false_iff.mpr fun howned => hs ?_)]
  · rfl
  · exact List.mem_toFinset.mpr ((mem_states _ _).mpr howned)

namespace Nfa

variable {lo mid hi next bound : StateId}
variable {nfa first second left right body : Nfa}

/-- The rows of all states below a bound, where the automaton has no state beyond. -/
theorem Shaped.length_transitions (hn : nfa.Shaped lo hi) (hle : hi ≤ bound) :
    nfa.graph.transitions.length = ∑ s ∈ Finset.range bound, (nfa.graph.row s).length := by
  refine Graph.length_transitions_eq_sum fun s howned => ?_
  have hlt := ((hn.owns_iff s).mp howned).2
  exact Finset.mem_range.mpr (hlt.trans_le hle)

/-- One silent edge is in one row. -/
theorem sum_length_silentRow (source target : StateId) (h : source < bound) :
    ∑ s ∈ Finset.range bound, (silentRow source target s).length = 1 := by
  simp [length_silentRow, h]

theorem length_transitions_atom {label : Label} (hok : atom label next = .ok nfa) :
    nfa.graph.transitions.length = 1 := by
  have hn : nfa.Shaped next (next + 2) := .atom hok
  obtain ⟨nfa', hok', -, -, -, hrow⟩ := exists_atom label next
  obtain rfl := Except.ok.inj (hok.symm.trans hok')
  rw [hn.length_transitions le_rfl, Finset.sum_eq_single next]
  · rw [hrow, if_pos rfl]
    rfl
  · intro s _ hne
    rw [hrow, if_neg hne.symm]
    rfl
  · simp

theorem Shaped.length_transitions_chain (hf : first.Shaped lo mid) (hs : second.Shaped mid hi)
    (hok : first.chain second = .ok nfa) :
    nfa.graph.transitions.length =
      first.graph.transitions.length + second.graph.transitions.length + 1 := by
  have hn := hf.chain hs hok
  have hfinish := (hf.owns_iff _).mp hf.finish_owned
  have hstart := (hs.owns_iff _).mp hs.start_owned
  obtain ⟨nfa', hok', -, -, -, hrow⟩ := exists_chain hf.finish_owned hs.start_owned
  obtain rfl := Except.ok.inj (hok.symm.trans hok')
  have hjoint := sum_length_silentRow first.finish second.start (show _ < hi by lia)
  rw [hn.length_transitions le_rfl, hf.length_transitions (show mid ≤ hi by lia),
    hs.length_transitions le_rfl, ← hjoint]
  simp only [hrow, chainRow, List.length_append, Finset.sum_add_distrib]

theorem Shaped.length_transitions_branch (hl : left.Shaped lo mid) (hr : right.Shaped mid hi)
    (hok : left.branch right hi = .ok nfa) :
    nfa.graph.transitions.length =
      left.graph.transitions.length + right.graph.transitions.length + 4 := by
  have hn := hl.branch hr hok
  have hlf := (hl.owns_iff _).mp hl.finish_owned
  have hrf := (hr.owns_iff _).mp hr.finish_owned
  obtain ⟨nfa', hok', -, -, -, hrow⟩ :=
    exists_branch hl.start_owned hl.finish_owned hr.start_owned hr.finish_owned hi
  obtain rfl := Except.ok.inj (hok.symm.trans hok')
  rw [hn.length_transitions le_rfl, hl.length_transitions (show mid ≤ hi + 2 by lia),
    hr.length_transitions (show hi ≤ hi + 2 by lia)]
  simp only [hrow, branchRow, List.length_append, Finset.sum_add_distrib]
  rw [sum_length_silentRow hi left.start (by lia), sum_length_silentRow left.finish _ (by lia),
    sum_length_silentRow hi right.start (by lia), sum_length_silentRow right.finish _ (by lia)]
  lia

theorem Shaped.length_transitions_wrap {skip again : Bool} (hb : body.Shaped lo hi)
    (hok : body.wrap hi skip again = .ok nfa) :
    nfa.graph.transitions.length =
      body.graph.transitions.length + 2 + skip.toNat + again.toNat := by
  have hn := hb.wrap hok
  have hf := (hb.owns_iff _).mp hb.finish_owned
  obtain ⟨nfa', hok', -, -, -, hrow⟩ :=
    exists_wrap hb.start_owned hb.finish_owned hi skip again
  obtain rfl := Except.ok.inj (hok.symm.trans hok')
  rw [hn.length_transitions le_rfl, hb.length_transitions (show hi ≤ hi + 2 by lia)]
  simp only [hrow, wrapRow, List.length_append, Finset.sum_add_distrib]
  rw [sum_length_silentRow hi body.start (by lia), sum_length_silentRow body.finish _ (by lia)]
  cases skip <;> cases again <;>
    simp [sum_length_silentRow hi, sum_length_silentRow body.finish,
      show body.finish < hi + 2 by lia]

end Nfa

namespace Pattern

open Nfa

/-- How many edges the construction makes for a pattern. -/
def edgeCount : Pattern → Nat
  | empty | literal _ | oneOf [] | sequence [] => 1
  | oneOf (_ :: members) => 1 + 5 * members.length
  | sequence (item :: items) => item.edgeCount + edgeCountBehind items
  | either left right => left.edgeCount + right.edgeCount + 4
  | star body => body.edgeCount + 4
  | plus body | optional body => body.edgeCount + 3
  | group body => body.edgeCount
where
  /-- The edges of the items behind the first one, each with the joint in front of it. -/
  edgeCountBehind : List Pattern → Nat
    | [] => 0
    | item :: items => item.edgeCount + 1 + edgeCountBehind items

variable {p q body : Pattern} {skip again : Bool}

theorem edgeCountBehind_append (items : List Pattern) (p : Pattern) :
    edgeCount.edgeCountBehind (items ++ [p]) =
      edgeCount.edgeCountBehind items + (p.edgeCount + 1) := by
  induction items with
  | nil =>
      exact Nat.add_comm _ _
  | cons item items ih =>
      rw [List.cons_append, edgeCount.edgeCountBehind, ih, edgeCount.edgeCountBehind]
      exact (Nat.add_assoc _ _ _).symm

theorem edgeCount_sequence_append {items : List Pattern} (hne : items ≠ []) (p : Pattern) :
    (sequence (items ++ [p])).edgeCount = (sequence items).edgeCount + p.edgeCount + 1 := by
  obtain ⟨item, items, rfl⟩ := List.exists_cons_of_ne_nil hne
  simp [edgeCount, edgeCountBehind_append, Nat.add_assoc]

theorem BuiltAs.edgeCount_eq (h : p.BuiltAs q) : p.edgeCount = q.edgeCount := by
  cases h with
  | noMember | member _ | noItem | item _ | group _ =>
      rfl
  | members hne c =>
      obtain ⟨member, members, rfl⟩ := List.exists_cons_of_ne_nil hne
      simp [edgeCount]
      lia

theorem Frames.edgeCount_eq (h : p.Frames body skip again) :
    p.edgeCount = body.edgeCount + 2 + skip.toNat + again.toNat := by
  cases h <;> rfl

/-- The edges of the parts add up, with those of the combinator. -/
theorem Built.length_transitions {lo hi : StateId} {nfa : Nfa} (h : p.Built lo hi nfa) :
    nfa.graph.transitions.length = p.edgeCount := by
  induction h with
  | empty hok | literal hok =>
      exact length_transitions_atom hok
  | same hsame _ ih =>
      rw [ih, hsame.edgeCount_eq]
  | items hne hitems hp hok ihitems ihp =>
      rw [hitems.shaped.length_transitions_chain hp.shaped hok, ihitems, ihp,
        edgeCount_sequence_append hne]
  | either hp hq hok ihp ihq =>
      rw [hp.shaped.length_transitions_branch hq.shaped hok, ihp, ihq, edgeCount]
  | frame hframe hbody hok ih =>
      rw [hbody.shaped.length_transitions_wrap hok, ih, hframe.edgeCount_eq]

/-- The automaton is no larger than the text of the tree allows. -/
structure Bounded (p : Pattern) : Prop where
  states : p.stateCount ≤ 4 * p.text.length + 2
  edges : p.edgeCount ≤ 5 * p.text.length + 1

/-- The characters of the tree pay for more states and edges than the automaton has. -/
structure Covered (p : Pattern) : Prop where
  states : p.stateCount + 2 ≤ 4 * p.text.length
  edges : p.edgeCount + 4 ≤ 5 * p.text.length

theorem Covered.bounded {p : Pattern} (h : p.Covered) : p.Bounded where
  states := by have := h.states; lia
  edges := by have := h.edges; lia

/-- A repetition adds a character, which pays for its frame. -/
theorem Covered.repetition {body p : Pattern} {c : Char} (h : body.Covered)
    (htext : p.text = body.text ++ [c]) (hstates : p.stateCount = body.stateCount + 2)
    (hedges : p.edgeCount ≤ body.edgeCount + 4) : p.Covered := by
  obtain ⟨hs, he⟩ := h
  constructor
  · rw [hstates, htext, List.length_append, List.length_singleton]
    lia
  · rw [htext, List.length_append, List.length_singleton]
    lia

/-- The parentheses pay for more than an empty body has. -/
theorem Bounded.group {body : Pattern} (h : body.Bounded) : (group body).Covered := by
  obtain ⟨hs, he⟩ := h
  constructor <;> simp only [stateCount, edgeCount, text, List.length_cons, List.length_append,
    List.length_nil] <;> lia

theorem covered_oneOf {members : List Char} (hne : members ≠ []) : (oneOf members).Covered := by
  cases members with
  | nil =>
      exact absurd rfl hne
  | cons member members =>
      constructor <;> simp [stateCount, edgeCount, text] <;> lia

/-- The bar pays for the frame around two alternatives. -/
theorem Bounded.either {left right : Pattern} (hl : left.Bounded) (hr : right.Bounded) :
    (either left right).Bounded := by
  obtain ⟨hls, hle⟩ := hl
  obtain ⟨hrs, hre⟩ := hr
  constructor <;> simp only [stateCount, edgeCount, text, List.length_cons, List.length_append] <;>
    lia

/-- Behind the first item every item pays for the joint in front of it. -/
theorem covered_items {items : List Pattern} (h : ∀ p ∈ items, p.Covered) :
    stateCount.stateCountAll items ≤ 4 * (items.flatMap text).length ∧
      edgeCount.edgeCountBehind items ≤ 5 * (items.flatMap text).length := by
  induction items with
  | nil =>
      exact ⟨le_rfl, le_rfl⟩
  | cons item items ih =>
      obtain ⟨⟨hs, he⟩, hitems⟩ := List.forall_mem_cons.mp h
      obtain ⟨hss, hes⟩ := ih hitems
      rw [stateCount.stateCountAll, edgeCount.edgeCountBehind, List.flatMap_cons,
        List.length_append]
      lia

theorem bounded_sequence {items : List Pattern} (hne : items ≠ [])
    (h : ∀ p ∈ items, p.Covered) : (sequence items).Bounded := by
  cases items with
  | nil =>
      exact absurd rfl hne
  | cons item items =>
      obtain ⟨⟨hs, he⟩, hitems⟩ := List.forall_mem_cons.mp h
      obtain ⟨hss, hes⟩ := covered_items hitems
      constructor
      · simp only [stateCount, stateCount.stateCountAll, List.isEmpty_cons, text, textAll_eq,
          List.flatMap_cons, List.length_append, Bool.false_eq_true, if_false]
        lia
      · simp only [edgeCount, text, textAll_eq, List.flatMap_cons, List.length_append]
        lia

mutual

/-- The automaton of an expression is bounded by its text. -/
theorem IsExpression.bounded {p : Pattern} : p.IsExpression → p.Bounded
  | .sequence h => h.bounded
  | .either hl hr => hl.bounded.either hr.bounded

theorem IsSequence.bounded {p : Pattern} : p.IsSequence → p.Bounded
  | .empty => ⟨by decide, by decide⟩
  | .item h => h.covered.bounded
  | .items hlen h =>
      bounded_sequence (List.ne_nil_of_length_pos (by lia)) fun p hp => (h p hp).covered

theorem IsItem.covered {p : Pattern} : p.IsItem → p.Covered
  | .atom h => h.covered
  | .star h => h.covered.repetition rfl rfl le_rfl
  | .plus h => h.covered.repetition rfl rfl (Nat.le_succ _)
  | .optional h => h.covered.repetition rfl rfl (Nat.le_succ _)

theorem IsAtom.covered {p : Pattern} : p.IsAtom → p.Covered
  | .literal _ => ⟨le_rfl, le_rfl⟩
  | .oneOf hne _ => covered_oneOf hne
  | .group h => h.bounded.group

end

end Pattern

namespace Compiler

/-- The automaton of a pattern text of `n` characters has at most `4 * n + 2` states and at most
`5 * n + 1` edges. -/
theorem size_le_of_compile {c c' : Compiler} {text : List Char} {nfa : Nfa}
    (hok : c.compile text = .ok (nfa, c')) :
    nfa.graph.states.length ≤ 4 * text.length + 2 ∧
      nfa.graph.transitions.length ≤ 5 * text.length + 1 := by
  obtain ⟨p, hparse, htree⟩ := exists_parse_of_compile hok
  obtain ⟨hp, rfl⟩ := Pattern.parse_eq_ok_iff.mp hparse
  have hbuilt := built_of_compileTree htree
  have hstates := hbuilt.eq_add_stateCount
  rw [(shaped_of_compileTree htree).states_eq, List.length_range', hstates,
    Nat.add_sub_cancel_left, hbuilt.length_transitions]
  exact ⟨hp.bounded.states, hp.bounded.edges⟩

/-- Bars alone take all that is allowed. -/
theorem size_le_of_bars :
    ∃ nfa c', compile {} ['|', '|', '|'] = .ok (nfa, c') ∧
      nfa.graph.states.length ≤ 14 ∧ nfa.graph.transitions.length ≤ 16 := by
  have hcompiles : (compile {} ['|', '|', '|']).toOption.isSome = true := by
    decide +kernel
  obtain ⟨⟨nfa, c'⟩, hsome⟩ := Option.isSome_iff_exists.mp hcompiles
  have hok := eq_ok_of_toOption_eq_some hsome
  exact ⟨nfa, c', hok, size_le_of_compile hok⟩

/-- The bounds are reached. -/
example : (Nfa.ofText ['|', '|', '|']).toOption.map
    (fun nfa => (nfa.graph.states.length, nfa.graph.transitions.length)) = some (14, 16) := by
  decide +kernel

end Compiler

end Backtracking
