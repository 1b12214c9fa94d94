import Backtracking.Proofs.Language
import Backtracking.Proofs.Routes

/-!
# The shape of Thompson's automata

What can be said of every automaton of the construction by its numbers and its edges alone.

**Numbers.**  A pattern takes a number of states that its tree determines
(`Pattern.stateCount`), and they are numbered without a gap.

**Edges.**  `Nfa.Fragment.shaped` says how single edges lie.  Two properties of whole
automata are added here, each by one case for every combinator: every state is on a way
from the start to the finish (`Nfa.Trim`), and no more than two edges leave a state.

**Results.**
* `Nfa.Fragment.trim`, `Nfa.Fragment.forks`: these two properties.
* `Pattern.Built.eq_add_stateCount`: the numbers that a pattern takes.
* `Compiler.exists_compileTree_thompsonShaped`: all of it, for every tree and numbering.
-/

namespace Backtracking

open Relation

namespace Nfa

variable {lo mid hi next : StateId} {nfa part first second left right body : Nfa}
variable {s t : StateId}

theorem Arc.reaches {l : Label} (h : nfa.Arc s l t) : nfa.Reaches s t :=
  .single ⟨l, h⟩

theorem Reaches.of_arc_imp (harc : ∀ {s l t}, part.Arc s l t → nfa.Arc s l t)
    (h : part.Reaches s t) : nfa.Reaches s t :=
  ReflTransGen.mono (fun _ _ ⟨l, hl⟩ => ⟨l, harc hl⟩) _ _ h

/-- Every state is on a way from the start to the finish. -/
def Trim (nfa : Nfa) : Prop :=
  ∀ s, nfa.Owns s → nfa.Reaches nfa.start s ∧ nfa.Reaches s nfa.finish

/-- A part that can be come to and left keeps its states on such a way. -/
theorem Trim.reaches (hpart : part.Trim) (harc : ∀ {s l t}, part.Arc s l t → nfa.Arc s l t)
    (hin : nfa.Reaches nfa.start part.start) (hout : nfa.Reaches part.finish nfa.finish)
    (hs : part.Owns s) : nfa.Reaches nfa.start s ∧ nfa.Reaches s nfa.finish :=
  ⟨hin.trans ((hpart s hs).1.of_arc_imp harc), ((hpart s hs).2.of_arc_imp harc).trans hout⟩

theorem trim_atom {label : Label} (hok : atom label next = .ok nfa) : nfa.Trim := by
  obtain ⟨hstart, hfinish, howns, harc⟩ := atom_eq_ok hok
  have hedge : nfa.Reaches next (next + 1) := (harc.mpr ⟨rfl, rfl, rfl⟩).reaches
  intro s hs
  rw [hstart, hfinish]
  obtain rfl | rfl := (howns s).mp hs
  · exact ⟨.refl, hedge⟩
  · exact ⟨hedge, .refl⟩

theorem Trim.chain (hft : first.Trim) (hst : second.Trim)
    (hf : first.Shaped lo mid) (hs : second.Shaped mid hi)
    (hok : first.chain second = .ok nfa) : nfa.Trim := by
  obtain ⟨hstart, hfinish, howns, harc⟩ := hf.chain_eq_ok hs hok
  have hfirst : ∀ {s l t}, first.Arc s l t → nfa.Arc s l t := fun h => harc.mpr (Or.inl h)
  have hsecond : ∀ {s l t}, second.Arc s l t → nfa.Arc s l t :=
    fun h => harc.mpr (Or.inr (Or.inl h))
  have hjoin : nfa.Reaches first.finish second.start :=
    (harc.mpr (Or.inr (Or.inr ⟨rfl, rfl, rfl⟩))).reaches
  intro s howned
  rcases (howns s).mp howned with h | h
  · refine hft.reaches hfirst ?_ ?_ h
    · rw [hstart]
      exact .refl
    · rw [hfinish]
      exact hjoin.trans ((hst _ hs.start_owned).2.of_arc_imp hsecond)
  · refine hst.reaches hsecond ?_ ?_ h
    · rw [hstart]
      exact ((hft _ hf.finish_owned).1.of_arc_imp hfirst).trans hjoin
    · rw [hfinish]
      exact .refl

theorem Trim.branch (hlt : left.Trim) (hrt : right.Trim)
    (hl : left.Shaped lo mid) (hr : right.Shaped mid hi)
    (hok : left.branch right next = .ok nfa) : nfa.Trim := by
  obtain ⟨hstart, hfinish, howns, harc⟩ := hl.branch_eq_ok hr hok
  have hleft : ∀ {s l t}, left.Arc s l t → nfa.Arc s l t := fun h => harc.mpr (Or.inl h)
  have hright : ∀ {s l t}, right.Arc s l t → nfa.Arc s l t :=
    fun h => harc.mpr (Or.inr (Or.inl h))
  have hsilent : ∀ {s t}, (s = next ∧ (t = left.start ∨ t = right.start) ∨
      (s = left.finish ∨ s = right.finish) ∧ t = next + 1) → nfa.Reaches s t :=
    fun h => (harc.mpr (Or.inr (Or.inr ⟨rfl, h⟩))).reaches
  have hinl := hsilent (Or.inl ⟨rfl, Or.inl rfl⟩)
  have hinr := hsilent (Or.inl ⟨rfl, Or.inr rfl⟩)
  have houtl := hsilent (Or.inr ⟨Or.inl rfl, rfl⟩)
  have houtr := hsilent (Or.inr ⟨Or.inr rfl, rfl⟩)
  have hthrough : nfa.Reaches next (next + 1) :=
    hinl.trans (((hlt _ hl.start_owned).2.of_arc_imp hleft).trans houtl)
  intro s howned
  rcases (howns s).mp howned with h | h | rfl | rfl
  · exact hlt.reaches hleft (hstart ▸ hinl) (hfinish ▸ houtl) h
  · exact hrt.reaches hright (hstart ▸ hinr) (hfinish ▸ houtr) h
  · rw [hstart, hfinish]
    exact ⟨.refl, hthrough⟩
  · rw [hstart, hfinish]
    exact ⟨hthrough, .refl⟩

theorem Trim.wrap {skip again : Bool} (hbt : body.Trim) (hb : body.Shaped lo hi)
    (hok : body.wrap next skip again = .ok nfa) : nfa.Trim := by
  obtain ⟨hstart, hfinish, howns, harc⟩ := hb.wrap_eq_ok hok
  have hbody : ∀ {s l t}, body.Arc s l t → nfa.Arc s l t := fun h => harc.mpr (Or.inl h)
  have hin : nfa.Reaches next body.start :=
    (harc.mpr (Or.inr ⟨rfl, Or.inl ⟨rfl, Or.inl rfl⟩⟩)).reaches
  have hout : nfa.Reaches body.finish (next + 1) :=
    (harc.mpr (Or.inr ⟨rfl, Or.inr ⟨rfl, Or.inl rfl⟩⟩)).reaches
  have hthrough : nfa.Reaches next (next + 1) :=
    hin.trans (((hbt _ hb.start_owned).2.of_arc_imp hbody).trans hout)
  intro s howned
  rcases (howns s).mp howned with h | rfl | rfl
  · exact hbt.reaches hbody (hstart ▸ hin) (hfinish ▸ hout) h
  · rw [hstart, hfinish]
    exact ⟨.refl, hthrough⟩
  · rw [hstart, hfinish]
    exact ⟨hthrough, .refl⟩

/-- Every state of an automaton of the construction is on a way from its start to its
finish. -/
theorem Fragment.trim (h : Fragment lo hi nfa) : nfa.Trim := by
  induction h with
  | atom hok =>
      exact trim_atom hok
  | chain hf hs hok ihf ihs =>
      exact ihf.chain ihs hf.shaped hs.shaped hok
  | branch hl hr hok ihl ihr =>
      exact ihl.branch ihr hl.shaped hr.shaped hok
  | wrap hb hok ihb =>
      exact ihb.wrap hb.shaped hok

/-- No more than two edges leave a state. -/
def Forks (nfa : Nfa) : Prop :=
  ∀ s, (nfa.graph.row s).length ≤ 2

theorem length_silentRow (source target s : StateId) :
    (silentRow source target s).length = if source = s then 1 else 0 := by
  rw [silentRow]
  split_ifs <;> rfl

theorem forks_atom {label : Label} (hok : atom label next = .ok nfa) : nfa.Forks := by
  obtain ⟨nfa', hok', -, -, -, hrow⟩ := exists_atom label next
  obtain rfl := Except.ok.inj (hok.symm.trans hok')
  intro s
  rw [hrow]
  split_ifs <;> simp

theorem Forks.chain (hff : first.Forks) (hsf : second.Forks)
    (hf : first.Shaped lo mid) (hs : second.Shaped mid hi)
    (hok : first.chain second = .ok nfa) : nfa.Forks := by
  obtain ⟨nfa', hok', -, -, -, hrow⟩ := exists_chain hf.finish_owned hs.start_owned
  obtain rfl := Except.ok.inj (hok.symm.trans hok')
  intro s
  simp only [hrow, chainRow, List.length_append, length_silentRow]
  by_cases hend : first.finish = s
  · subst hend
    simp [hf.row_finish, hs.row_eq_nil (hf.apart hs hf.finish_owned)]
  · by_cases h : first.Owns s
    · simpa [hend, hs.row_eq_nil (hf.apart hs h)] using hff s
    · simpa [hend, hf.row_eq_nil h] using hsf s

theorem Forks.branch (hlf : left.Forks) (hrf : right.Forks)
    (hl : left.Shaped lo mid) (hr : right.Shaped mid hi)
    (hok : left.branch right hi = .ok nfa) : nfa.Forks := by
  obtain ⟨nfa', hok', -, -, -, hrow⟩ :=
    exists_branch hl.start_owned hl.finish_owned hr.start_owned hr.finish_owned hi
  obtain rfl := Except.ok.inj (hok.symm.trans hok')
  obtain ⟨hnl, -⟩ := hl.not_owns_frame_pair hr left (by simp)
  obtain ⟨hnr, -⟩ := hl.not_owns_frame_pair hr right (by simp)
  have hfl : left.finish ≠ hi := fun h => hnl (h ▸ hl.finish_owned)
  have hfr : right.finish ≠ hi := fun h => hnr (h ▸ hr.finish_owned)
  intro s
  simp only [hrow, branchRow, List.length_append, length_silentRow]
  by_cases hstart : hi = s
  · subst hstart
    simp [hl.row_eq_nil hnl, hr.row_eq_nil hnr, hfl, hfr]
  · by_cases h : left.Owns s
    · have hne : right.finish ≠ s := fun he => hl.apart hr h (he ▸ hr.finish_owned)
      by_cases hend : left.finish = s
      · subst hend
        simp [hl.row_finish, hr.row_eq_nil (hl.apart hr h), hstart, hne]
      · simpa [hr.row_eq_nil (hl.apart hr h), hstart, hend, hne] using hlf s
    · have hne : left.finish ≠ s := fun he => h (he ▸ hl.finish_owned)
      by_cases hend : right.finish = s
      · subst hend
        simp [hr.row_finish, hl.row_eq_nil h, hstart, hne]
      · simpa [hl.row_eq_nil h, hstart, hend, hne] using hrf s

theorem Forks.wrap {skip again : Bool} (hbf : body.Forks) (hb : body.Shaped lo hi)
    (hok : body.wrap hi skip again = .ok nfa) : nfa.Forks := by
  obtain ⟨nfa', hok', -, -, -, hrow⟩ :=
    exists_wrap hb.start_owned hb.finish_owned hi skip again
  obtain rfl := Except.ok.inj (hok.symm.trans hok')
  obtain ⟨hn, -⟩ := hb.not_owns_frame
  have hf : body.finish ≠ hi := fun h => hn (h ▸ hb.finish_owned)
  have hif : ∀ (wanted : Bool) (l : List Edge),
      (if wanted then l else []).length = if wanted then l.length else 0 := by
    intro wanted l
    cases wanted <;> rfl
  intro s
  simp only [hrow, wrapRow, List.length_append, hif, length_silentRow]
  by_cases hstart : hi = s
  · subst hstart
    cases skip <;> simp [hb.row_eq_nil hn, hf]
  · by_cases hend : body.finish = s
    · subst hend
      cases again <;> simp [hb.row_finish, hstart]
    · simpa [hstart, hend] using hbf s

/-- No more than two edges leave a state of an automaton of the construction. -/
theorem Fragment.forks (h : Fragment lo hi nfa) : nfa.Forks := by
  induction h with
  | atom hok =>
      exact forks_atom hok
  | chain hf hs hok ihf ihs =>
      exact ihf.chain ihs hf.shaped hs.shaped hok
  | branch hl hr hok ihl ihr =>
      exact ihl.branch ihr hl.shaped hr.shaped hok
  | wrap hb hok ihb =>
      exact ihb.wrap hb.shaped hok

/-- The states of an automaton are numbered without a gap. -/
theorem Shaped.states_eq (hn : nfa.Shaped lo hi) :
    nfa.graph.states = List.range' lo (hi - lo) := by
  refine List.Pairwise.eq_of_mem_iff (r := (· < ·)) ?_ (List.pairwise_lt_range' 1) fun s => ?_
  · exact nfa.graph.pairwise_states
  · rw [Graph.mem_states, List.mem_range'_1]
    have h := hn.owns_iff s
    rw [Owns] at h
    rw [h]
    lia

/-- No edge occurs twice. -/
theorem Shaped.nodup_transitions (hn : nfa.Shaped lo hi) : nfa.graph.transitions.Nodup := by
  refine List.nodup_flatMap.mpr ⟨fun s _ => ?_, ?_⟩
  · exact nodup_transitionsFrom (hn.nodup_targets s).of_map
  · refine Std.ExtTreeMap.nodup_keys.imp fun hne t ht ht' => hne ?_
    rw [← hn.filed _ _ ht, hn.filed _ _ ht']

end Nfa

namespace Pattern

open Nfa

/-- How many states the construction makes for a pattern. -/
def stateCount : Pattern → Nat
  | empty | literal _ => 2
  | oneOf members => if members.isEmpty then 2 else 4 * members.length - 2
  | sequence items => if items.isEmpty then 2 else stateCountAll items
  | either left right => left.stateCount + right.stateCount + 2
  | star body | plus body | optional body => body.stateCount + 2
  | group body => body.stateCount
where
  stateCountAll : List Pattern → Nat
    | [] => 0
    | item :: items => item.stateCount + stateCountAll items

variable {p q body : Pattern} {skip again : Bool}

theorem stateCountAll_append (items : List Pattern) (p : Pattern) :
    stateCount.stateCountAll (items ++ [p]) = stateCount.stateCountAll items + p.stateCount := by
  induction items with
  | nil =>
      exact Nat.add_comm _ _
  | cons item items ih =>
      rw [List.cons_append, stateCount.stateCountAll, ih, stateCount.stateCountAll, Nat.add_assoc]

theorem BuiltAs.stateCount_eq (h : p.BuiltAs q) : p.stateCount = q.stateCount := by
  cases h with
  | noMember | member _ | noItem | item _ | group _ =>
      rfl
  | members hne c =>
      have hpos := List.length_pos_iff.mpr hne
      simp [stateCount, hne]
      lia

theorem Frames.stateCount_eq (h : p.Frames body skip again) :
    p.stateCount = body.stateCount + 2 := by
  cases h <;> rw [stateCount]

/-- A pattern takes as many numbers as it has states. -/
theorem Built.eq_add_stateCount {lo hi : StateId} {nfa : Nfa} (h : p.Built lo hi nfa) :
    hi = lo + p.stateCount := by
  induction h with
  | empty _ | literal _ =>
      rfl
  | same hsame _ ih =>
      rw [ih, hsame.stateCount_eq]
  | @items items p _ _ _ _ _ _ hne _ _ _ ihitems ihp =>
      rw [ihp, ihitems]
      simp [stateCount, stateCountAll_append, hne, Nat.add_assoc]
  | either _ _ _ ihp ihq =>
      rw [ihq, ihp, stateCount]
      lia
  | frame hframe _ _ ih =>
      rw [ih, hframe.stateCount_eq, Nat.add_assoc]

end Pattern

namespace Nfa

/-- The shape of an automaton of Thompson's construction: `count` states from `first` on, one
way in and one way out, and edges that lie as the construction puts them. -/
structure ThompsonShaped (first count : Nat) (nfa : Nfa) : Prop where
  states_eq : nfa.graph.states = List.range' first count
  start_mem : nfa.start ∈ nfa.graph.states
  finish_mem : nfa.finish ∈ nfa.graph.states
  start_ne_finish : nfa.start ≠ nfa.finish
  target_ne_start : ∀ t ∈ nfa.graph.transitions, t.target ≠ nfa.start
  source_ne_finish : ∀ t ∈ nfa.graph.transitions, t.source ≠ nfa.finish
  ends_mem : ∀ t ∈ nfa.graph.transitions,
    t.source ∈ nfa.graph.states ∧ t.target ∈ nfa.graph.states
  nodup_transitions : nfa.graph.transitions.Nodup
  /-- Every state lies on a walk from the start to the finish. -/
  exists_walks : ∀ s ∈ nfa.graph.states,
    (∃ ts, nfa.Walk nfa.start ts s) ∧ ∃ ts, nfa.Walk s ts nfa.finish
  length_transitionsFrom_le : ∀ s, (nfa.graph.transitionsFrom s).length ≤ 2
  /-- The edge of a character or an anchor is the only one out of its source. -/
  transitionsFrom_eq : ∀ t ∈ nfa.graph.transitions, t.label ≠ .epsilon →
    nfa.graph.transitionsFrom t.source = [t]
  /-- The edge of a character is the only one into its target. -/
  eq_of_target_eq : ∀ t ∈ nfa.graph.transitions, t.consumes = true →
    ∀ u ∈ nfa.graph.transitions, u.target = t.target → u = t

theorem Fragment.thompsonShaped {lo hi : StateId} {nfa : Nfa} (h : Fragment lo hi nfa) :
    nfa.ThompsonShaped lo (hi - lo) := by
  have hn := h.shaped
  have harc : ∀ t ∈ nfa.graph.transitions, nfa.Arc t.source t.label t.target :=
    fun t ht => (hn.filed.mem_transitions t).mp ht
  have howns : ∀ s, s ∈ nfa.graph.states ↔ nfa.Owns s := Graph.mem_states nfa.graph
  refine
    { states_eq := hn.states_eq
      start_mem := (howns _).mpr hn.start_owned
      finish_mem := (howns _).mpr hn.finish_owned
      start_ne_finish := hn.start_ne_finish
      target_ne_start := fun t ht heq => hn.no_arc_into_start (heq ▸ harc t ht)
      source_ne_finish := fun t ht heq => hn.no_arc_from_finish (heq ▸ harc t ht)
      ends_mem := fun t ht => (hn.inside (harc t ht)).imp (howns _).mpr (howns _).mpr
      nodup_transitions := hn.nodup_transitions
      exists_walks := fun s hs => ?_
      length_transitionsFrom_le := fun s => ?_
      transitionsFrom_eq := fun t ht hl => ?_
      eq_of_target_eq := fun t ht hl u hu heq => ?_ }
  · have hreach := h.trim s ((howns s).mp hs)
    exact hreach.imp exists_walk_of_reaches exists_walk_of_reaches
  · rw [← Graph.length_row]
    exact h.forks s
  · rw [hn.filed.transitionsFrom_eq, hn.lone (harc t ht) hl]
    rfl
  · obtain ⟨c, hchar⟩ := label_eq_char_of_consumes hl
    obtain ⟨hsource, hlabel⟩ := hn.entry (hchar ▸ harc t ht) (heq ▸ harc u hu)
    obtain ⟨source, label, target⟩ := t
    obtain ⟨source', label', target'⟩ := u
    simp_all

end Nfa

/-- Every tree has an automaton, whatever the numbering is, and it has the shape of
Thompson's construction.  Its states are numbered from the first free number on, and their
number is that of the tree. -/
theorem Compiler.exists_compileTree_thompsonShaped (c : Compiler) (p : Pattern) :
    ∃ nfa c', c.compileTree p = .ok (nfa, c') ∧
      c'.numbering.next = c.numbering.next + p.stateCount ∧
      nfa.ThompsonShaped c.numbering.next p.stateCount := by
  obtain ⟨nfa, c', hok, hfrag⟩ := c.exists_compileTree p
  have hnext := (built_of_compileTree hok).eq_add_stateCount
  have hshape := hfrag.thompsonShaped
  rw [hnext, Nat.add_sub_cancel_left] at hshape
  exact ⟨nfa, c', hok, hnext, hshape⟩

end Backtracking
