import Backtracking.Proofs.RenamedCheck
import Backtracking.Proofs.Simulation
import Backtracking.Proofs.Verdict
import Backtracking.Search.Run
import Mathlib.Tactic

/-!
# Only equality of characters matters

Other characters in a tree and in a text, different ones for different ones, make no difference to
a search, to acceptance and to a check, apart from the characters that are reported.

**Automata.**  The construction looks at a character only to see whether it is an anchor.  So the
tree with other characters has the same automaton with other characters
(`Pattern.exists_build_relabel`).

**Texts.**  An edge can be crossed over the other text where it could be crossed over the text.
Two automata with the same moves have the same searches (`Nfa.Alike.search_eq`) and accept the
same (`Nfa.Alike.accepts_eq`).

**Deterministic automata.**  Sets of states are discovered in the order of labels, which other
characters change, so states are numbered in another way.  Both deterministic automata accept
what the automata accept that they are made of.

**Results.**
* `Compiler.exists_relabelled`: all of it, for every tree, numbering, text and limits.
-/

namespace Backtracking

open Relation

namespace Label

variable {f : Char → Char}

/-- The other character of a pattern stands for the other label. -/
def KeepsAnchors (f : Char → Char) : Prop :=
  ∀ c, ofPatternChar (f c) = (ofPatternChar c).relabel f

theorem keepsAnchors_of_injective (hf : Function.Injective f) (hstart : f '^' = '^')
    (hend : f '$' = '$') : KeepsAnchors f := by
  intro c
  have hstart' : f c = '^' ↔ c = '^' := ⟨fun h => hf (h.trans hstart.symm), fun h => h ▸ hstart⟩
  have hend' : f c = '$' ↔ c = '$' := ⟨fun h => hf (h.trans hend.symm), fun h => h ▸ hend⟩
  rw [ofPatternChar, ofPatternChar]
  simp only [hstart', hend']
  split_ifs <;> rfl

/-- The label is crossed over the other text where it is crossed over the text. -/
theorem cross?_relabel (hf : Function.Injective f) (word : List Char) (offset : Nat) (l : Label) :
    (l.relabel f).cross? (word.map f) offset = l.cross? word offset := by
  cases l with
  | char c =>
      have hchar : (word.map f)[offset]? = some (f c) ↔ word[offset]? = some c := by
        rw [List.getElem?_map]
        exact (Option.map_injective hf).eq_iff (b := some c)
      simp only [relabel, cross?, hchar]
  | epsilon | startAnchor | endAnchor =>
      simp only [relabel, cross?, List.length_map]

theorem relabel_eq_epsilon_iff (l : Label) : l.relabel f = .epsilon ↔ l = .epsilon := by
  cases l <;> simp [relabel]

theorem exists_relabel_eq_char_iff (l : Label) :
    (∃ c, l.relabel f = .char c) ↔ ∃ c, l = .char c := by
  cases l <;> simp [relabel]

end Label

/-- The edge with another character. -/
def Edge.relabel (f : Char → Char) (e : Edge) : Edge :=
  { e with label := e.label.relabel f }

/-- The transition with another character. -/
def Transition.relabel (f : Char → Char) (t : Transition) : Transition :=
  { t with label := t.label.relabel f }

/-- The witness with other characters. -/
def Witness.relabel (f : Char → Char) (w : Witness) : Witness :=
  { w with
    word := w.word.map f
    first := w.first.map (Transition.relabel f)
    second := w.second.map (Transition.relabel f) }

namespace Nfa

variable {f : Char → Char} {lo mid hi next : StateId}
variable {nfa nfa' first first' second second' left left' right right' body body' : Nfa}

section Alike

variable {word word' : List Char}

/-- A search sees no difference between two automata, each over a text of its own. -/
structure Alike (nfa : Nfa) (word : List Char) (nfa' : Nfa) (word' : List Char) : Prop where
  start_eq : nfa'.start = nfa.start
  finish_eq : nfa'.finish = nfa.finish
  length_states_eq : nfa'.graph.states.length = nfa.graph.states.length
  length_eq : word'.length = word.length
  moves_eq : ∀ c, nfa'.moves word' c = nfa.moves word c

variable (h : nfa.Alike word nfa' word')
include h

theorem Alike.accepted_eq (prune : Bool) :
    Arrival.accepted nfa' prune = Arrival.accepted nfa prune := by
  funext a
  rw [Arrival.accepted, h.finish_eq, Arrival.accepted]

theorem Alike.arrivals_eq (live : List Path) :
    nfa'.arrivals word' live = nfa.arrivals word live := by
  rw [arrivals, arrivals]
  refine List.flatMap_congr fun p _ => ?_
  rw [Path.successors, h.moves_eq, Path.successors]

theorem Alike.excess?_eq (prune : Bool) (limit records live : Nat) (arrivals : List Arrival) :
    Arrival.excess? nfa' prune limit records live arrivals =
      Arrival.excess? nfa prune limit records live arrivals := by
  induction arrivals generalizing records live with
  | nil =>
      rfl
  | cons a arrivals ih =>
      rw [Arrival.excess?, Arrival.excess?, h.accepted_eq]
      simp only [ih]

theorem Alike.addRound_eq (prune : Bool) (arrivals : List Arrival) (report : Report) :
    report.addRound nfa' prune arrivals = report.addRound nfa prune arrivals := by
  rw [Report.addRound, h.accepted_eq, Report.addRound]

/-- The rounds that are left of both searches. -/
theorem Alike.explore_eq (limits : SearchLimits) (rounds : Nat) (report : Report)
    (live : List Path) :
    nfa'.explore word' limits rounds report live = nfa.explore word limits rounds report live := by
  induction rounds generalizing report live with
  | zero =>
      rfl
  | succ rounds ih =>
      simp only [explore, h.arrivals_eq, h.excess?_eq, h.addRound_eq, ih]

theorem Alike.search_eq (limits : SearchLimits) :
    nfa'.search word' limits = nfa.search word limits := by
  have hbound : nfa'.roundBound word' limits = nfa.roundBound word limits := by
    rw [roundBound, h.length_states_eq, h.length_eq, roundBound]
  have hseeds : nfa'.seeds word' = nfa.seeds word := by
    rw [seeds, h.start_eq, h.length_eq, seeds]
  rw [search, searchRun, hbound, hseeds, h.explore_eq, search, searchRun]

theorem Alike.accepts_eq : nfa'.accepts word' = nfa.accepts word := by
  have hstep : nfa'.Step word' = nfa.Step word := by
    funext c d
    rw [← mem_moves_iff, h.moves_eq, mem_moves_iff]
  rw [Bool.eq_iff_iff, accepts_iff, accepts_iff, Traverses, Traverses, hstep, h.start_eq,
    h.finish_eq, h.length_eq]

end Alike

/-- The second automaton is the first one with other characters. -/
structure Relabels (f : Char → Char) (nfa nfa' : Nfa) : Prop where
  start_eq : nfa'.start = nfa.start
  finish_eq : nfa'.finish = nfa.finish
  owns_iff : ∀ s, nfa'.Owns s ↔ nfa.Owns s
  row_eq : ∀ s, nfa'.graph.row s = (nfa.graph.row s).map (Edge.relabel f)

theorem Relabels.start_owned (h : nfa.Relabels f nfa') (hs : nfa.Owns nfa.start) :
    nfa'.Owns nfa'.start := by
  rw [h.owns_iff, h.start_eq]
  exact hs

theorem Relabels.finish_owned (h : nfa.Relabels f nfa') (hs : nfa.Owns nfa.finish) :
    nfa'.Owns nfa'.finish := by
  rw [h.owns_iff, h.finish_eq]
  exact hs

theorem map_silentRow (f : Char → Char) (source target s : StateId) :
    (silentRow source target s).map (Edge.relabel f) = silentRow source target s := by
  rw [silentRow]
  split_ifs <;> rfl

theorem relabels_atom (f : Char → Char) {label : Label} (hok : atom label next = .ok nfa) :
    ∃ nfa', atom (label.relabel f) next = .ok nfa' ∧ nfa.Relabels f nfa' := by
  obtain ⟨made, hmade, hstart, hfinish, howns, hrow⟩ := exists_atom label next
  obtain rfl := Except.ok.inj (hok.symm.trans hmade)
  obtain ⟨nfa', hok', hstart', hfinish', howns', hrow'⟩ := exists_atom (label.relabel f) next
  refine ⟨nfa', hok', by rw [hstart', hstart], by rw [hfinish', hfinish],
    fun s => by rw [howns', howns], fun s => ?_⟩
  rw [hrow', hrow]
  split_ifs <;> rfl

theorem Relabels.chain (hf : first.Relabels f first') (hs : second.Relabels f second')
    (hfirst : first.Shaped lo mid) (hsecond : second.Shaped mid hi)
    (hok : first.chain second = .ok nfa) :
    ∃ nfa', first'.chain second' = .ok nfa' ∧ nfa.Relabels f nfa' := by
  obtain ⟨made, hmade, hstart, hfinish, howns, hrow⟩ :=
    exists_chain hfirst.finish_owned hsecond.start_owned
  obtain rfl := Except.ok.inj (hok.symm.trans hmade)
  obtain ⟨nfa', hok', hstart', hfinish', howns', hrow'⟩ :=
    exists_chain (hf.finish_owned hfirst.finish_owned) (hs.start_owned hsecond.start_owned)
  refine ⟨nfa', hok', by rw [hstart', hf.start_eq, hstart], by rw [hfinish', hs.finish_eq, hfinish],
    fun s => by rw [howns', howns, hf.owns_iff, hs.owns_iff], fun s => ?_⟩
  rw [hrow', hrow, chainRow, chainRow, hf.row_eq, hs.row_eq, hf.finish_eq, hs.start_eq]
  simp only [List.map_append, map_silentRow]

theorem Relabels.branch (hl : left.Relabels f left') (hr : right.Relabels f right')
    (hleft : left.Shaped lo mid) (hright : right.Shaped mid hi)
    (hok : left.branch right next = .ok nfa) :
    ∃ nfa', left'.branch right' next = .ok nfa' ∧ nfa.Relabels f nfa' := by
  obtain ⟨made, hmade, hstart, hfinish, howns, hrow⟩ :=
    exists_branch hleft.start_owned hleft.finish_owned hright.start_owned hright.finish_owned next
  obtain rfl := Except.ok.inj (hok.symm.trans hmade)
  obtain ⟨nfa', hok', hstart', hfinish', howns', hrow'⟩ :=
    exists_branch (hl.start_owned hleft.start_owned) (hl.finish_owned hleft.finish_owned)
      (hr.start_owned hright.start_owned) (hr.finish_owned hright.finish_owned) next
  refine ⟨nfa', hok', by rw [hstart', hstart], by rw [hfinish', hfinish],
    fun s => by rw [howns', howns, hl.owns_iff, hr.owns_iff], fun s => ?_⟩
  rw [hrow', hrow, branchRow, branchRow, hl.row_eq, hr.row_eq, hl.start_eq, hl.finish_eq,
    hr.start_eq, hr.finish_eq]
  simp only [List.map_append, map_silentRow]

theorem Relabels.wrap {skip again : Bool} (hb : body.Relabels f body') (hbody : body.Shaped lo hi)
    (hok : body.wrap next skip again = .ok nfa) :
    ∃ nfa', body'.wrap next skip again = .ok nfa' ∧ nfa.Relabels f nfa' := by
  obtain ⟨made, hmade, hstart, hfinish, howns, hrow⟩ :=
    exists_wrap hbody.start_owned hbody.finish_owned next skip again
  obtain rfl := Except.ok.inj (hok.symm.trans hmade)
  obtain ⟨nfa', hok', hstart', hfinish', howns', hrow'⟩ :=
    exists_wrap (hb.start_owned hbody.start_owned) (hb.finish_owned hbody.finish_owned) next skip
      again
  refine ⟨nfa', hok', by rw [hstart', hstart], by rw [hfinish', hfinish],
    fun s => by rw [howns', howns, hb.owns_iff], fun s => ?_⟩
  rw [hrow', hrow, wrapRow, wrapRow, hb.row_eq, hb.start_eq, hb.finish_eq]
  cases skip <;> cases again <;>
    simp only [List.map_append, map_silentRow, if_true, if_false, Bool.false_eq_true, List.map_nil]

/-- Every step of the construction keeps the automata the same but for the characters. -/
theorem kept_relabels (hf : Label.KeepsAnchors f) : Kept 0 f (Relabels f) where
  epsilon hok := by
    rw [Nat.zero_add]
    exact relabels_atom f hok
  character hok := by
    rw [Nat.zero_add, hf]
    exact relabels_atom f hok
  chain hfirst hsecond hf hs hok := hf.chain hs hfirst.shaped hsecond.shaped hok
  branch hleft hright hl hr hok := by
    rw [Nat.zero_add]
    exact hl.branch hr hleft.shaped hright.shaped hok
  wrap hbody hb hok := by
    rw [Nat.zero_add]
    exact hb.wrap hbody.shaped hok

section View

variable (h : nfa.Relabels f nfa')
include h

theorem Relabels.states_eq : nfa'.graph.states = nfa.graph.states := by
  refine List.Pairwise.eq_of_mem_iff (r := (· < ·)) (Graph.pairwise_states _)
    (Graph.pairwise_states _) fun s => ?_
  rw [Graph.mem_states, Graph.mem_states]
  exact h.owns_iff s

theorem Relabels.alike (hf : Function.Injective f) (word : List Char) :
    nfa.Alike word nfa' (word.map f) where
  start_eq := h.start_eq
  finish_eq := h.finish_eq
  length_states_eq := by rw [h.states_eq]
  length_eq := List.length_map f
  moves_eq c := by
    rw [moves, h.row_eq, List.filterMap_map, moves]
    refine List.filterMap_congr fun e _ => ?_
    rw [Function.comp_apply, Edge.relabel, Label.cross?_relabel hf]

theorem Relabels.transitionsFrom_eq (hn : nfa.graph.Filed) (hn' : nfa'.graph.Filed)
    (s : StateId) :
    nfa'.graph.transitionsFrom s = (nfa.graph.transitionsFrom s).map (Transition.relabel f) := by
  rw [hn'.transitionsFrom_eq, h.row_eq, List.map_map, hn.transitionsFrom_eq, List.map_map]
  rfl

theorem Relabels.arc_iff {s t : StateId} {l : Label} :
    nfa'.Arc s l t ↔ ∃ l', nfa.Arc s l' t ∧ l'.relabel f = l := by
  rw [Arc, h.row_eq, List.mem_map]
  constructor
  · rintro ⟨⟨l', t'⟩, he, heq⟩
    obtain ⟨hl, rfl⟩ := Edge.mk.inj heq
    exact ⟨l', he, hl⟩
  · rintro ⟨l', he, rfl⟩
    exact ⟨⟨l', t⟩, he, rfl⟩

theorem Relabels.reaches_eq : nfa'.Reaches = nfa.Reaches := by
  have hstep : (fun a b => ∃ l, nfa'.Arc a l b) = fun a b => ∃ l, nfa.Arc a l b := by
    funext a b
    simp only [h.arc_iff]
    exact propext ⟨fun ⟨_, l, hl, _⟩ => ⟨l, hl⟩, fun ⟨l, hl⟩ => ⟨_, l, hl, rfl⟩⟩
  funext s t
  rw [Reaches, hstep, Reaches]

theorem Relabels.slides_eq : nfa'.Slides = nfa.Slides := by
  have hstep : (fun a b => nfa'.Arc a .epsilon b) = fun a b => nfa.Arc a .epsilon b := by
    funext a b
    simp only [h.arc_iff, Label.relabel_eq_epsilon_iff, exists_eq_right]
  funext s t
  rw [Slides, hstep, Slides]

theorem Relabels.entered_eq : nfa'.entered = nfa.entered := by
  refine Std.ExtTreeSet.ext_mem fun t => ?_
  have hchar : ∀ s, (∃ a, nfa'.Arc s (.char a) t) ↔ ∃ a, nfa.Arc s (.char a) t := by
    intro s
    simp only [h.arc_iff]
    constructor
    · rintro ⟨a, l, harc, hl⟩
      obtain ⟨c, rfl⟩ := (Label.exists_relabel_eq_char_iff l).mp ⟨a, hl⟩
      exact ⟨c, harc⟩
    · rintro ⟨c, harc⟩
      exact ⟨f c, .char c, harc, rfl⟩
  rw [mem_entered_iff, mem_entered_iff, h.reaches_eq, h.start_eq]
  simp only [hchar]

theorem Relabels.canGetStuck_eq (s : StateId) : nfa'.canGetStuck s = nfa.canGetStuck s := by
  rw [Bool.eq_iff_iff, canGetStuck_iff, canGetStuck_iff, CanStrand, CanStrand, h.reaches_eq,
    h.slides_eq, h.finish_eq]

end View

end Nfa

/-- The tree with other characters has the automaton with other characters. -/
theorem Pattern.exists_build_relabel {f : Char → Char} (hf : Label.KeepsAnchors f) {p : Pattern}
    {next hi : StateId} {nfa : Nfa} (hok : p.build next = .ok (nfa, hi)) :
    ∃ nfa', (p.relabel f).build next = .ok (nfa', hi) ∧ nfa.Relabels f nfa' := by
  have h := (Nfa.kept_relabels hf).exists_build p hok
  rwa [Nat.zero_add, Nat.zero_add] at h

/-- The renaming that leaves the states as they are. -/
def Renaming.letters (f : Char → Char) (hf : Function.Injective f) : Renaming where
  state := id
  char := f
  state_injective := Function.injective_id
  char_injective := hf

theorem Nfa.Relabels.carries {f : Char → Char} {nfa nfa' : Nfa} (h : nfa.Relabels f nfa')
    (hn : nfa.graph.Filed) (hn' : nfa'.graph.Filed) (hf : Function.Injective f) :
    (Renaming.letters f hf).Carries nfa nfa' where
  transitionsFrom := h.transitionsFrom_eq hn hn'
  length_states := by rw [h.states_eq]
  entered := by rw [h.entered_eq]; exact (List.map_id _).symm
  canGetStuck := h.canGetStuck_eq

theorem Nfa.Relabels.check_eq {f : Char → Char} {nfa nfa' : Nfa} (h : nfa.Relabels f nfa')
    (hn : nfa.graph.Filed) (hn' : nfa'.graph.Filed) (hf : Function.Injective f)
    (limits : CheckLimits) :
    nfa'.check limits = (nfa.check limits).map (Option.map (Witness.relabel f)) :=
  (h.carries hn hn' hf).check_eq limits

/-- A tree with other characters, over texts with other characters.  The report of a search and
the answers of both automata are the same, limits are reached at the same places, and a check has
the same verdict, of which a witness shows the other characters. -/
theorem Compiler.exists_relabelled {f : Char → Char} (hf : Function.Injective f)
    (hstart : f '^' = '^') (hend : f '$' = '$') (c : Compiler) (p : Pattern) :
    ∃ nfa nfa' c' dfa dfa', c.compileTree p = .ok (nfa, c') ∧
      c.compileTree (p.relabel f) = .ok (nfa', c') ∧
      nfa.toDfa = .ok dfa ∧ nfa'.toDfa = .ok dfa' ∧
      (∀ word limits, nfa'.search (word.map f) limits = nfa.search word limits) ∧
      (∀ word, nfa'.accepts (word.map f) = nfa.accepts word) ∧
      (∀ word, dfa'.accepts (word.map f) = dfa.accepts word) ∧
      ∀ limits, nfa'.check limits = (nfa.check limits).map (Option.map (Witness.relabel f)) := by
  obtain ⟨nfa, c', hok, hfrag⟩ := c.exists_compileTree p
  obtain ⟨nfa', hbuild, hrel⟩ := Pattern.exists_build_relabel
    (Label.keepsAnchors_of_injective hf hstart hend) (build_of_compileTree hok)
  obtain ⟨dfa, hdfa, hrep⟩ := Nfa.exists_toDfa hfrag.shaped
  have hshaped' := (Pattern.fragment_of_build hbuild).shaped
  obtain ⟨dfa', hdfa', hrep'⟩ := Nfa.exists_toDfa hshaped'
  have hok' : c.compileTree (p.relabel f) = .ok (nfa', c') := by
    rw [compileTree, hbuild]
  refine ⟨nfa, nfa', c', dfa, dfa', hok, hok', hdfa, hdfa',
    fun word => (hrel.alike hf word).search_eq, fun word => (hrel.alike hf word).accepts_eq,
    fun word => ?_, hrel.check_eq hfrag.shaped.filed hshaped'.filed hf⟩
  rw [hrep'.accepts_eq, (hrel.alike hf word).accepts_eq, hrep.accepts_eq]

/-- In `^([ab]|a)+$` the two letters change places. -/
theorem Compiler.exists_relabelled_of_swap :
    ∃ nfa nfa' c', compileTree {} (.sequence [.literal '^',
        .plus (.group (.either (.oneOf ['a', 'b']) (.literal 'a'))), .literal '$']) =
        .ok (nfa, c') ∧
      compileTree {} (.sequence [.literal '^',
        .plus (.group (.either (.oneOf ['b', 'a']) (.literal 'b'))), .literal '$']) =
        .ok (nfa', c') ∧
      (∀ word limits,
        nfa'.search (word.map (Equiv.swap 'a' 'b')) limits = nfa.search word limits) ∧
      ∀ limits, nfa'.check limits =
        (nfa.check limits).map (Option.map (Witness.relabel (Equiv.swap 'a' 'b'))) := by
  obtain ⟨nfa, nfa', c', dfa, dfa', hok, hok', -, -, hsearch, -, -, hcheck⟩ :=
    Compiler.exists_relabelled (Equiv.swap 'a' 'b').injective (by decide) (by decide) {}
      (.sequence [.literal '^', .plus (.group (.either (.oneOf ['a', 'b']) (.literal 'a'))),
        .literal '$'])
  exact ⟨nfa, nfa', c', hok, hok', hsearch, hcheck⟩

end Backtracking
