import Backtracking.Proofs.Exponential

/-!
# Whether a witness can be entered

A check looks at the automaton only: a state counts as reachable if edges lead there,
whatever their labels are.  A search over a text crosses an anchor only where it holds.

**Anchors.**  An arrival ahead of more text has crossed no end anchor, and start anchors
only at offset 0.  In the other direction a walk whose anchors are in front spells a text
over which it can be taken, whatever stands behind.  Hence a search comes to the state of
a witness, with the word of the witness still ahead, if and only if there is such a walk
from the start.  There may be none: in `$(a+)+` every walk begins at an end anchor.

**Results.**
* `Nfa.ComesTo.exists_walk`: the walk of an arrival.
* `Nfa.AnchorsOutside.exists_walk`: there is one if no anchor stands inside.
* `Nfa.Doubles.comesTo_iff`: the walks to a state where a word doubles.
* `Compiler.comesTo_iff_of_check`: witnesses that can be entered, and repeated then.
* `Compiler.not_forall_comesTo`: a witness that cannot.
-/

namespace Backtracking

namespace Nfa

/-- Over some text a path of a search without limits comes to the state, and the word
stands ahead of it. -/
def ComesTo (nfa : Nfa) (q : StateId) (w : List Char) : Prop :=
  ∃ (text : List Char) (origin offset : Nat) (report : Report),
    nfa.search text { maxRounds := none, maxPaths := none } = .ok report ∧
      0 < report.census.count { origin, state := q, offset } ∧
      w <+: text.drop offset

/-- Behind a character lies no start anchor, and behind an end anchor no character. -/
def AnchorsOutside (nfa : Nfa) : Prop :=
  ∀ t ∈ nfa.graph.transitions, ∀ u ∈ nfa.graph.transitions, u.source ∈ nfa.reachable t.target →
    (t.consumes = true → u.label ≠ .startAnchor) ∧ (t.label = .endAnchor → u.consumes = false)

instance (nfa : Nfa) : Decidable nfa.AnchorsOutside :=
  inferInstanceAs (Decidable (∀ t ∈ _, ∀ u ∈ _, _ → _ ∧ _))

variable {nfa : Nfa} {lo hi : StateId} {s q : StateId} {w : List Char}

/-- Whatever arrives ahead of more text has taken a walk whose anchors are in front. -/
theorem ComesTo.exists_walk (hn : nfa.Shaped lo hi) (h : nfa.ComesTo q w) (hw : w ≠ []) :
    ∃ ts, nfa.Walk nfa.start ts q ∧ AnchorsInFront 0 ts := by
  obtain ⟨text, origin, offset, report, hsearch, hcount, hprefix⟩ := h
  obtain ⟨m, hm, rfl⟩ := exists_eq_reportAfter_of_search hn hsearch
  rw [count_reportAfter] at hcount
  obtain ⟨T, hT⟩ := List.exists_mem_of_length_pos hcount
  rw [List.mem_filter, beq_iff_eq, mem_trailsUpTo_iff hn.filed hm, Trail.destination_eq] at hT
  obtain ⟨⟨⟨-, hcourse⟩, -⟩, hdest⟩ := hT
  obtain ⟨-, hstate, hoffset⟩ := Destination.mk.inj hdest
  have hahead : offset < text.length := by
    have hpos := List.length_pos_iff.mpr hw
    have hle := hprefix.length_le
    rw [List.length_drop] at hle
    omega
  exact ⟨T.edges, hstate ▸ hcourse.walk,
    (hcourse.anchorsInFront (hoffset ▸ hahead)).mono (Nat.zero_le _)⟩

/-- What anchors that stand outside rule out of two edges, one behind the other. -/
theorem AnchorsOutside.of_reaches (houtside : nfa.AnchorsOutside) (hf : nfa.graph.Filed)
    {t u : Transition} (ht : nfa.Arc t.source t.label t.target)
    (hu : nfa.Arc u.source u.label u.target) (h : nfa.Reaches t.target u.source) :
    (t.consumes = true → u.label ≠ .startAnchor) ∧
      (t.label = .endAnchor → u.consumes = false) :=
  houtside t ((hf.mem_transitions t).mpr ht) u ((hf.mem_transitions u).mpr hu)
    ((mem_reachable_iff_reaches _ _ _).mpr h)

/-- On the way to a character, anchors that stand outside are in front. -/
theorem Walk.anchorsInFront (houtside : nfa.AnchorsOutside) (hf : nfa.graph.Filed)
    {ts : List Transition} {u : Transition} (h : nfa.Walk s ts u.source)
    (hu : nfa.Arc u.source u.label u.target)
    (hc : u.consumes = true) {o : Nat}
    (hfront : o ≠ 0 → ∀ v : Transition, nfa.Arc v.source v.label v.target →
      nfa.Reaches s v.source → v.label ≠ .startAnchor) :
    AnchorsInFront o (ts ++ [u]) := by
  induction ts generalizing s o with
  | nil =>
      obtain ⟨a, ha⟩ := label_eq_char_of_consumes hc
      simp [AnchorsInFront, ha]
  | cons t ts ih =>
      obtain ⟨rfl, ht, rest⟩ := walk_cons_iff.mp h
      refine ⟨fun hl => ?_, fun hl => ?_, ih rest fun ho v hv hreach => ?_⟩
      · exact absurd (((houtside.of_reaches hf ht hu rest.reaches).2 hl).symm.trans hc)
          Bool.noConfusion
      · by_contra ho
        exact hfront ho t ht .refl hl
      · cases htc : t.consumes with
        | true =>
            exact (houtside.of_reaches hf ht hv hreach).1 htc
        | false =>
            rw [Transition.width_of_not_consumes htc] at ho
            exact hfront ho v hv (.head ⟨_, ht⟩ hreach)

/-- If no anchor stands inside, every state that a character enters is reached by a walk
whose anchors are in front. -/
theorem AnchorsOutside.exists_walk (houtside : nfa.AnchorsOutside) (hn : nfa.Shaped lo hi)
    (hq : q ∈ nfa.entered) : ∃ ts, nfa.Walk nfa.start ts q ∧ AnchorsInFront 0 ts := by
  obtain ⟨hreach, p, a, ha⟩ := (mem_entered_iff nfa _).mp hq
  rcases Relation.ReflTransGen.cases_tail hreach with rfl | ⟨p', hp, l, hl⟩
  · exact absurd ha hn.no_arc_into_start
  · obtain ⟨rfl, -⟩ := hn.entry ha hl
    obtain ⟨ts, hts⟩ := exists_walk_of_reaches hp
    exact ⟨ts ++ [⟨p', .char a, q⟩], hts.append (walk_singleton_iff.mpr ⟨rfl, ha, rfl⟩),
      hts.anchorsInFront houtside hn.filed ha rfl fun h => absurd rfl h⟩

/-- Where a walk whose anchors are in front leads to a state, the number of paths doubles
with every repetition of a word that doubles there. -/
theorem Doubles.two_pow_le_count (hdoubles : nfa.Doubles q w) (hn : nfa.Shaped lo hi)
    (hq : q ∈ nfa.entered) {ts : List Transition} (hts : nfa.Walk nfa.start ts q)
    (hfront : AnchorsInFront 0 ts) (k : Nat) (more : List Char) :
    ∃ report, nfa.search (consumedWord ts ++ (List.replicate k w).flatten ++ more)
        { maxRounds := none, maxPaths := none } = .ok report ∧
      2 ^ k ≤ report.census.count
        { origin := 0, state := q, offset := (consumedWord ts).length + k * w.length } := by
  have hcourse := hts.course_of_anchorsInFront [] [] hfront
  rw [List.nil_append, List.append_nil] at hcourse
  refine Nfa.two_pow_le_count hn hq hdoubles hcourse ?_ hfront.label_ne_endAnchor k more
  rw [hts.along_eq, Nat.zero_add]

/-- Some text leads to a state where a word doubles, with the word ahead, if and only if a
walk does whose anchors are in front. -/
theorem Doubles.comesTo_iff (hdoubles : nfa.Doubles q w) (hn : nfa.Shaped lo hi)
    (hq : q ∈ nfa.entered) :
    nfa.ComesTo q w ↔ ∃ ts, nfa.Walk nfa.start ts q ∧ AnchorsInFront 0 ts := by
  constructor
  · intro h
    exact h.exists_walk hn hdoubles.ne_nil
  · rintro ⟨ts, hts, hfront⟩
    -- before the first repetition there is one path
    obtain ⟨report, hsearch, hcount⟩ := hdoubles.two_pow_le_count hn hq hts hfront 0 w
    exact ⟨_, _, _, report, hsearch, hcount, by simp⟩

end Nfa

namespace Compiler

theorem shaped_of_compile {c c' : Compiler} {text : List Char} {nfa : Nfa}
    (hok : c.compile text = .ok (nfa, c')) :
    nfa.Shaped c.numbering.next c'.numbering.next := by
  rw [compile] at hok
  split at hok
  · exact shaped_of_compileTree hok
  · cases hok

/-- If a pattern is found vulnerable, a search comes to the state of the witness, with its
word ahead, if and only if some walk from the start leads there whose anchors are in front.
Behind such an arrival every repetition of the word doubles the number of paths, and there
is one if no anchor stands inside. -/
theorem comesTo_iff_of_check
    {c c' : Compiler} {text : List Char} {nfa : Nfa} (hok : c.compile text = .ok (nfa, c'))
    {limits : CheckLimits} {w : Witness} (hcheck : nfa.check limits = .ok (some w)) :
    (nfa.ComesTo w.state w.word ↔
      ∃ ts, nfa.Walk nfa.start ts w.state ∧ AnchorsInFront 0 ts) ∧
    (nfa.ComesTo w.state w.word →
      ∃ u : List Char, ∀ (k : Nat) (more : List Char), ∃ report,
        nfa.search (u ++ (List.replicate k w.word).flatten ++ more)
          { maxRounds := none, maxPaths := none } = .ok report ∧
        2 ^ k ≤ report.census.count
          { origin := 0, state := w.state, offset := u.length + k * w.word.length }) ∧
    (nfa.AnchorsOutside → nfa.ComesTo w.state w.word) := by
  have hn := shaped_of_compile hok
  obtain ⟨hent, hdoubles⟩ := Nfa.doubles_of_check hn hcheck
  have hiff := hdoubles.comesTo_iff hn hent
  refine ⟨hiff, fun h => ?_, fun houtside => hiff.mpr (houtside.exists_walk hn hent)⟩
  obtain ⟨ts, hts, hfront⟩ := hiff.mp h
  exact ⟨consumedWord ts, hdoubles.two_pow_le_count hn hent hts hfront⟩

/-- Behind its start anchor `^(a+)+$` is entered and repeated. -/
theorem comesTo_of_anchored_repetition :
    ∃ nfa c' w, compile {} ['^', '(', 'a', '+', ')', '+', '$'] = .ok (nfa, c') ∧
      nfa.check { maxSteps := none } = .ok (some w) ∧ nfa.ComesTo w.state w.word ∧
      ∃ u : List Char, ∀ (k : Nat) (more : List Char), ∃ report,
        nfa.search (u ++ (List.replicate k w.word).flatten ++ more)
          { maxRounds := none, maxPaths := none } = .ok report ∧
        2 ^ k ≤ report.census.count
          { origin := 0, state := w.state, offset := u.length + k * w.word.length } := by
  obtain ⟨nfa, c', v, hok, hcheck, hfound, houtside⟩ := exists_check_of_decide
    (compile {} ['^', '(', 'a', '+', ')', '+', '$']) { maxSteps := none }
    (fun nfa v => v.isSome = true ∧ nfa.AnchorsOutside) (by decide +kernel)
  obtain ⟨w, rfl⟩ := Option.isSome_iff_exists.mp hfound
  obtain ⟨-, hgrow, hcomes⟩ := comesTo_iff_of_check hok hcheck
  exact ⟨nfa, c', w, hok, hcheck, hcomes houtside, hgrow (hcomes houtside)⟩

/-- No search comes to the witness of `$(a+)+`. -/
theorem not_forall_comesTo :
    ¬ ∀ (c c' : Compiler) (text : List Char) (nfa : Nfa) (limits : CheckLimits) (w : Witness),
      c.compile text = .ok (nfa, c') → nfa.check limits = .ok (some w) →
      nfa.ComesTo w.state w.word := by
  intro hall
  obtain ⟨nfa, c', v, hok, hcheck, w, rfl, hstate, hword, hrow⟩ := exists_check_of_decide
    (compile {} ['$', '(', 'a', '+', ')', '+']) { maxSteps := none }
    (fun nfa v => ∃ w ∈ v, nfa.start ≠ w.state ∧ w.word ≠ [] ∧
      ∀ e ∈ nfa.graph.row nfa.start, e.label = .endAnchor) (by decide +kernel)
  obtain ⟨ts, hts, hfront⟩ :=
    (hall {} c' _ nfa _ w hok hcheck).exists_walk (shaped_of_compile hok) hword
  cases ts with
  | nil =>
      exact hstate (Nfa.walk_nil_iff.mp hts)
  | cons t ts =>
      obtain ⟨hsource, ht, -⟩ := Nfa.walk_cons_iff.mp hts
      exact hfront.1 (hrow _ (hsource ▸ ht))

end Compiler

end Backtracking
