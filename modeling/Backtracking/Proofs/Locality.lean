import Backtracking.Proofs.Enumeration
import Backtracking.Proofs.Literals
import Backtracking.Proofs.Reading

/-!
# Matching is local

Where no edge is an anchor, the matches with one span depend on the text of this span alone.

**Ways.**  A simple trail over a text is cut out of it by its span: it is a walk from the start to
the finish that consumes the text of the span and comes back to no configuration
(`Trail.finishesOn_iff`).  Nothing in that says where in the text the span is, since offsets
can be counted from anywhere (`Configuration.simple_offset_iff`).

**Order.**  A search records the matches with one span by their number of edges.  So searches with
the same ways record the same numbers in the same order.

**Results.**
* `Nfa.Enumerated.stepsOn_eq`: spans with the same text have the same matches.
* `Compiler.exists_search_local`: a part of a text can be searched on its own.
-/

namespace Backtracking

section Extract

variable {word : List Char} {i j : Nat}

theorem length_extract (hj : j ≤ word.length) : (word.extract i j).length = j - i := by
  rw [List.extract_eq_take_drop, List.length_take, List.length_drop]
  lia

theorem take_append_extract_append_drop (hij : i ≤ j) :
    word.take i ++ word.extract i j ++ word.drop j = word := by
  have hrest : (word.drop i).drop (j - i) = word.drop j := by
    rw [List.drop_drop, Nat.add_sub_cancel' hij]
  rw [List.extract_eq_take_drop, List.append_assoc, ← hrest, List.take_append_drop,
    List.take_append_drop]

end Extract

namespace Configuration

/-- The configuration as far behind as `k` more characters would put it. -/
def delay (k : Nat) (c : Configuration) : Configuration :=
  { c with offset := k + c.offset }

theorem delay_injective (k : Nat) : Function.Injective (delay k) := by
  rintro ⟨s, o⟩ ⟨s', o'⟩ h
  obtain ⟨rfl, ho⟩ := mk.inj h
  exact congrArg (mk s) (Nat.add_left_cancel ho)

theorem after_delay (k : Nat) (c : Configuration) (t : Transition) :
    (c.delay k).after t = (c.after t).delay k := by
  rw [after, after, delay, delay, Nat.add_assoc]

theorem visits_delay (k : Nat) (c : Configuration) (ts : List Transition) :
    (c.delay k).visits ts = (c.visits ts).map (delay k) := by
  induction ts generalizing c with
  | nil =>
      rfl
  | cons t ts ih =>
      rw [visits, after_delay, ih, visits, List.map_cons]

theorem simple_delay_iff (k : Nat) (c : Configuration) (ts : List Transition) :
    (c.delay k).Simple ts ↔ c.Simple ts := by
  rw [Simple, visits_delay, ← List.map_cons, List.nodup_map_iff (delay_injective k), Simple]

/-- From which offset on a course is taken does not matter for whether it comes back. -/
theorem simple_offset_iff (s : StateId) (o o' : Nat) (ts : List Transition) :
    (Configuration.mk s o).Simple ts ↔ (Configuration.mk s o').Simple ts :=
  (simple_delay_iff o ⟨s, 0⟩ ts).trans (simple_delay_iff o' ⟨s, 0⟩ ts).symm

end Configuration

/-- The numbers of steps of the matches with one span, in the order recorded. -/
def Report.stepsOn (r : Report) (s : Span) : List Nat :=
  (r.accepted.toList.filter fun m => m.span = s).map Match.steps

namespace Nfa

/-- A way to match a text: a walk from the start to the finish that consumes the text and comes
back to no configuration. -/
structure IsWay (nfa : Nfa) (text : List Char) (ts : List Transition) : Prop where
  walk : nfa.Walk nfa.start ts nfa.finish
  consumes : consumedWord ts = text
  simple : (Configuration.mk nfa.start 0).Simple ts

end Nfa

namespace Trail

variable {nfa : Nfa} {word : List Char} {s : Span} {T : Trail}

/-- The trail is recorded as a match with this span. -/
def FinishesOn (nfa : Nfa) (word : List Char) (s : Span) (T : Trail) : Prop :=
  T ∈ nfa.simpleTrails word ∧ T.Finishes nfa ∧ (T.toMatch nfa).span = s

/-- A trail ends behind what it consumes. -/
theorem span_toMatch (nfa : Nfa) (T : Trail) :
    (T.toMatch nfa).span = ⟨T.origin, T.origin + (consumedWord T.edges).length⟩ := by
  rw [toMatch, Configuration.offset_along]
  rfl

/-- What is recorded with a span is a way to match the text of the span. -/
theorem FinishesOn.isWay (h : T.FinishesOn nfa word s) :
    T.origin = s.start ∧ nfa.IsWay (word.extract s.start s.stop) T.edges := by
  obtain ⟨⟨⟨-, hcourse⟩, hsimple⟩, hfinish, hspan⟩ := h
  rw [span_toMatch] at hspan
  subst hspan
  have hwalk := hcourse.walk
  rw [show _ = nfa.finish from hfinish] at hwalk
  have hconsumes := List.prefix_iff_eq_take.mp hcourse.consumedWord_prefix
  refine ⟨rfl, hwalk, ?_, (Configuration.simple_offset_iff _ _ _ _).mp hsimple⟩
  rw [List.extract_eq_take_drop, Nat.add_sub_cancel_left]
  exact hconsumes

/-- Without anchors a way can be taken wherever its text stands. -/
theorem finishesOn_of_isWay (hfree : nfa.Anchorless) (hle : s.start ≤ s.stop)
    (hstop : s.stop ≤ word.length) {ts : List Transition}
    (h : nfa.IsWay (word.extract s.start s.stop) ts) :
    FinishesOn nfa word s { origin := s.start, edges := ts } := by
  have hbefore : (word.take s.start).length = s.start := List.length_take_of_le (by lia)
  have hcourse := h.walk.course (h.walk.anchorFree hfree) (word.take s.start) (word.drop s.stop)
  rw [h.consumes, take_append_extract_append_drop hle, hbefore] at hcourse
  refine ⟨⟨⟨hle.trans hstop, hcourse⟩, ?_⟩, ?_, ?_⟩
  · exact (Configuration.simple_offset_iff _ _ _ _).mp h.simple
  · exact congrArg Configuration.state (h.walk.along_eq s.start)
  · rw [span_toMatch, h.consumes, length_extract hstop, Nat.add_sub_cancel' hle]

/-- The matches with a span are the ways to match the text of the span. -/
theorem finishesOn_iff (hfree : nfa.Anchorless) (hle : s.start ≤ s.stop)
    (hstop : s.stop ≤ word.length) :
    T.FinishesOn nfa word s ↔
      T.origin = s.start ∧ nfa.IsWay (word.extract s.start s.stop) T.edges := by
  refine ⟨FinishesOn.isWay, ?_⟩
  obtain ⟨origin, edges⟩ := T
  rintro ⟨rfl, hway⟩
  exact finishesOn_of_isWay hfree hle hstop hway

end Trail

namespace Nfa

variable {nfa : Nfa} {word word' : List Char} {report report' : Report} {s s' : Span}

/-- The matches with a span are recorded by their number of steps, one for every way to match the
text of the span. -/
theorem Enumerated.exists_ways (h : nfa.Enumerated word report) (hfree : nfa.Anchorless)
    (hle : s.start ≤ s.stop) (hstop : s.stop ≤ word.length) :
    ∃ ways : List (List Transition), ways.Nodup ∧
      (∀ ts, ts ∈ ways ↔ nfa.IsWay (word.extract s.start s.stop) ts) ∧
      (ways.map List.length).Pairwise (· ≤ ·) ∧ report.stepsOn s = ways.map List.length := by
  obtain ⟨trails, hmem, hnodup, hordered, haccepted⟩ := h.accepted
  have hfinishes : ∀ T, T ∈ trails.filter (fun T => (T.toMatch nfa).span = s) ↔
      T.FinishesOn nfa word s := by
    intro T
    rw [List.mem_filter, hmem, decide_eq_true_eq, and_assoc, Trail.FinishesOn]
  have hway : ∀ T : Trail, T.FinishesOn nfa word s ↔ _ :=
    fun T => Trail.finishesOn_iff hfree hle hstop
  refine ⟨(trails.filter fun T => (T.toMatch nfa).span = s).map Trail.edges, ?_, ?_, ?_, ?_⟩
  · -- all of them begin where the span does
    refine List.Nodup.map_on (fun T hT U hU hedges => ?_) (hnodup.filter _)
    have hTorigin := ((hway T).mp ((hfinishes T).mp hT)).1
    have hUorigin := ((hway U).mp ((hfinishes U).mp hU)).1
    cases T
    cases U
    simp_all
  · intro ts
    rw [List.mem_map]
    constructor
    · rintro ⟨T, hT, rfl⟩
      exact ((hway T).mp ((hfinishes T).mp hT)).2
    · intro hts
      exact ⟨⟨s.start, ts⟩, (hfinishes _).mpr ((hway _).mpr ⟨rfl, hts⟩), rfl⟩
  · rw [List.map_map, List.pairwise_map]
    refine (hordered.filter _).imp fun hbefore => ?_
    exact hbefore.elim Nat.le_of_lt fun hsame => hsame.1.le
  · rw [Report.stepsOn, haccepted, List.filter_map, List.map_map, List.map_map]
    rfl

/-- Spans with the same text have the same matches, in the same order, whatever the texts around
them are. -/
theorem Enumerated.stepsOn_eq (h : nfa.Enumerated word report)
    (h' : nfa.Enumerated word' report') (hfree : nfa.Anchorless)
    (hle : s.start ≤ s.stop) (hstop : s.stop ≤ word.length)
    (hle' : s'.start ≤ s'.stop) (hstop' : s'.stop ≤ word'.length)
    (htext : word.extract s.start s.stop = word'.extract s'.start s'.stop) :
    report.stepsOn s = report'.stepsOn s' := by
  obtain ⟨ways, hnodup, hmem, hsorted, hsteps⟩ := h.exists_ways hfree hle hstop
  obtain ⟨ways', hnodup', hmem', hsorted', hsteps'⟩ := h'.exists_ways hfree hle' hstop'
  have hperm : ways.Perm ways' := by
    refine (List.perm_ext_iff_of_nodup hnodup hnodup').mpr fun ts => ?_
    rw [hmem, hmem', htext]
  rw [hsteps, hsteps']
  exact (hperm.map List.length).eq_of_pairwise (fun _ _ _ _ => Nat.le_antisymm) hsorted hsorted'

end Nfa

namespace Compiler

/-- A tree without anchors is matched locally: the matches with a span have as many steps each, in
the order recorded, as those of the whole text of the span, if it is searched on its own. -/
theorem exists_search_local (c : Compiler) {p : Pattern} (hp : p.AnchorFree) :
    ∃ nfa c', c.compileTree p = .ok (nfa, c') ∧
      ∀ (word : List Char) (i j : Nat), i ≤ j → j ≤ word.length →
        ∃ report inner,
          nfa.search word { maxRounds := none, maxPaths := none } = .ok report ∧
          nfa.search (word.extract i j) { maxRounds := none, maxPaths := none } = .ok inner ∧
          report.stepsOn { start := i, stop := j } =
            inner.stepsOn { start := 0, stop := j - i } := by
  obtain ⟨nfa, c', hok, hfrag⟩ := c.exists_compileTree p
  have hfree : nfa.Anchorless := hp.label_ne (build_of_compileTree hok)
  refine ⟨nfa, c', hok, fun word i j hij hj => ?_⟩
  obtain ⟨report, hsearch, henumerated⟩ := Nfa.exists_enumerated hfrag.shaped word
  obtain ⟨inner, hsearch', henumerated'⟩ := Nfa.exists_enumerated hfrag.shaped (word.extract i j)
  refine ⟨report, inner, hsearch, hsearch', ?_⟩
  refine henumerated.stepsOn_eq henumerated' hfree hij hj (Nat.zero_le _)
    (length_extract hj).ge ?_
  simp [List.extract_eq_take_drop]

/-- `a|a(a?)` under a star matches `aa` inside of `baab` as it matches `aa` alone. -/
theorem exists_search_local_of_two_letters :
    ∃ nfa c', compileTree {} (.star (.group (.either (.literal 'a')
        (.sequence [.literal 'a', .group (.optional (.literal 'a'))])))) = .ok (nfa, c') ∧
      ∃ report inner,
        nfa.search ['b', 'a', 'a', 'b'] { maxRounds := none, maxPaths := none } = .ok report ∧
        nfa.search ['a', 'a'] { maxRounds := none, maxPaths := none } = .ok inner ∧
        report.stepsOn { start := 1, stop := 3 } = inner.stepsOn { start := 0, stop := 2 } := by
  obtain ⟨nfa, c', hok, hlocal⟩ := exists_search_local {} (p := .star (.group (.either
    (.literal 'a') (.sequence [.literal 'a', .group (.optional (.literal 'a'))])))) (by decide)
  exact ⟨nfa, c', hok, hlocal ['b', 'a', 'a', 'b'] 1 3 (by decide) (by decide)⟩

/-- Five ways to match `aa`, the shorter ones first. -/
example : ((compileTree {} (.star (.group (.either (.literal 'a')
    (.sequence [.literal 'a', .group (.optional (.literal 'a'))]))))).toOption.bind fun r =>
      (r.1.search ['a', 'a'] { maxRounds := none, maxPaths := none }).toOption.map fun report =>
        report.stepsOn { start := 0, stop := 2 }) = some [9, 9, 11, 11, 13] := by
  decide +kernel

end Compiler

end Backtracking
