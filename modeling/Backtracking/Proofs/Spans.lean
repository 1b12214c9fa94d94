import Backtracking.Proofs.Limits

/-!
# The spans of a search are the matches of the pattern

A search may be limited or not, and it may give up looped paths or keep them.  Whatever
it does, its live paths take trails, and every simple trail is among them as long as the
search goes on (`Nfa.Explored`).

**Completeness.**  A search that ends has no live path left, so no simple trail is longer
than the rounds it took.  Every match is found, since loops can be left out of a course
without changing where it begins and ends.

**Results.**
* `Nfa.mem_spans_iff`: the spans of a search that ends are those of the paths from the
  start to the finish.
* `Compiler.mem_spans_iff_matches`: for a pattern these are the offsets between which the
  pattern matches.
-/

namespace Backtracking

namespace Trail

/-- The trail ends in the finish. -/
def Finishes (nfa : Nfa) (T : Trail) : Prop :=
  ((T.root nfa).along T.edges).state = nfa.finish

/-- Such a trail has left the start. -/
theorem Finishes.edges_ne_nil
    {nfa : Nfa} {lo hi : StateId} {T : Trail} (h : T.Finishes nfa) (hn : nfa.Shaped lo hi) :
    T.edges ≠ [] := by
  intro hnil
  rw [Finishes, hnil] at h
  exact hn.start_ne_finish h

theorem span_path (nfa : Nfa) (T : Trail) :
    (T.path nfa).span =
      { start := T.origin, stop := ((T.root nfa).along T.edges).offset } := by
  rw [Path.span, origin_path, here_path]

end Trail

namespace Report

theorem mem_foldl_insert_iff (ms : List Match) (spans : SpanSet) (s : Span) :
    s ∈ ms.foldl (fun spans m => spans.insert m.span) spans ↔
      s ∈ spans ∨ ∃ m ∈ ms, m.span = s := by
  induction ms generalizing spans with
  | nil =>
      simp
  | cons m ms ih =>
      rw [List.foldl_cons, ih, Std.ExtTreeSet.mem_insert, Std.LawfulEqCmp.compare_eq_iff_eq]
      simp only [List.mem_cons, exists_eq_or_imp]
      tauto

theorem mem_spans_iff (r : Report) (s : Span) :
    s ∈ r.spans ↔ ∃ m ∈ r.accepted.toList, m.span = s := by
  rw [spans, ← Array.foldl_toList, mem_foldl_insert_iff]
  simp

theorem mem_accepted_addRound_iff
    (r : Report) (nfa : Nfa) (prune : Bool) (arrivals : List Arrival) (m : Match) :
    m ∈ (r.addRound nfa prune arrivals).accepted.toList ↔
      m ∈ r.accepted.toList ∨ ∃ a ∈ arrivals, a.accepted nfa prune = true ∧
        { span := a.path.span, steps := a.path.steps } = m := by
  simp only [addRound, Array.appendList_eq_append, Array.toList_appendList, List.mem_append,
    List.mem_map, List.mem_filter, and_assoc]

end Report

namespace Nfa

variable {nfa : Nfa} {lo hi : StateId} {word : List Char}

/-- What a search knows after `k` rounds, whether or not it gives up looped paths. -/
structure Explored
    (nfa : Nfa) (word : List Char) (k : Nat) (report : Report) (live : List Path) :
    Prop where
  live_runs : ∀ p ∈ live, ∃ T : Trail, T.Runs nfa word ∧ T.path nfa = p
  live_trails : ∀ T ∈ nfa.trails word k, T.path nfa ∈ live
  accepted_runs : ∀ m ∈ report.accepted.toList,
    ∃ T : Trail, T.Runs nfa word ∧ T.Finishes nfa ∧ (T.path nfa).span = m.span
  accepted_trails : ∀ T ∈ nfa.trailsUpTo word k, T.Finishes nfa →
    ∃ m ∈ report.accepted.toList, m.span = (T.path nfa).span

namespace Explored

variable {k : Nat} {report : Report} {live : List Path}

/-- The live paths of a round arrive along trails. -/
theorem runs_of_mem_arrivals
    (h : nfa.Explored word k report live) (hf : nfa.graph.Filed) {a : Arrival}
    (ha : a ∈ nfa.arrivals word live) :
    ∃ T : Trail, T.Runs nfa word ∧ T.path nfa = a.path := by
  obtain ⟨p, hp, t, ht, rfl⟩ := (mem_arrivals_iff nfa word live a).mp ha
  obtain ⟨T, hT, rfl⟩ := h.live_runs p hp
  exact ⟨T.extend t, (T.runs_extend_iff nfa t).mpr ⟨hT, (mem_crossable_iff hf _ _ _).mp ht⟩,
    T.path_extend nfa t⟩

/-- Every simple trail that is one edge longer arrives, and not as a loop. -/
theorem mem_arrivals_of_mem_trails (h : nfa.Explored word k report live) {T : Trail}
    (hT : T ∈ nfa.trails word (k + 1)) :
    { path := T.path nfa, looped := false } ∈ nfa.arrivals word live := by
  rw [trails_succ, List.mem_filter, offered, Bool.not_eq_true'] at hT
  obtain ⟨hoffered, hloop⟩ := hT
  obtain ⟨U, hU, hprolong⟩ := List.mem_flatMap.mp hoffered
  refine List.mem_flatMap.mpr ⟨U.path nfa, h.live_trails U hU, ?_⟩
  rw [successors_path]
  refine List.mem_map.mpr ⟨T.path nfa, List.mem_map_of_mem hprolong, ?_⟩
  rw [Arrival.ofPath, hloop]

/-- One more round. -/
theorem round
    (h : nfa.Explored word k report live) (hf : nfa.graph.Filed) (prune : Bool) :
    nfa.Explored word (k + 1) (report.addRound nfa prune (nfa.arrivals word live))
      (((nfa.arrivals word live).filter (Arrival.alive prune)).map Arrival.path) := by
  have halive : ∀ p : Path, Arrival.alive prune { path := p, looped := false } = true := by
    simp [Arrival.alive]
  refine ⟨?_, ?_, ?_, ?_⟩
  · intro p hp
    obtain ⟨a, ha, rfl⟩ := List.mem_map.mp hp
    exact h.runs_of_mem_arrivals hf (List.mem_filter.mp ha).1
  · intro T hT
    exact List.mem_map.mpr
      ⟨_, List.mem_filter.mpr ⟨h.mem_arrivals_of_mem_trails hT, halive _⟩, rfl⟩
  · intro m hm
    rcases (Report.mem_accepted_addRound_iff _ _ _ _ m).mp hm with hm | ⟨a, ha, haccepted, rfl⟩
    · exact h.accepted_runs m hm
    · obtain ⟨T, hT, hpath⟩ := h.runs_of_mem_arrivals hf ha
      rw [Arrival.accepted, Bool.and_eq_true, beq_iff_eq] at haccepted
      refine ⟨T, hT, ?_, congrArg Path.span hpath⟩
      rw [Trail.Finishes, ← Trail.here_path, hpath, haccepted.2]
  · intro T hT hfinish
    rw [trailsUpTo_succ, List.mem_append] at hT
    rcases hT with hT | hT
    · obtain ⟨m, hm, hspan⟩ := h.accepted_trails T hT hfinish
      exact ⟨m, (Report.mem_accepted_addRound_iff _ _ _ _ m).mpr (Or.inl hm), hspan⟩
    · refine ⟨_, (Report.mem_accepted_addRound_iff _ _ _ _ _).mpr
        (Or.inr ⟨_, h.mem_arrivals_of_mem_trails hT, ?_, rfl⟩), rfl⟩
      rw [Arrival.accepted, halive, Bool.true_and, beq_iff_eq, Trail.here_path]
      exact hfinish

end Explored

theorem explored_seeds (hf : nfa.graph.Filed) (word : List Char) :
    nfa.Explored word 0 {} (nfa.seeds word) := by
  rw [seeds_eq]
  refine ⟨?_, ?_, ?_, ?_⟩
  · intro p hp
    obtain ⟨T, hT, rfl⟩ := List.mem_map.mp hp
    exact ⟨T, ((mem_trails_iff hf word 0 T).mp hT).1, rfl⟩
  · intro T hT
    exact List.mem_map_of_mem hT
  · intro m hm
    exact absurd hm List.not_mem_nil
  · intro T hT
    exact absurd hT List.not_mem_nil

/-- What is known at the stages of a search that goes on. -/
theorem explored_stage
    (hf : nfa.graph.Filed) {prune : Bool} {k : Nat}
    (hlive : ∀ j < k, (nfa.stage word prune j).live ≠ []) :
    nfa.Explored word k (nfa.stage word prune k).report (nfa.stage word prune k).live := by
  induction k with
  | zero =>
      exact explored_seeds hf word
  | succ k ih =>
      rw [report_stage_succ (hlive k (Nat.lt_succ_self k)), live_stage_succ]
      exact (ih fun j hj => hlive j (Nat.lt_succ_of_lt hj)).round hf prune

theorem exists_explored_of_search (hn : nfa.Shaped lo hi) {limits : SearchLimits}
    {report : Report} (hsearch : nfa.search word limits = .ok report) :
    ∃ m, nfa.Explored word m report [] := by
  obtain ⟨k, hnil, hbefore, rfl⟩ := exists_halt_of_search hn hsearch
  exact ⟨k, hnil ▸ explored_stage hn.filed fun j hj => live_ne_nil_of_not_halts (hbefore j hj)⟩

/-- The spans of a search that ends are the spans of the trails to the finish. -/
theorem mem_spans_iff_exists_trail (hn : nfa.Shaped lo hi) {limits : SearchLimits}
    {report : Report} (hsearch : nfa.search word limits = .ok report) (s : Span) :
    s ∈ report.spans ↔
      ∃ T : Trail, T.Runs nfa word ∧ T.Finishes nfa ∧ (T.path nfa).span = s := by
  obtain ⟨m, h⟩ := exists_explored_of_search hn hsearch
  rw [Report.mem_spans_iff]
  constructor
  · rintro ⟨found, hfound, rfl⟩
    exact h.accepted_runs found hfound
  · rintro ⟨T, hruns, hfinish, rfl⟩
    -- without its loops the trail has the same span, and no search loses it
    obtain ⟨us, -, hus, hend, hsimple⟩ := exists_simple_course hruns.2
    have hfinish' : Trail.Finishes nfa { origin := T.origin, edges := us } :=
      (congrArg Configuration.state hend).trans hfinish
    have hnil : nfa.trails word m = [] :=
      List.eq_nil_iff_forall_not_mem.mpr fun U hU => List.not_mem_nil (h.live_trails U hU)
    obtain ⟨found, hfound, hspan⟩ := h.accepted_trails { origin := T.origin, edges := us }
      ((mem_trailsUpTo_iff hn.filed hnil _).mpr
        ⟨⟨hruns.1, hus⟩, hsimple, hfinish'.edges_ne_nil hn⟩) hfinish'
    refine ⟨found, hfound, ?_⟩
    rw [hspan, Trail.span_path, Trail.span_path]
    exact congrArg (fun d : Configuration => Span.mk T.origin d.offset) hend

/-- The spans of a search that ends are those of the paths from the start to the finish,
whatever the limits are and whether or not loops are pruned. -/
theorem mem_spans_iff (hn : nfa.Shaped lo hi) {limits : SearchLimits}
    {report : Report} (hsearch : nfa.search word limits = .ok report) (s : Span) :
    s ∈ report.spans ↔ s.start ≤ word.length ∧ nfa.Traverses word s.start s.stop := by
  rw [mem_spans_iff_exists_trail hn hsearch, Traverses, leads_iff_exists_course]
  constructor
  · rintro ⟨T, ⟨hle, hcourse⟩, hfinish, rfl⟩
    rw [Trail.span_path]
    refine ⟨hle, T.edges, hcourse, ?_⟩
    rw [← show _ = nfa.finish from hfinish]
    rfl
  · rintro ⟨hle, ts, hcourse, hend⟩
    refine ⟨{ origin := s.start, edges := ts }, ⟨hle, hcourse⟩, ?_, ?_⟩
    · exact congrArg Configuration.state hend
    · rw [Trail.span_path]
      exact congrArg (fun d : Configuration => Span.mk s.start d.offset) hend

end Nfa

/-- Whenever a search of a compiled tree ends, its spans are exactly the offsets between
which the tree matches, whatever the limits are and whether or not loops are pruned. -/
theorem Compiler.mem_spans_iff_matches
    {c c' : Compiler} {p : Pattern} {nfa : Nfa} (hok : c.compileTree p = .ok (nfa, c'))
    {word : List Char} {limits : SearchLimits} {report : Report}
    (hsearch : nfa.search word limits = .ok report) (s : Span) :
    s ∈ report.spans ↔
      s.start ≤ s.stop ∧ s.stop ≤ word.length ∧ p.Matches word s.start s.stop := by
  rw [Nfa.mem_spans_iff (Compiler.shaped_of_compileTree hok) hsearch,
    ← Pattern.traverses_iff_matches p (Compiler.build_of_compileTree hok)]
  constructor
  · rintro ⟨hle, path⟩
    exact ⟨Nfa.offset_le_of_leads path, Nfa.offset_le_length_of_leads path hle, path⟩
  · rintro ⟨hle, hstop, path⟩
    exact ⟨hle.trans hstop, path⟩

/-- The spans of a limited search of `aab` for `(a|b$)+` that keeps looped paths. -/
theorem Compiler.mem_spans_iff_of_loops_kept :
    ∃ nfa c' report,
      Compiler.compileTree {} (.plus (.either (.literal 'a')
        (.sequence [.literal 'b', .literal '$']))) = .ok (nfa, c') ∧
      nfa.search ['a', 'a', 'b']
        { maxRounds := some 20, maxPaths := some 50, pruneLoops := false } = .ok report ∧
      ∀ s : Span, s ∈ report.spans ↔ s.start ≤ s.stop ∧ s.stop ≤ 3 ∧
        (Pattern.plus (.either (.literal 'a') (.sequence [.literal 'b', .literal '$']))).Matches
          ['a', 'a', 'b'] s.start s.stop := by
  obtain ⟨nfa, c', hok, -⟩ := Compiler.exists_compileTree {} (.plus (.either (.literal 'a')
    (.sequence [.literal 'b', .literal '$'])))
  have hends : ((Compiler.compileTree {} (.plus (.either (.literal 'a')
      (.sequence [.literal 'b', .literal '$'])))).toOption.bind fun r =>
        (r.1.search ['a', 'a', 'b']
          { maxRounds := some 20, maxPaths := some 50, pruneLoops := false }).toOption).isSome =
      true := by
    decide +kernel
  rw [hok] at hends
  obtain ⟨report, hreport⟩ := Option.isSome_iff_exists.mp hends
  have hsearch : nfa.search ['a', 'a', 'b']
      { maxRounds := some 20, maxPaths := some 50, pruneLoops := false } = .ok report :=
    eq_ok_of_toOption_eq_some hreport
  exact ⟨nfa, c', report, hok, hsearch, Compiler.mem_spans_iff_matches hok hsearch⟩

end Backtracking
