import Backtracking.Proofs.Limits
import Backtracking.Proofs.Loops

/-!
# Giving up looped paths

A search gives up a path that has come back to a configuration of its own, or it keeps such
paths.  The two searches differ only where a path does come back.

**No revisit.**  If no trail makes a first revisit, no arrival of the pruned search is looped,
and both searches go through the same stages (`Nfa.stage_eq_stage_prune`).

**Some revisit.**  If some trail does, it can go round its loop any number of times, so the
search that keeps it has live paths in every round and ends only at a limit
(`Nfa.live_stage_ne_nil_of_revisit`).

**Results.**
* `Nfa.loops_eq_empty_iff`: a pruned search without loops says that no trail comes back.
* `Nfa.search_keeping_eq_ok_iff`: when a search that keeps looped paths has a report.
* `Compiler.exists_search_keeping`: this holds for the automata of trees, under all limits.
-/

namespace Backtracking

namespace Trail

variable {nfa : Nfa} {word : List Char} {T : Trail}

/-- A trail that comes back somewhere has made a first revisit by then. -/
theorem exists_firstRevisit (hT : T.Runs nfa word) (h : ¬ T.Simple nfa) :
    ∃ U : Trail, U.FirstRevisit nfa word := by
  rcases T with ⟨origin, edges⟩
  induction edges using List.reverseRecOn with
  | nil =>
      exact absurd (Configuration.simple_nil _) h
  | append_singleton ts t ih =>
      have hprefix := ((runs_extend_iff nfa ⟨origin, ts⟩ t).mp hT).1
      by_cases hsimple : Trail.Simple nfa ⟨origin, ts⟩
      · have hlooped : ((extend ⟨origin, ts⟩ t).path nfa).looped = true := by
          by_contra hno
          exact h ((simple_extend_iff nfa ⟨origin, ts⟩ t).mpr
            ⟨hsimple, Bool.not_eq_true _ ▸ hno⟩)
        exact ⟨_, (firstRevisit_extend_iff nfa word ⟨origin, ts⟩ t).mpr ⟨hT, hsimple, hlooped⟩⟩
      · exact ih hprefix hsimple

theorem FirstRevisit.not_simple (h : T.FirstRevisit nfa word) : ¬ T.Simple nfa := by
  obtain ⟨U, t, rfl⟩ := h.exists_extend
  obtain ⟨-, -, hlooped⟩ := (firstRevisit_extend_iff nfa word U t).mp h
  intro hsimple
  have hnot := ((simple_extend_iff nfa U t).mp hsimple).2
  exact Bool.noConfusion (hlooped.symm.trans hnot)

end Trail

theorem Arrival.alive_of_not_looped {a : Arrival} (h : a.looped = false) (prune : Bool) :
    a.alive prune = true := by
  rw [alive, h, Bool.and_false, Bool.not_false]

/-- Where no arrival is looped, it does not matter whether looped paths are given up. -/
theorem Report.addRound_eq_of_not_looped (r : Report) (nfa : Nfa) {arrivals : List Arrival}
    (h : ∀ a ∈ arrivals, a.looped = false) (prune : Bool) :
    r.addRound nfa prune arrivals = r.addRound nfa true arrivals := by
  have halive : arrivals.filter (Arrival.alive prune) = arrivals.filter (Arrival.alive true) :=
    List.filter_congr fun a ha => by
      rw [Arrival.alive_of_not_looped (h a ha), Arrival.alive_of_not_looped (h a ha)]
  have haccepted : arrivals.filter (Arrival.accepted nfa prune) =
      arrivals.filter (Arrival.accepted nfa true) :=
    List.filter_congr fun a ha => by
      rw [Arrival.accepted, Arrival.accepted, Arrival.alive_of_not_looped (h a ha),
        Arrival.alive_of_not_looped (h a ha)]
  rw [addRound, addRound, halive, haccepted]

namespace Nfa

variable {nfa : Nfa} {lo hi : StateId} {word : List Char} {limits : SearchLimits}
variable {report : Report}

/-- If some trail comes back, a search that keeps looped paths never runs out of paths. -/
theorem live_stage_ne_nil_of_revisit
    (hf : nfa.graph.Filed) {T : Trail} (hT : T.FirstRevisit nfa word) (k : Nat) :
    (nfa.stage word false k).live ≠ [] := by
  obtain ⟨U, hU, rfl⟩ := exists_runs_of_not_simple hT.runs hT.not_simple k
  exact List.ne_nil_of_mem (mem_live_of_runs hf hU)

/-- The loops of a pruned search are none exactly if no trail comes back. -/
theorem loops_eq_empty_iff (hn : nfa.Shaped lo hi) (hprune : limits.pruneLoops = true)
    (hsearch : nfa.search word limits = .ok report) :
    report.loops = #[] ↔ ∀ T : Trail, ¬ T.FirstRevisit nfa word := by
  have hfree : limits.RelaxedTo { maxRounds := none, maxPaths := none } :=
    ⟨fun n _ => admits_none n, fun n _ => admits_none n, hprune.symm⟩
  obtain ⟨m, hm, rfl⟩ := exists_eq_reportAfter_of_search hn (search_of_relaxedTo hn hfree hsearch)
  have hloops : (nfa.reportAfter word m).loops.toList =
      (nfa.loopsUpTo word m).map (Trail.path nfa) := loops_reportAfter nfa word m
  rw [← Array.toList_eq_nil_iff, hloops, List.map_eq_nil_iff, List.eq_nil_iff_forall_not_mem]
  exact forall_congr' fun T => not_congr (mem_loopsUpTo_iff hn.filed hm T)

section NoRevisit

variable (hno : ∀ T : Trail, ¬ T.FirstRevisit nfa word)
include hno

theorem not_looped_of_mem_arrivals (hf : nfa.graph.Filed) (k : Nat) :
    ∀ a ∈ nfa.arrivals word (nfa.stage word true k).live, a.looped = false := by
  intro a ha
  rw [live_stage_prune, arrivals_trails] at ha
  obtain ⟨T, hT, rfl⟩ := List.mem_map.mp ha
  obtain ⟨U, t, rfl⟩ := exists_extend_of_mem_offered hT
  obtain ⟨hruns, hsimple, -⟩ := (extend_mem_offered_iff hf word k U t).mp hT
  by_contra hlooped
  exact hno _ ((Trail.firstRevisit_extend_iff nfa word U t).mpr
    ⟨hruns, hsimple, Bool.not_eq_false _ ▸ hlooped⟩)

/-- If no trail comes back, a search goes through the same stages whether or not it would give
up looped paths. -/
theorem stage_eq_stage_prune (hf : nfa.graph.Filed) (prune : Bool) (k : Nat) :
    nfa.stage word prune k = nfa.stage word true k := by
  induction k with
  | zero =>
      rfl
  | succ k ih =>
      have harrivals := not_looped_of_mem_arrivals hno hf k
      have halive : ∀ a ∈ nfa.arrivals word (nfa.stage word true k).live,
          a.alive prune = a.alive true := fun a ha => by
        rw [Arrival.alive_of_not_looped (harrivals a ha),
          Arrival.alive_of_not_looped (harrivals a ha)]
      rw [stage, stage, ih, nextStage, nextStage,
        Report.addRound_eq_of_not_looped _ nfa harrivals prune, List.filter_congr halive]

theorem search_eq_search_prune (hn : nfa.Shaped lo hi) (maxRounds maxPaths : Option Nat)
    (prune : Bool) :
    nfa.search word { maxRounds, maxPaths, pruneLoops := prune } = .ok report ↔
      nfa.search word { maxRounds, maxPaths, pruneLoops := true } = .ok report := by
  rw [search_eq_ok_iff hn, search_eq_ok_iff hn]
  simp only [stage_eq_stage_prune hno hn.filed prune]

end NoRevisit

/-- A search that keeps looped paths has a report only if no path comes back. -/
theorem not_revisit_of_search (hn : nfa.Shaped lo hi) (hkeep : limits.pruneLoops = false)
    (hsearch : nfa.search word limits = .ok report) (T : Trail) : ¬ T.FirstRevisit nfa word := by
  intro hT
  obtain ⟨k, hnil, -⟩ := (search_eq_ok_iff hn).mp hsearch
  rw [hkeep] at hnil
  exact live_stage_ne_nil_of_revisit hn.filed hT k hnil

/-- A search that keeps looped paths has the report of the pruned search under the same limits
if that report is without loops, and otherwise none. -/
theorem search_keeping_eq_ok_iff (hn : nfa.Shaped lo hi) (maxRounds maxPaths : Option Nat) :
    nfa.search word { maxRounds, maxPaths, pruneLoops := false } = .ok report ↔
      nfa.search word { maxRounds, maxPaths, pruneLoops := true } = .ok report ∧
        report.loops = #[] := by
  constructor
  · intro hsearch
    have hno := not_revisit_of_search hn rfl hsearch
    have hpruned := (search_eq_search_prune hno hn maxRounds maxPaths false).mp hsearch
    exact ⟨hpruned, (loops_eq_empty_iff hn rfl hpruned).mpr hno⟩
  · rintro ⟨hpruned, hloops⟩
    have hno := (loops_eq_empty_iff hn rfl hpruned).mp hloops
    exact (search_eq_search_prune hno hn maxRounds maxPaths false).mpr hpruned

end Nfa

/-- A search of a compiled tree that keeps looped paths has a report exactly if the pruned search
under the same limits has this report and it is without loops.  So where some path comes back to
a configuration of its own, no limits let a search that keeps it have a report. -/
theorem Compiler.exists_search_keeping (c : Compiler) (p : Pattern) :
    ∃ nfa c', c.compileTree p = .ok (nfa, c') ∧
      ∀ (word : List Char) (maxRounds maxPaths : Option Nat),
        (∀ report, nfa.search word { maxRounds, maxPaths, pruneLoops := false } = .ok report ↔
          nfa.search word { maxRounds, maxPaths, pruneLoops := true } = .ok report ∧
            report.loops = #[]) ∧
        ((∃ T : Trail, T.FirstRevisit nfa word) →
          ∃ e, nfa.search word { maxRounds, maxPaths, pruneLoops := false } = .error e) := by
  obtain ⟨nfa, c', hok, hfrag⟩ := c.exists_compileTree p
  have hn := hfrag.shaped
  refine ⟨nfa, c', hok, fun word maxRounds maxPaths =>
    ⟨fun report => Nfa.search_keeping_eq_ok_iff hn maxRounds maxPaths, ?_⟩⟩
  rintro ⟨T, hT⟩
  cases hsearch : nfa.search word { maxRounds, maxPaths, pruneLoops := false } with
  | error e =>
      exact ⟨e, rfl⟩
  | ok report =>
      exact absurd hT (Nfa.not_revisit_of_search hn rfl hsearch T)

end Backtracking
