import Backtracking.Proofs.Reports

/-!
# The stages of a search

A search without limits goes through stages: after every round there is something that it
has seen, and there are the paths that are alive.  A stage without live paths is the last
one.

**Progress.**  In every round a live path comes to a configuration that is new to it, or
it leaves a loop in the report.  There are only so many configurations, so the records of
a search that goes on grow with the rounds (`Nfa.lt_add_records`).

**End.**  A search that gives up looped paths ends with the simple trails.  One that keeps
them ends as soon or never, since a path that has come back can go round its loop for ever
(`Nfa.live_stage_eq_nil`).

**Results.**
* `Nfa.lives_stage`, `Nfa.rounds_stage`: what is noted about the rounds.
* `Nfa.lt_add_records`, `Nfa.live_stage_eq_nil`: bounds on the number of rounds.
-/

namespace Backtracking

theorem size_appendList {α : Type} (xs : Array α) (ys : List α) :
    (xs.appendList ys).size = xs.size + ys.length := by
  rw [← Array.length_toList, Array.appendList_eq_append, Array.toList_appendList,
    List.length_append, Array.length_toList]

namespace Report

variable {nfa : Nfa} {prune : Bool}

theorem rounds_addRound (r : Report) (arrivals : List Arrival) :
    (r.addRound nfa prune arrivals).rounds = r.rounds + 1 :=
  Array.size_push _

theorem size_loops_addRound (r : Report) (arrivals : List Arrival) :
    (r.addRound nfa prune arrivals).loops.size =
      r.loops.size + (arrivals.filter Arrival.looped).length := by
  simp only [addRound, size_appendList, List.length_map]

theorem size_accepted_addRound (r : Report) (arrivals : List Arrival) :
    (r.addRound nfa prune arrivals).accepted.size =
      r.accepted.size + (arrivals.filter (Arrival.accepted nfa prune)).length := by
  simp only [addRound, size_appendList, List.length_map]

theorem records_addRound (r : Report) (arrivals : List Arrival) :
    (r.addRound nfa prune arrivals).records =
      r.records + (arrivals.filter Arrival.looped).length +
        (arrivals.filter (Arrival.accepted nfa prune)).length := by
  rw [records, records, size_accepted_addRound, size_loops_addRound]
  omega

end Report

/-- A search between two rounds: what it has seen, and the paths that are alive. -/
structure Stage where
  report : Report
  live : List Path

namespace Trail

/-- The configurations that the trail visits. -/
def visited (nfa : Nfa) (T : Trail) : Finset Configuration :=
  (T.root nfa :: (T.root nfa).visits T.edges).toFinset

variable {nfa : Nfa} {word : List Char} {T : Trail}

theorem card_visited_nil (nfa : Nfa) (origin : Nat) :
    (visited nfa { origin, edges := [] }).card = 1 :=
  Finset.card_singleton _

theorem visited_extend (nfa : Nfa) (T : Trail) (t : Transition) :
    (T.extend t).visited nfa =
      insert (((T.root nfa).along T.edges).after t) (T.visited nfa) := by
  change ((T.extend t).configurations nfa).toFinset = _
  rw [configurations_extend, List.toFinset_append, Finset.union_comm]
  rfl

/-- One more transition visits a new configuration, or it closes a loop. -/
theorem card_visited_extend (nfa : Nfa) (T : Trail) (t : Transition) :
    ((T.extend t).visited nfa).card =
      (T.visited nfa).card + if ((T.extend t).path nfa).looped = true then 0 else 1 := by
  rw [visited_extend]
  split_ifs with hloop
  · rw [looped_extend_iff, ← List.mem_toFinset] at hloop
    exact congrArg Finset.card (Finset.insert_eq_of_mem hloop)
  · rw [looped_extend_iff, ← List.mem_toFinset] at hloop
    exact Finset.card_insert_of_notMem hloop

theorem card_visited_le {lo hi : StateId} (hn : nfa.Shaped lo hi) (h : T.Runs nfa word) :
    (T.visited nfa).card ≤ nfa.graph.states.length * (word.length + 1) :=
  h.2.card_visits_le hn hn.start_owned h.1

end Trail

namespace Configuration

/-- A course that is not simple goes round a loop somewhere. -/
theorem exists_loop_of_not_simple
    {c : Configuration} {ts : List Transition} (h : ¬ c.Simple ts) :
    ∃ before loop after, ts = before ++ (loop ++ after) ∧ loop ≠ [] ∧
      (c.along before).along loop = c.along before := by
  induction ts generalizing c with
  | nil =>
      exact absurd c.simple_nil h
  | cons t ts ih =>
      by_cases hback : c ∈ c.after t :: (c.after t).visits ts
      · obtain ⟨us, vs, rfl, hus⟩ := exists_split_of_mem_visits hback
        exact ⟨[], t :: us, vs, rfl, List.cons_ne_nil _ _, hus⟩
      · have htail : ¬ (c.after t).Simple ts := fun hts =>
          h (List.nodup_cons.mpr ⟨hback, hts⟩)
        obtain ⟨before, loop, after, rfl, hne, hloop⟩ := ih htail
        exact ⟨t :: before, loop, after, rfl, hne, hloop⟩

end Configuration

namespace Nfa

variable {nfa : Nfa} {lo hi : StateId} {word : List Char} {prune : Bool} {j k m : Nat}

section Pumping

variable {c : Configuration} {ts : List Transition}

/-- A loop can be gone round any number of times. -/
theorem Course.replicate (h : nfa.Course word c ts) (hloop : c.along ts = c) (n : Nat) :
    nfa.Course word c (List.replicate n ts).flatten := by
  induction n with
  | zero =>
      trivial
  | succ n ih =>
      rw [List.replicate_succ, List.flatten_cons, course_append_iff, hloop]
      exact ⟨h, ih⟩

theorem Course.take (h : nfa.Course word c ts) (n : Nat) : nfa.Course word c (ts.take n) := by
  rw [← List.take_append_drop n ts, course_append_iff] at h
  exact h.1

/-- As soon as one trail comes back somewhere, there are trails of every length. -/
theorem exists_runs_of_not_simple {T : Trail} (hT : T.Runs nfa word) (h : ¬ T.Simple nfa)
    (k : Nat) : ∃ U : Trail, U.Runs nfa word ∧ U.edges.length = k := by
  obtain ⟨before, loop, after, hedges, hne, hloop⟩ := Configuration.exists_loop_of_not_simple h
  have hcourse := hT.2
  rw [hedges, course_append_iff, course_append_iff] at hcourse
  obtain ⟨hbefore, hround, -⟩ := hcourse
  have hlong := course_append_iff.mpr ⟨hbefore, hround.replicate hloop k⟩
  refine ⟨{ origin := T.origin, edges := (before ++ (List.replicate k loop).flatten).take k },
    ⟨hT.1, hlong.take k⟩, ?_⟩
  have hpos := List.length_pos_iff.mpr hne
  have hle : k ≤ k * loop.length := Nat.le_mul_of_pos_right k hpos
  rw [List.length_take, List.length_append, List.length_flatten, List.map_replicate,
    List.sum_replicate, smul_eq_mul]
  omega

/-- A trail that is as long as there are configurations comes back somewhere. -/
theorem exists_runs_of_length_le (hn : nfa.Shaped lo hi) {T : Trail} (hT : T.Runs nfa word)
    (hlen : nfa.graph.states.length * (word.length + 1) ≤ T.edges.length) (k : Nat) :
    ∃ U : Trail, U.Runs nfa word ∧ U.edges.length = k := by
  refine exists_runs_of_not_simple hT (fun hsimple => ?_) k
  have hlt := hT.2.length_lt hn hn.start_owned hT.1 hsimple
  omega

end Pumping

/-- The stage behind one more round; the last stage has none behind it. -/
def nextStage (nfa : Nfa) (word : List Char) (prune : Bool) (s : Stage) : Stage :=
  if s.live = [] then
    s
  else
    { report := s.report.addRound nfa prune (nfa.arrivals word s.live)
      live := ((nfa.arrivals word s.live).filter (Arrival.alive prune)).map Arrival.path }

/-- The search without limits after `k` rounds, or at its end if that comes earlier. -/
def stage (nfa : Nfa) (word : List Char) (prune : Bool) : (k : Nat) → Stage
  | 0 => { report := {}, live := nfa.seeds word }
  | k + 1 => nfa.nextStage word prune (nfa.stage word prune k)

theorem stage_succ_of_live_eq_nil (h : (nfa.stage word prune k).live = []) :
    nfa.stage word prune (k + 1) = nfa.stage word prune k := by
  rw [stage, nextStage, if_pos h]

theorem report_stage_succ (h : (nfa.stage word prune k).live ≠ []) :
    (nfa.stage word prune (k + 1)).report =
      (nfa.stage word prune k).report.addRound nfa prune
        (nfa.arrivals word (nfa.stage word prune k).live) := by
  rw [stage, nextStage, if_neg h]

theorem live_stage_succ (nfa : Nfa) (word : List Char) (prune : Bool) (k : Nat) :
    (nfa.stage word prune (k + 1)).live =
      ((nfa.arrivals word (nfa.stage word prune k).live).filter (Arrival.alive prune)).map
        Arrival.path := by
  by_cases h : (nfa.stage word prune k).live = []
  · rw [stage_succ_of_live_eq_nil h, h]
    rfl
  · rw [stage, nextStage, if_neg h]

/-- Nothing comes behind the last stage. -/
theorem stage_eq_of_le (h : (nfa.stage word prune m).live = []) (hle : m ≤ k) :
    nfa.stage word prune k = nfa.stage word prune m := by
  induction k, hle using Nat.le_induction with
  | base =>
      rfl
  | succ k _ ih =>
      rw [stage_succ_of_live_eq_nil (by rw [ih, h]), ih]

theorem stage_eq_of_live_eq_nil (hm : (nfa.stage word prune m).live = [])
    (hk : (nfa.stage word prune k).live = []) :
    nfa.stage word prune m = nfa.stage word prune k := by
  rcases Nat.le_total m k with hle | hle
  · exact (stage_eq_of_le hm hle).symm
  · exact stage_eq_of_le hk hle

theorem live_stage_ne_nil_of_le (h : (nfa.stage word prune k).live ≠ []) (hle : j ≤ k) :
    (nfa.stage word prune j).live ≠ [] :=
  fun hj => h (stage_eq_of_le hj hle ▸ hj)

theorem live_stage_zero_ne_nil (nfa : Nfa) (word : List Char) (prune : Bool) :
    (nfa.stage word prune 0).live ≠ [] := by
  simp [stage, seeds]

/-- The numbers of live paths are noted round by round. -/
theorem lives_stage (h : ∀ j < k, (nfa.stage word prune j).live ≠ []) :
    (nfa.stage word prune k).report.lives.toList =
      (List.range k).map fun j => (nfa.stage word prune (j + 1)).live.length := by
  induction k with
  | zero =>
      rfl
  | succ k ih =>
      have hlast : (nfa.stage word prune (k + 1)).live.length =
          ((nfa.arrivals word (nfa.stage word prune k).live).filter
            (Arrival.alive prune)).length := by
        rw [live_stage_succ, List.length_map]
      rw [report_stage_succ (h k (Nat.lt_succ_self k)), Report.addRound, Array.toList_push,
        ih fun j hj => h j (Nat.lt_succ_of_lt hj), List.range_succ, List.map_append,
        List.map_singleton, hlast]

theorem rounds_stage (h : ∀ j < k, (nfa.stage word prune j).live ≠ []) :
    (nfa.stage word prune k).report.rounds = k := by
  rw [Report.rounds, ← Array.length_toList, lives_stage h, List.length_map, List.length_range]

theorem rounds_stage_le (nfa : Nfa) (word : List Char) (prune : Bool) (k : Nat) :
    (nfa.stage word prune k).report.rounds ≤ k := by
  induction k with
  | zero =>
      exact le_rfl
  | succ k ih =>
      by_cases h : (nfa.stage word prune k).live = []
      · rw [stage_succ_of_live_eq_nil h]
        exact Nat.le_succ_of_le ih
      · rw [report_stage_succ h, Report.rounds_addRound]
        exact Nat.succ_le_succ ih

theorem size_loops_stage_succ (nfa : Nfa) (word : List Char) (prune : Bool) (k : Nat) :
    (nfa.stage word prune (k + 1)).report.loops.size =
      (nfa.stage word prune k).report.loops.size +
        ((nfa.arrivals word (nfa.stage word prune k).live).filter Arrival.looped).length := by
  by_cases h : (nfa.stage word prune k).live = []
  · rw [stage_succ_of_live_eq_nil h, h]
    rfl
  · rw [report_stage_succ h, Report.size_loops_addRound]

/-- A live path has taken a trail with as many edges as there were rounds.  In every round
it came to a configuration that was new to it, or left a loop in the report. -/
theorem exists_runs_of_mem_live
    (hf : nfa.graph.Filed) {p : Path} (hp : p ∈ (nfa.stage word prune k).live) :
    ∃ T : Trail, T.Runs nfa word ∧ T.edges.length = k ∧ T.path nfa = p ∧
      k + 1 ≤ (T.visited nfa).card + (nfa.stage word prune k).report.loops.size := by
  induction k generalizing p with
  | zero =>
      obtain ⟨i, hi, rfl⟩ := List.mem_map.mp hp
      refine ⟨{ origin := i, edges := [] },
        ⟨Nat.le_of_lt_succ (List.mem_range.mp hi), trivial⟩, rfl, rfl, ?_⟩
      rw [Trail.card_visited_nil]
      exact Nat.le_add_right 1 _
  | succ k ih =>
      rw [live_stage_succ] at hp
      obtain ⟨a, ha, rfl⟩ := List.mem_map.mp hp
      obtain ⟨harrives, -⟩ := List.mem_filter.mp ha
      obtain ⟨q, hq, t, ht, rfl⟩ := (mem_arrivals_iff nfa word _ _).mp harrives
      obtain ⟨T, hT, hlen, rfl, hle⟩ := ih hq
      refine ⟨T.extend t,
        (T.runs_extend_iff nfa t).mpr ⟨hT, (mem_crossable_iff hf _ _ _).mp ht⟩, ?_,
        T.path_extend nfa t, ?_⟩
      · rw [Trail.extend, List.length_append, hlen, List.length_singleton]
      · rw [Trail.card_visited_extend, size_loops_stage_succ]
        split_ifs with hloop
        · rw [← T.path_extend nfa t] at harrives
          have hnoted : Arrival.ofPath ((T.extend t).path nfa) ∈
              (nfa.arrivals word (nfa.stage word prune k).live).filter Arrival.looped :=
            List.mem_filter.mpr ⟨harrives, hloop⟩
          have hpos := List.length_pos_of_mem hnoted
          omega
        · omega

/-- While paths are alive, the rounds are fewer than the configurations and the records. -/
theorem lt_add_records (hn : nfa.Shaped lo hi) (h : (nfa.stage word prune k).live ≠ []) :
    k < nfa.graph.states.length * (word.length + 1) +
      (nfa.stage word prune k).report.records := by
  obtain ⟨p, hp⟩ := List.exists_mem_of_ne_nil _ h
  obtain ⟨T, hT, -, -, hle⟩ := exists_runs_of_mem_live hn.filed hp
  have hcard := Trail.card_visited_le hn hT
  rw [Report.records]
  omega

/-- A search that gives up looped paths follows the simple trails. -/
theorem live_stage_prune (nfa : Nfa) (word : List Char) (k : Nat) :
    (nfa.stage word true k).live = (nfa.trails word k).map (Trail.path nfa) := by
  induction k with
  | zero =>
      exact seeds_eq nfa word
  | succ k ih =>
      rw [live_stage_succ, ih, live_trails]

theorem live_stage_prune_eq_nil (hn : nfa.Shaped lo hi) (word : List Char) :
    (nfa.stage word true (nfa.graph.states.length * (word.length + 1))).live = [] := by
  rw [live_stage_prune, trails_eq_nil hn, List.map_nil]

/-- A search that keeps looped paths follows all trails. -/
theorem mem_live_of_runs (hf : nfa.graph.Filed) {T : Trail} (hT : T.Runs nfa word) :
    T.path nfa ∈ (nfa.stage word false T.edges.length).live := by
  rcases T with ⟨origin, edges⟩
  induction edges using List.reverseRecOn with
  | nil =>
      exact List.mem_map_of_mem (List.mem_range.mpr (Nat.lt_succ_of_le hT.1))
  | append_singleton ts t ih =>
      obtain ⟨hts, hcross⟩ := (Trail.runs_extend_iff nfa ⟨origin, ts⟩ t).mp hT
      have hlen : (ts ++ [t]).length = ts.length + 1 := by
        rw [List.length_append, List.length_singleton]
      change (Trail.extend ⟨origin, ts⟩ t).path nfa ∈ (nfa.stage word false (ts ++ [t]).length).live
      rw [hlen, live_stage_succ, Trail.path_extend]
      refine List.mem_map.mpr ⟨.ofPath _, List.mem_filter.mpr ⟨?_, rfl⟩, rfl⟩
      exact (mem_arrivals_iff nfa word _ _).mpr
        ⟨_, ih hts, t, (mem_crossable_iff hf _ _ _).mpr hcross, rfl⟩

/-- A search without limits that ends at all has ended after as many rounds as there are
configurations. -/
theorem live_stage_eq_nil (hn : nfa.Shaped lo hi) (hm : (nfa.stage word prune m).live = []) :
    (nfa.stage word prune (nfa.graph.states.length * (word.length + 1))).live = [] := by
  cases prune with
  | true =>
      exact live_stage_prune_eq_nil hn word
  | false =>
      by_contra hne
      obtain ⟨p, hp⟩ := List.exists_mem_of_ne_nil _ hne
      obtain ⟨T, hT, hlen, -, -⟩ := exists_runs_of_mem_live hn.filed hp
      obtain ⟨U, hU, rfl⟩ := exists_runs_of_length_le hn hT hlen.ge m
      exact List.ne_nil_of_mem (mem_live_of_runs hn.filed hU) hm

end Nfa

end Backtracking
