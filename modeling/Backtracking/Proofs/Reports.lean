import Backtracking.Proofs.Trails

/-!
# What a search reports

The report of a pruned search is read off the trails of its rounds: the matches are the
trails that end in the finish, the loops are the trails that a round offered and that
close a loop, and the census counts all others where they arrive.

**End.**  Some round is the first without a trail, and a search without limits ends with
the report of this round (`Nfa.exists_search_eq_ok`).

**Sizes.**  No trail is taken twice, so numbers of trails are compared through lists of
trails without repetitions.

**Results.**
* `Nfa.accepted_reportAfter`, `Nfa.loops_reportAfter`, `Nfa.lives_reportAfter`,
  `Nfa.census_reportAfter`: what is reported after some rounds.
* `Nfa.length_le_count`, `Nfa.report_le`: bounds from below and from above.
-/

namespace Backtracking

namespace Census

theorem count_add (c : Census) (d e : Destination) :
    (c.add d).count e = c.count e + if d = e then 1 else 0 := by
  simp only [add, count, Std.ExtTreeMap.getElem?_insert, Std.LawfulEqCmp.compare_eq_iff_eq]
  split_ifs with h
  · rw [h]
    rfl
  · rfl

theorem count_foldl_add (ds : List Destination) (c : Census) (e : Destination) :
    (ds.foldl add c).count e = c.count e + ds.count e := by
  induction ds generalizing c with
  | nil =>
      rfl
  | cons d ds ih =>
      rw [List.foldl_cons, ih, count_add, List.count_cons]
      simp only [beq_iff_eq]
      omega

/-- The largest number is at least as large as every other one. -/
theorem count_le_most_foldl
    (ds : List Destination) (c : Census) (h : ∀ e, c.count e ≤ c.most) (e : Destination) :
    (ds.foldl add c).count e ≤ (ds.foldl add c).most := by
  induction ds generalizing c with
  | nil =>
      exact h e
  | cons d ds ih =>
      refine ih (c.add d) fun e => ?_
      have hle := h e
      rw [count_add]
      simp only [add]
      split_ifs with hde
      · subst hde
        omega
      · omega

/-- It is no larger than a bound on all of them. -/
theorem most_foldl_le
    {bound : Nat} (ds : List Destination) (c : Census) (hc : c.most ≤ bound)
    (h : ∀ e, (ds.foldl add c).count e ≤ bound) : (ds.foldl add c).most ≤ bound := by
  induction ds generalizing c with
  | nil =>
      exact hc
  | cons d ds ih =>
      refine ih (c.add d) ?_ h
      have hd := h d
      rw [count_foldl_add, List.count_cons_self] at hd
      simp only [add]
      omega

end Census

theorem foldl_max_le
    {bound : Nat} (l : List Nat) (a : Nat) (ha : a ≤ bound) (h : ∀ b ∈ l, b ≤ bound) :
    l.foldl max a ≤ bound := by
  induction l generalizing a with
  | nil =>
      exact ha
  | cons b l ih =>
      obtain ⟨hb, hl⟩ := List.forall_mem_cons.mp h
      exact ih _ (max_le ha hb) hl

namespace Trail

/-- Where a trail arrives. -/
def destination (nfa : Nfa) (T : Trail) : Destination :=
  .ofPath (T.path nfa)

theorem destination_eq (nfa : Nfa) (T : Trail) :
    T.destination nfa =
      { origin := T.origin
        state := ((T.root nfa).along T.edges).state
        offset := ((T.root nfa).along T.edges).offset } := by
  rw [destination, Destination.ofPath, origin_path, here_path]

end Trail

namespace Nfa

variable {nfa : Nfa} {lo hi : StateId} {word : List Char}

/-- The report of a pruned search after `m` rounds. -/
def reportAfter (nfa : Nfa) (word : List Char) : (m : Nat) → Report
  | 0 => {}
  | m + 1 =>
      (nfa.reportAfter word m).addRound nfa true
        (nfa.arrivals word ((nfa.trails word m).map (Trail.path nfa)))

/-- The simple trails with at least one edge and at most `m` edges. -/
def trailsUpTo (nfa : Nfa) (word : List Char) (m : Nat) : List Trail :=
  (List.range m).flatMap fun k => nfa.trails word (k + 1)

theorem trailsUpTo_succ (nfa : Nfa) (word : List Char) (m : Nat) :
    nfa.trailsUpTo word (m + 1) = nfa.trailsUpTo word m ++ nfa.trails word (m + 1) := by
  simp [trailsUpTo, List.range_succ, List.flatMap_append]

/-- The arrivals of a round are its live paths with one more transition. -/
theorem mem_arrivals_iff (nfa : Nfa) (word : List Char) (live : List Path) (a : Arrival) :
    a ∈ nfa.arrivals word live ↔
      ∃ p ∈ live, ∃ t ∈ nfa.crossable word p.here,
        .ofPath (p.extend (p.here.after t)) = a := by
  simp only [arrivals, Path.successors, moves_eq, List.mem_flatMap, List.map_map, List.mem_map,
    Function.comp_apply]

theorem arrivals_trails (nfa : Nfa) (word : List Char) (k : Nat) :
    nfa.arrivals word ((nfa.trails word k).map (Trail.path nfa)) =
      (nfa.offered word k).map fun T => Arrival.ofPath (T.path nfa) := by
  rw [arrivals, offered, List.flatMap_map, List.map_flatMap]
  refine List.flatMap_congr fun T _ => ?_
  rw [successors_path, List.map_map]
  rfl

/-- The live paths of the next round are its trails. -/
theorem live_trails (nfa : Nfa) (word : List Char) (k : Nat) :
    ((nfa.arrivals word ((nfa.trails word k).map (Trail.path nfa))).filter
      (Arrival.alive true)).map Arrival.path =
      (nfa.trails word (k + 1)).map (Trail.path nfa) := by
  rw [arrivals_trails, List.filter_map, List.map_map, trails_succ]
  rfl

/-- Without limits the search goes on to the first round without trails. -/
theorem explore_eq
    {m : Nat} (hm : nfa.trails word m = []) (hbefore : ∀ j < m, nfa.trails word j ≠ [])
    (rounds k : Nat) (hk : k ≤ m) (enough : m - k < rounds) :
    nfa.explore word { maxRounds := none, maxPaths := none } rounds (nfa.reportAfter word k)
      ((nfa.trails word k).map (Trail.path nfa)) =
      { report := nfa.reportAfter word m, ending := .exhausted } := by
  induction rounds generalizing k with
  | zero =>
      omega
  | succ rounds ih =>
      rw [explore]
      rcases Nat.eq_or_lt_of_le hk with rfl | hlt
      · simp [hm]
      · rw [if_neg (by simpa using hbefore k hlt)]
        exact (congrArg _ (live_trails nfa word k)).trans (ih (k + 1) hlt (by omega))

theorem seeds_eq (nfa : Nfa) (word : List Char) :
    nfa.seeds word = (nfa.trails word 0).map (Trail.path nfa) := by
  rw [seeds, trails, List.map_map]
  rfl

/-- A search without limits ends, with the report of the first round without trails. -/
theorem search_eq_ok (hn : nfa.Shaped lo hi) {m : Nat} (hm : nfa.trails word m = [])
    (hbefore : ∀ j < m, nfa.trails word j ≠ []) :
    nfa.search word { maxRounds := none, maxPaths := none } =
      .ok (nfa.reportAfter word m) := by
  have hle : m ≤ nfa.graph.states.length * (word.length + 1) := by
    by_contra hlt
    exact hbefore _ (by omega) (trails_eq_nil hn word)
  have hrun := explore_eq hm hbefore
    (nfa.roundBound word { maxRounds := none, maxPaths := none }) 0 (Nat.zero_le _)
    (by simp only [roundBound, Option.getD_none]; omega)
  rw [search, searchRun, seeds_eq]
  exact congrArg SearchRun.result hrun

/-- There is such a round. -/
theorem exists_first_trails_eq_nil (hn : nfa.Shaped lo hi) (word : List Char) :
    ∃ m, nfa.trails word m = [] ∧ ∀ j < m, nfa.trails word j ≠ [] := by
  classical
  have hex : ∃ m, nfa.trails word m = [] := ⟨_, trails_eq_nil hn word⟩
  exact ⟨Nat.find hex, Nat.find_spec hex, fun j hj => Nat.find_min hex hj⟩

theorem exists_search_eq_ok (hn : nfa.Shaped lo hi) (word : List Char) :
    ∃ m, nfa.trails word m = [] ∧
      nfa.search word { maxRounds := none, maxPaths := none } =
        .ok (nfa.reportAfter word m) := by
  obtain ⟨m, hm, hbefore⟩ := exists_first_trails_eq_nil hn word
  exact ⟨m, hm, search_eq_ok hn hm hbefore⟩

theorem exists_eq_reportAfter_of_search (hn : nfa.Shaped lo hi) {report : Report}
    (hsearch : nfa.search word { maxRounds := none, maxPaths := none } = .ok report) :
    ∃ m, nfa.trails word m = [] ∧ report = nfa.reportAfter word m := by
  obtain ⟨m, hm, hreport⟩ := exists_search_eq_ok hn word
  exact ⟨m, hm, Except.ok.inj (hsearch.symm.trans hreport)⟩

theorem accepted_reportAfter (nfa : Nfa) (word : List Char) (m : Nat) :
    (nfa.reportAfter word m).accepted.toList =
      ((nfa.trailsUpTo word m).filter fun T => (T.path nfa).here.state == nfa.finish).map
        fun T => { span := (T.path nfa).span, steps := (T.path nfa).steps } := by
  induction m with
  | zero =>
      rfl
  | succ m ih =>
      rw [reportAfter, Report.addRound]
      simp only [Array.appendList_eq_append, Array.toList_appendList, ih, trailsUpTo_succ,
        List.filter_append, List.map_append, arrivals_trails, List.filter_map, List.map_map,
        trails_succ, List.filter_filter]
      congr 2
      refine List.filter_congr fun T _ => ?_
      exact Bool.and_comm _ _

theorem loops_reportAfter (nfa : Nfa) (word : List Char) (m : Nat) :
    (nfa.reportAfter word m).loops.toList =
      ((List.range m).flatMap fun k =>
        (nfa.offered word k).filter fun T => (T.path nfa).looped).map (Trail.path nfa) := by
  induction m with
  | zero =>
      rfl
  | succ m ih =>
      rw [reportAfter, Report.addRound]
      simp only [Array.appendList_eq_append, Array.toList_appendList, ih, List.range_succ,
        List.flatMap_append, List.map_append, arrivals_trails, List.filter_map, List.map_map,
        List.flatMap_singleton]
      rfl

theorem lives_reportAfter (nfa : Nfa) (word : List Char) (m : Nat) :
    (nfa.reportAfter word m).lives.toList =
      (List.range m).map fun k => (nfa.trails word (k + 1)).length := by
  induction m with
  | zero =>
      rfl
  | succ m ih =>
      have hlive := congrArg List.length (live_trails nfa word m)
      rw [List.length_map, List.length_map] at hlive
      rw [reportAfter, Report.addRound]
      simp only [Array.toList_push, ih, List.range_succ, List.map_append, hlive,
        List.map_singleton]

theorem census_reportAfter (nfa : Nfa) (word : List Char) (m : Nat) :
    (nfa.reportAfter word m).census =
      ((nfa.trailsUpTo word m).map (Trail.destination nfa)).foldl Census.add {} := by
  induction m with
  | zero =>
      rfl
  | succ m ih =>
      rw [trailsUpTo_succ, List.map_append, List.foldl_append, ← ih, trails_succ]
      rw [reportAfter, Report.addRound]
      simp only [arrivals_trails, List.filter_map, List.map_map]
      rfl

theorem nodup_flatMap_trails (hn : nfa.Shaped lo hi) (word : List Char)
    {l : List Nat} (hl : l.Nodup) : (l.flatMap (nfa.trails word)).Nodup := by
  refine List.nodup_flatMap.mpr ⟨fun k _ => nodup_trails hn word k, hl.imp fun hne T hk hj => ?_⟩
  obtain ⟨-, -, rfl⟩ := (mem_trails_iff hn.filed word _ T).mp hk
  obtain ⟨-, -, hlen⟩ := (mem_trails_iff hn.filed word _ T).mp hj
  exact hne hlen

theorem nodup_trailsUpTo (hn : nfa.Shaped lo hi) (word : List Char) (m : Nat) :
    (nfa.trailsUpTo word m).Nodup := by
  have h := nodup_flatMap_trails hn word ((List.nodup_range (n := m)).map Nat.succ_injective)
  rwa [List.flatMap_map] at h

theorem mem_trailsUpTo_iff (hf : nfa.graph.Filed) {m : Nat} (hm : nfa.trails word m = [])
    (T : Trail) :
    T ∈ nfa.trailsUpTo word m ↔ T.Runs nfa word ∧ T.Simple nfa ∧ T.edges ≠ [] := by
  simp only [trailsUpTo, List.mem_flatMap, List.mem_range, mem_trails_iff hf]
  constructor
  · rintro ⟨k, -, hruns, hsimple, hlen⟩
    exact ⟨hruns, hsimple, List.ne_nil_of_length_eq_add_one hlen⟩
  · rintro ⟨hruns, hsimple, hne⟩
    have hpos := List.length_pos_iff.mpr hne
    have hlt := length_lt_of_trails_eq_nil hf hm hruns hsimple
    exact ⟨T.edges.length - 1, by omega, hruns, hsimple, by omega⟩

/-- The census counts the trails that arrive. -/
theorem count_reportAfter (nfa : Nfa) (word : List Char) (m : Nat) (d : Destination) :
    (nfa.reportAfter word m).census.count d =
      ((nfa.trailsUpTo word m).filter fun T => T.destination nfa == d).length := by
  rw [census_reportAfter, Census.count_foldl_add, List.count, List.countP_map,
    List.countP_eq_length_filter]
  exact Nat.zero_add _

theorem count_le_ambiguity_of_search (hn : nfa.Shaped lo hi) {report : Report}
    (hsearch : nfa.search word { maxRounds := none, maxPaths := none } = .ok report)
    (d : Destination) : report.census.count d ≤ report.ambiguity := by
  obtain ⟨m, -, rfl⟩ := exists_eq_reportAfter_of_search hn hsearch
  rw [Report.ambiguity, census_reportAfter]
  exact Census.count_le_most_foldl _ _ (fun _ => Nat.zero_le _) d

/-- Different trails to one destination are counted there. -/
theorem length_le_count
    (hf : nfa.graph.Filed) {m : Nat} (hm : nfa.trails word m = []) {l : List Trail}
    (hl : l.Nodup) (d : Destination)
    (h : ∀ T ∈ l, T.Runs nfa word ∧ T.Simple nfa ∧ T.edges ≠ [] ∧ T.destination nfa = d) :
    l.length ≤ (nfa.reportAfter word m).census.count d := by
  have hsub : l ⊆ (nfa.trailsUpTo word m).filter fun T => T.destination nfa == d := by
    intro T hT
    obtain ⟨hruns, hsimple, hne, hd⟩ := h T hT
    rw [List.mem_filter, mem_trailsUpTo_iff hf hm, beq_iff_eq]
    exact ⟨⟨hruns, hsimple, hne⟩, hd⟩
  rw [count_reportAfter]
  exact (hl.subperm hsub).length_le

/-- A trail can be prolonged in at most as many ways as there are states. -/
theorem length_prolong_le (hn : nfa.Shaped lo hi) (word : List Char) (T : Trail) :
    (nfa.prolong word T).length ≤ nfa.graph.states.length := by
  have hsub : (nfa.graph.row (T.path nfa).here.state).map Edge.target ⊆ nfa.graph.states := by
    intro t ht
    obtain ⟨e, he, rfl⟩ := List.mem_map.mp ht
    exact (Graph.mem_states _ _).mpr (hn.inside (l := e.label) (t := e.target) he).2
  have hrow := ((hn.nodup_targets _).subperm hsub).length_le
  rw [List.length_map] at hrow
  rw [prolong, List.length_map, crossable]
  refine (List.length_filter_le _ _).trans ?_
  rwa [← Graph.length_row]

theorem length_flatMap_le
    {α β : Type} {f : α → List β} {bound : Nat} (h : ∀ a, (f a).length ≤ bound) (l : List α) :
    (l.flatMap f).length ≤ bound * l.length := by
  induction l with
  | nil =>
      simp
  | cons a l ih =>
      have ha := h a
      rw [List.flatMap_cons, List.length_append, List.length_cons, Nat.mul_succ]
      omega

/-- A bound on the number of simple trails bounds everything that is reported. -/
theorem report_le (hn : nfa.Shaped lo hi) {m bound : Nat} (hm : nfa.trails word m = [])
    (hbound : ∀ l : List Trail, l.Nodup → (∀ T ∈ l, T.Runs nfa word ∧ T.Simple nfa) →
      l.length ≤ bound) :
    (nfa.reportAfter word m).ambiguity ≤ bound ∧
      (nfa.reportAfter word m).peakPaths ≤ bound ∧
      (nfa.reportAfter word m).records ≤ bound + nfa.graph.states.length * bound := by
  have htrails : (nfa.trailsUpTo word m).length ≤ bound := by
    refine hbound _ (nodup_trailsUpTo hn word m) fun T hT => ?_
    obtain ⟨hruns, hsimple, -⟩ := (mem_trailsUpTo_iff hn.filed hm T).mp hT
    exact ⟨hruns, hsimple⟩
  have hlevel : ∀ k, (nfa.trails word k).length ≤ bound := fun k => by
    refine hbound _ (nodup_trails hn word k) fun T hT => ?_
    obtain ⟨hruns, hsimple, -⟩ := (mem_trails_iff hn.filed word k T).mp hT
    exact ⟨hruns, hsimple⟩
  have hall : ((List.range m).flatMap (nfa.trails word)).length ≤ bound := by
    refine hbound _ (nodup_flatMap_trails hn word List.nodup_range) fun T hT => ?_
    obtain ⟨k, -, hT⟩ := List.mem_flatMap.mp hT
    obtain ⟨hruns, hsimple, -⟩ := (mem_trails_iff hn.filed word k T).mp hT
    exact ⟨hruns, hsimple⟩
  refine ⟨?_, ?_, ?_⟩
  · rw [Report.ambiguity, census_reportAfter]
    refine Census.most_foldl_le _ _ (Nat.zero_le _) fun e => ?_
    rw [Census.count_foldl_add]
    have hcount : ((nfa.trailsUpTo word m).map (Trail.destination nfa)).count e ≤ bound :=
      List.count_le_length.trans (by rwa [List.length_map])
    simpa [Census.count] using hcount
  · rw [Report.peakPaths, ← Array.foldl_toList, lives_reportAfter]
    refine foldl_max_le _ _ (Nat.zero_le _) fun b hb => ?_
    obtain ⟨k, -, rfl⟩ := List.mem_map.mp hb
    exact hlevel (k + 1)
  · have haccepted : (nfa.reportAfter word m).accepted.size ≤ bound := by
      rw [← Array.length_toList, accepted_reportAfter, List.length_map]
      exact (List.length_filter_le _ _).trans htrails
    have hloops : (nfa.reportAfter word m).loops.size ≤ nfa.graph.states.length * bound := by
      rw [← Array.length_toList, loops_reportAfter, List.length_map, ← List.filter_flatMap]
      refine (List.length_filter_le _ _).trans ?_
      have hoffered : (List.range m).flatMap (nfa.offered word) =
          ((List.range m).flatMap (nfa.trails word)).flatMap (nfa.prolong word) :=
        List.flatMap_assoc.symm
      rw [hoffered]
      exact (length_flatMap_le (length_prolong_le hn word) _).trans
        (Nat.mul_le_mul_left _ hall)
    exact Nat.add_le_add haccepted hloops

end Nfa

end Backtracking
