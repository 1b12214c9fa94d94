import Backtracking.Proofs.Spans

/-!
# A pruned search enumerates the simple trails

Nothing is lost, counted twice or put out of order: the matches of a pruned search
without limits are the simple trails to the finish in a fixed order, and its numbers are
numbers of simple trails.

**Order.**  Shorter trails come first, then those that begin earlier, and then the edges
decide by their positions in the rows of their sources (`Trail.Before`).  One round keeps
the order: trails that differ go on to trails that differ in the same place, and the
successors of one trail differ in their last edge.

**Results.**
* `Nfa.pairwise_trails`: the trails of a round are in order.
* `Nfa.Enumerated`: what a report says about the simple trails over a text.
* `Compiler.exists_search_enumerated`: the report of every search without limits says so.
-/

namespace Backtracking

/-- A list without repetitions is as long as the set of its elements is large. -/
theorem ncard_eq_length {α : Type} [DecidableEq α] {l : List α} {s : Set α}
    (hl : l.Nodup) (h : ∀ a, a ∈ s ↔ a ∈ l) : s.ncard = l.length := by
  have hs : s = (l.toFinset : Set α) := by
    ext a
    rw [h, List.coe_toFinset]
    rfl
  rw [hs, Set.ncard_coe_finset, List.toFinset_card_of_nodup hl]

/-- Where lists of one length differ already, it does not matter how they go on. -/
theorem lex_append_of_length_eq {α : Type} {r : α → α → Prop} {as bs : List α}
    (h : List.Lex r as bs) (hlen : as.length = bs.length) (cs ds : List α) :
    List.Lex r (as ++ cs) (bs ++ ds) := by
  induction h with
  | nil =>
      cases hlen
  | cons _ ih =>
      exact .cons (ih (Nat.succ.inj hlen))
  | rel hab =>
      exact .rel hab

/-- In a list without repetitions the elements are in the order of their indices. -/
theorem pairwise_idxOf_lt {α : Type} [DecidableEq α] {l : List α} (hl : l.Nodup) :
    l.Pairwise fun a b => l.idxOf a < l.idxOf b := by
  refine List.pairwise_iff_getElem.mpr fun i j hi hj hlt => ?_
  rwa [hl.idxOf_getElem i hi, hl.idxOf_getElem j hj]

namespace Census

/-- The largest number is the number of some destination. -/
theorem exists_count_eq_most_foldl (ds : List Destination) (c : Census)
    (h : ∃ d, c.count d = c.most) :
    ∃ d, (ds.foldl add c).count d = (ds.foldl add c).most := by
  induction ds generalizing c with
  | nil =>
      exact h
  | cons d ds ih =>
      refine ih (c.add d) ?_
      obtain ⟨e, he⟩ := h
      by_cases hmost : c.count d + 1 ≤ c.most
      · refine ⟨e, ?_⟩
        have hne : d ≠ e := by
          rintro rfl
          omega
        rw [count_add, if_neg hne, he]
        exact (max_eq_left hmost).symm
      · refine ⟨d, ?_⟩
        rw [count_add, if_pos rfl]
        exact (max_eq_right (by omega)).symm

end Census

/-- Where a transition stands among those out of its source, in the order of insertion. -/
def Nfa.position (nfa : Nfa) (t : Transition) : Nat :=
  (nfa.graph.transitionsFrom t.source).idxOf t

namespace Trail

/-- The order of the matches: shorter trails, then earlier origins, then earlier edges. -/
def Before (nfa : Nfa) (T U : Trail) : Prop :=
  T.edges.length < U.edges.length ∨
    T.edges.length = U.edges.length ∧
      (T.origin < U.origin ∨
        T.origin = U.origin ∧
          List.Lex (· < ·) (T.edges.map nfa.position) (U.edges.map nfa.position))

/-- The match that is recorded for a trail. -/
def toMatch (nfa : Nfa) (T : Trail) : Match :=
  { span := { start := T.origin, stop := ((T.root nfa).along T.edges).offset }
    steps := T.edges.length }

variable {nfa : Nfa} {T U : Trail} {t u : Transition}

theorem toMatch_eq (nfa : Nfa) (T : Trail) :
    { span := (T.path nfa).span, steps := (T.path nfa).steps } = T.toMatch nfa := by
  have hlen : (T.path nfa).steps = T.edges.length := by
    have h := congrArg List.length (T.history_path nfa)
    simpa [Path.steps, Path.history, Configuration.length_visits] using h
  rw [span_path, hlen, toMatch]

/-- Trails that go on from different trails differ where these do. -/
theorem Before.extend (h : T.Before nfa U) (hlen : T.edges.length = U.edges.length) :
    (T.extend t).Before nfa (U.extend u) := by
  rcases h with hlt | ⟨-, horigin⟩
  · omega
  · refine Or.inr ⟨by simp [Trail.extend, hlen], horigin.imp_right ?_⟩
    rintro ⟨heq, hlex⟩
    refine ⟨heq, ?_⟩
    simp only [Trail.extend, List.map_append]
    exact lex_append_of_length_eq hlex (by simpa using hlen) _ _

/-- Trails that go on from one trail differ in the last edge. -/
theorem before_extend_of_position_lt (h : nfa.position t < nfa.position u) :
    (T.extend t).Before nfa (T.extend u) := by
  refine Or.inr ⟨by simp [Trail.extend], Or.inr ⟨rfl, ?_⟩⟩
  simp only [Trail.extend, List.map_append]
  exact List.Lex.append_left _ (.rel h) _

end Trail

namespace Nfa

variable {nfa : Nfa} {lo hi : StateId} {word : List Char} {m : Nat}

/-- The transitions that can be crossed are listed in the order of their positions. -/
theorem pairwise_crossable (hn : nfa.Shaped lo hi) (word : List Char) (c : Configuration) :
    (nfa.crossable word c).Pairwise fun t u => nfa.position t < nfa.position u := by
  have hfrom : (nfa.graph.transitionsFrom c.state).Nodup :=
    nodup_transitionsFrom (hn.nodup_targets _).of_map
  refine List.Pairwise.filter _ ((pairwise_idxOf_lt hfrom).imp_of_mem fun {t u} ht hu hlt => ?_)
  have hts := ((mem_transitionsFrom_iff hn.filed _ t).mp ht).1
  have hus := ((mem_transitionsFrom_iff hn.filed _ u).mp hu).1
  rwa [position, position, ← hts, ← hus]

/-- One more round keeps the order. -/
theorem pairwise_offered (hn : nfa.Shaped lo hi) (word : List Char) (k : Nat)
    (htrails : (nfa.trails word k).Pairwise (Trail.Before nfa)) :
    (nfa.offered word k).Pairwise (Trail.Before nfa) := by
  refine List.pairwise_flatMap.mpr ⟨fun T _ => ?_, htrails.imp_of_mem fun {T U} hT hU h => ?_⟩
  · refine List.pairwise_map.mpr ((pairwise_crossable hn word _).imp fun hlt => ?_)
    exact Trail.before_extend_of_position_lt hlt
  · have hlen : T.edges.length = U.edges.length :=
      ((mem_trails_iff hn.filed word k T).mp hT).2.2.trans
        ((mem_trails_iff hn.filed word k U).mp hU).2.2.symm
    intro V hV W hW
    obtain ⟨t, -, rfl⟩ := List.mem_map.mp hV
    obtain ⟨u, -, rfl⟩ := List.mem_map.mp hW
    exact h.extend hlen

/-- The trails of every round are in order. -/
theorem pairwise_trails (hn : nfa.Shaped lo hi) (word : List Char) (k : Nat) :
    (nfa.trails word k).Pairwise (Trail.Before nfa) := by
  induction k with
  | zero =>
      refine List.pairwise_map.mpr (List.pairwise_lt_range.imp fun hlt => ?_)
      exact Or.inr ⟨rfl, Or.inl hlt⟩
  | succ k ih =>
      exact (pairwise_offered hn word k ih).filter _

theorem pairwise_trailsUpTo (hn : nfa.Shaped lo hi) (word : List Char) (m : Nat) :
    (nfa.trailsUpTo word m).Pairwise (Trail.Before nfa) := by
  refine List.pairwise_flatMap.mpr ⟨fun k _ => pairwise_trails hn word (k + 1), ?_⟩
  refine List.pairwise_lt_range.imp fun {j k} hlt T hT U hU => Or.inl ?_
  rw [((mem_trails_iff hn.filed word _ T).mp hT).2.2,
    ((mem_trails_iff hn.filed word _ U).mp hU).2.2]
  omega

/-- The trails over a text that visit no configuration twice. -/
def simpleTrails (nfa : Nfa) (word : List Char) : Set Trail :=
  {T | T.Runs nfa word ∧ T.Simple nfa}

/-- What a report says if it enumerates the simple trails over a text. -/
structure Enumerated (nfa : Nfa) (word : List Char) (report : Report) : Prop where
  /-- There are finitely many simple trails, so that their numbers mean something. -/
  finite : (nfa.simpleTrails word).Finite
  /-- The matches are the simple trails to the finish, each once and in order. -/
  accepted : ∃ l : List Trail,
    (∀ T, T ∈ l ↔ T ∈ nfa.simpleTrails word ∧ T.Finishes nfa) ∧
      l.Nodup ∧ l.Pairwise (Trail.Before nfa) ∧
      report.accepted.toList = l.map (Trail.toMatch nfa)
  /-- The last round extends the longest simple trails. -/
  rounds :
    IsGreatest {n | ∃ T ∈ nfa.simpleTrails word, n = T.edges.length + 1} report.rounds
  /-- The largest number of simple trails of one length. -/
  peakPaths : IsGreatest
    {n | ∃ k, 1 ≤ k ∧ n = {T ∈ nfa.simpleTrails word | T.edges.length = k}.ncard}
    report.peakPaths
  /-- The largest number of simple trails from one origin to one configuration. -/
  ambiguity : IsGreatest
    {n | ∃ i q o, n = {T ∈ nfa.simpleTrails word | T.edges ≠ [] ∧ T.origin = i ∧
      (T.root nfa).along T.edges = { state := q, offset := o }}.ncard}
    report.ambiguity

theorem ncard_trails (hn : nfa.Shaped lo hi) (word : List Char) (k : Nat) :
    {T ∈ nfa.simpleTrails word | T.edges.length = k}.ncard = (nfa.trails word k).length := by
  refine ncard_eq_length (nodup_trails hn word k) fun T => ?_
  rw [mem_trails_iff hn.filed, ← and_assoc]
  rfl

/-- The census counts the simple trails to every destination. -/
theorem ncard_arrivals (hn : nfa.Shaped lo hi) (hm : nfa.trails word m = [])
    (i : Nat) (q : StateId) (o : Nat) :
    {T ∈ nfa.simpleTrails word | T.edges ≠ [] ∧ T.origin = i ∧
      (T.root nfa).along T.edges = { state := q, offset := o }}.ncard =
      (nfa.reportAfter word m).census.count { origin := i, state := q, offset := o } := by
  rw [count_reportAfter]
  refine ncard_eq_length ((nodup_trailsUpTo hn word m).filter _) fun T => ?_
  rw [List.mem_filter, mem_trailsUpTo_iff hn.filed hm, beq_iff_eq, T.destination_eq,
    Destination.mk.injEq, ← Configuration.mk.injEq]
  simp only [← and_assoc]
  rfl

theorem rounds_reportAfter (nfa : Nfa) (word : List Char) (m : Nat) :
    (nfa.reportAfter word m).rounds = m := by
  rw [Report.rounds, ← Array.length_toList, lives_reportAfter, List.length_map,
    List.length_range]

/-- The report of the first round without trails enumerates the simple trails. -/
theorem enumerated_reportAfter (hn : nfa.Shaped lo hi) (hm : nfa.trails word m = [])
    (hbefore : ∀ j < m, nfa.trails word j ≠ []) :
    nfa.Enumerated word (nfa.reportAfter word m) := by
  -- there is always a trail without edges
  have hpos : 0 < m := by
    refine Nat.pos_of_ne_zero ?_
    rintro rfl
    simp [trails] at hm
  refine ⟨?finite, ?accepted, ?rounds, ?peakPaths, ?ambiguity⟩
  case finite =>
    refine Set.Finite.subset (List.finite_toSet ((List.range m).flatMap (nfa.trails word)))
      fun T hT => ?_
    have hlt := length_lt_of_trails_eq_nil hn.filed hm hT.1 hT.2
    exact List.mem_flatMap.mpr ⟨T.edges.length, List.mem_range.mpr hlt,
      (mem_trails_iff hn.filed word _ T).mpr ⟨hT.1, hT.2, rfl⟩⟩
  case accepted =>
    refine ⟨(nfa.trailsUpTo word m).filter fun T => (T.path nfa).here.state == nfa.finish,
      fun T => ?_, (nodup_trailsUpTo hn word m).filter _,
      (pairwise_trailsUpTo hn word m).filter _, ?_⟩
    · rw [List.mem_filter, mem_trailsUpTo_iff hn.filed hm, beq_iff_eq, Trail.here_path]
      constructor
      · rintro ⟨⟨hruns, hsimple, -⟩, hfinish⟩
        exact ⟨⟨hruns, hsimple⟩, hfinish⟩
      · rintro ⟨⟨hruns, hsimple⟩, hfinish⟩
        exact ⟨⟨hruns, hsimple, hfinish.edges_ne_nil hn⟩, hfinish⟩
    · rw [accepted_reportAfter]
      exact List.map_congr_left fun T _ => T.toMatch_eq nfa
  case rounds =>
    rw [rounds_reportAfter]
    constructor
    · obtain ⟨T, hT⟩ := List.exists_mem_of_ne_nil _ (hbefore (m - 1) (by omega))
      obtain ⟨hruns, hsimple, hlen⟩ := (mem_trails_iff hn.filed word _ T).mp hT
      exact ⟨T, ⟨hruns, hsimple⟩, by omega⟩
    · rintro n ⟨T, hT, rfl⟩
      exact length_lt_of_trails_eq_nil hn.filed hm hT.1 hT.2
  case peakPaths =>
    simp only [ncard_trails hn]
    have hne : ((List.range m).map fun k => (nfa.trails word (k + 1)).length) ≠ [] := by
      simpa using hpos.ne'
    rw [Report.peakPaths, ← Array.foldl_toList, lives_reportAfter,
      List.foldl_max_eq_max hne, Nat.zero_max]
    constructor
    · obtain ⟨k, -, hk⟩ := List.mem_map.mp (List.max_mem hne)
      exact ⟨k + 1, Nat.le_add_left 1 k, hk.symm⟩
    · rintro n ⟨k, hk, rfl⟩
      rcases Nat.lt_or_ge m k with hlt | hle
      · rw [trails_eq_nil_of_le hm hlt.le]
        exact Nat.zero_le _
      · refine List.le_max_of_mem (List.mem_map.mpr ⟨k - 1, List.mem_range.mpr (by omega), ?_⟩)
        rw [Nat.sub_add_cancel hk]
  case ambiguity =>
    simp only [ncard_arrivals hn hm]
    rw [Report.ambiguity, census_reportAfter]
    constructor
    · obtain ⟨⟨i, q, o⟩, hd⟩ := Census.exists_count_eq_most_foldl
        ((nfa.trailsUpTo word m).map (Trail.destination nfa)) {} ⟨⟨0, 0, 0⟩, rfl⟩
      exact ⟨i, q, o, hd.symm⟩
    · rintro n ⟨i, q, o, rfl⟩
      exact Census.count_le_most_foldl _ _ (fun e => Nat.zero_le _) _

/-- A search without limits ends, and its report enumerates the simple trails. -/
theorem exists_enumerated (hn : nfa.Shaped lo hi) (word : List Char) :
    ∃ report, nfa.search word { maxRounds := none, maxPaths := none } = .ok report ∧
      nfa.Enumerated word report := by
  obtain ⟨m, hm, hbefore⟩ := exists_first_trails_eq_nil hn word
  exact ⟨_, search_eq_ok hn hm hbefore, enumerated_reportAfter hn hm hbefore⟩

end Nfa

/-- The pruned search without limits counts every simple trail of a compiled tree exactly
once: its report enumerates the simple trails over every text. -/
theorem Compiler.exists_search_enumerated (c : Compiler) (p : Pattern) :
    ∃ nfa c', c.compileTree p = .ok (nfa, c') ∧
      ∀ word : List Char, ∃ report,
        nfa.search word { maxRounds := none, maxPaths := none } = .ok report ∧
          nfa.Enumerated word report := by
  obtain ⟨nfa, c', hok, hfrag⟩ := c.exists_compileTree p
  have hn := hfrag.shaped
  refine ⟨nfa, c', hok, fun word => ?_⟩
  obtain ⟨m, hm, hbefore⟩ := Nfa.exists_first_trails_eq_nil hn word
  exact ⟨_, Nfa.search_eq_ok hn hm hbefore, Nfa.enumerated_reportAfter hn hm hbefore⟩

end Backtracking
