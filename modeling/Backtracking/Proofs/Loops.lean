import Backtracking.Proofs.Spans

/-!
# The loops of a search are the first revisits

A trail makes a first revisit if its last transition leads back to a configuration that it has
visited, and no other configuration of it is visited twice.  A pruned search follows a trail
until then and records it.

**Once.**  A record keeps the configurations of a trail only.  Where no two edges are parallel
these determine the transitions (`Nfa.Course.eq_of_visits_eq`), so different trails leave
different records.

**Idle part.**  Offsets never fall, so what a loop takes between the two visits of its last
configuration consumes nothing.

**Results.**
* `Trail.FirstRevisit`, `Trail.RecordedAs`: which trails are recorded, and how.
* `Compiler.exists_search_loops`: the loops of a pruned search of a compiled tree.
-/

namespace Backtracking

/-- Nothing is consumed on the way from a configuration back to it. -/
theorem Configuration.consumedWord_eq_nil_of_along_eq {c : Configuration}
    {loop : List Transition} (h : c.along loop = c) : consumedWord loop = [] := by
  have hoffset := congrArg Configuration.offset h
  rw [offset_along] at hoffset
  exact List.length_eq_zero_iff.mp (by omega)

namespace Trail

variable {nfa : Nfa} {word : List Char} {T : Trail}

/-- The trail can be taken, and only its last configuration has been visited before. -/
structure FirstRevisit (nfa : Nfa) (word : List Char) (T : Trail) : Prop where
  runs : T.Runs nfa word
  nodup : (T.configurations nfa).dropLast.Nodup
  revisit : (T.root nfa).along T.edges ∈ (T.configurations nfa).dropLast

/-- What the record of a loop says about the trail that was taken. -/
structure RecordedAs (nfa : Nfa) (T : Trail) (record : Path) : Prop where
  history_eq : record.history = T.configurations nfa
  history_head : record.history.head? = some ⟨nfa.start, record.span.start⟩
  history_last : record.history.getLast? = some ⟨record.here.state, record.span.stop⟩
  history_length : record.history.length = T.edges.length + 1
  /-- The last configuration has been visited before the trail was complete. -/
  earlier : ∃ before loop, T.edges = before ++ loop ∧ loop ≠ [] ∧
    (T.root nfa).along before = record.here
  /-- From there on nothing was consumed. -/
  idle : ∀ before loop, T.edges = before ++ loop →
    (T.root nfa).along before = record.here → consumedWord loop = []

theorem firstRevisit_extend_iff (nfa : Nfa) (word : List Char) (T : Trail) (t : Transition) :
    (T.extend t).FirstRevisit nfa word ↔
      (T.extend t).Runs nfa word ∧ T.Simple nfa ∧ ((T.extend t).path nfa).looped = true := by
  have hlast : (T.root nfa).along (T.extend t).edges = ((T.root nfa).along T.edges).after t :=
    Configuration.along_append _ _ _
  have hbefore : ((T.extend t).configurations nfa).dropLast = T.configurations nfa := by
    rw [configurations_extend, List.dropLast_concat]
  rw [looped_extend_iff, ← hlast]
  constructor
  · rintro ⟨hruns, hnodup, hrevisit⟩
    rw [hbefore] at hnodup hrevisit
    exact ⟨hruns, hnodup, hrevisit⟩
  · rintro ⟨hruns, hsimple, hmem⟩
    exact ⟨hruns, hbefore.symm ▸ hsimple, hbefore.symm ▸ hmem⟩

/-- A trail without transitions revisits nothing. -/
theorem FirstRevisit.exists_extend (h : T.FirstRevisit nfa word) :
    ∃ (U : Trail) (t : Transition), T = U.extend t := by
  rcases T with ⟨origin, edges⟩
  rcases List.eq_nil_or_concat edges with rfl | ⟨ts, t, rfl⟩
  · exact absurd h.revisit List.not_mem_nil
  · exact ⟨⟨origin, ts⟩, t, by rw [List.concat_eq_append]; rfl⟩

/-- A first revisit is recorded by its path. -/
theorem FirstRevisit.recordedAs (h : T.FirstRevisit nfa word) :
    T.RecordedAs nfa (T.path nfa) where
  history_eq := history_path nfa T
  history_head := by
    rw [history_path, span_path]
    rfl
  history_last := by
    rw [Path.history, List.getLast?_reverse]
    rfl
  history_length := by
    rw [history_path, List.length_cons, Configuration.length_visits]
  earlier := by
    obtain ⟨U, t, rfl⟩ := h.exists_extend
    have hmem := h.revisit
    rw [configurations_extend, List.dropLast_concat] at hmem
    obtain ⟨before, loop, hsplit, hbefore⟩ := Configuration.exists_split_of_mem_visits hmem
    refine ⟨before, loop ++ [t], ?_, by simp, ?_⟩
    · rw [extend, hsplit, List.append_assoc]
    · rw [here_path]
      exact hbefore
  idle before loop hsplit hbefore := by
    rw [here_path, hsplit, Configuration.along_append] at hbefore
    exact Configuration.consumedWord_eq_nil_of_along_eq hbefore.symm

end Trail

namespace Nfa

variable {nfa : Nfa} {lo hi : StateId} {word : List Char}

/-- The configurations along a course determine its transitions. -/
theorem Course.eq_of_visits_eq (hn : nfa.Shaped lo hi) {c : Configuration}
    {ts us : List Transition} (hts : nfa.Course word c ts) (hus : nfa.Course word c us)
    (h : c.visits ts = c.visits us) : ts = us := by
  induction ts generalizing c us with
  | nil =>
      exact (List.length_eq_zero_iff.mp (by
        rw [← Configuration.length_visits c us, ← h]
        rfl)).symm
  | cons t ts ih =>
      cases us with
      | nil =>
          cases h
      | cons u us =>
          obtain ⟨hafter, hrest⟩ := List.cons.inj h
          rcases hts with ⟨ht, htarc, -, hts⟩
          rcases hus with ⟨hu, huarc, -, hus⟩
          have hedge : (⟨t.label, t.target⟩ : Edge) = ⟨u.label, u.target⟩ :=
            List.inj_on_of_nodup_map (hn.nodup_targets c.state) (ht ▸ htarc) (hu ▸ huarc)
              (congrArg Configuration.state hafter)
          have htu : t = u := by
            cases t
            cases u
            simp_all
          subst htu
          rw [ih hts hus hrest]

/-- Trails that can be taken are told apart by their paths. -/
theorem eq_of_path_eq (hn : nfa.Shaped lo hi) {T U : Trail} (hT : T.Runs nfa word)
    (hU : U.Runs nfa word) (h : T.path nfa = U.path nfa) : T = U := by
  have hhistory := congrArg Path.history h
  rw [Trail.history_path, Trail.history_path] at hhistory
  obtain ⟨hroot, hvisits⟩ := List.cons.inj hhistory
  have hedges : T.edges = U.edges :=
    hT.2.eq_of_visits_eq hn (hroot ▸ hU.2) (hvisits.trans (by rw [hroot]))
  cases T
  cases U
  exact congrArg₂ Trail.mk (congrArg Configuration.offset hroot) hedges

/-- A round offers the simple trails with one transition more. -/
theorem extend_mem_offered_iff (hf : nfa.graph.Filed) (word : List Char) (k : Nat) (T : Trail)
    (t : Transition) :
    T.extend t ∈ nfa.offered word k ↔
      (T.extend t).Runs nfa word ∧ T.Simple nfa ∧ T.edges.length = k := by
  simp only [offered, List.mem_flatMap, prolong, List.mem_map, mem_crossable_iff hf,
    mem_trails_iff hf, Trail.extend_inj, Trail.runs_extend_iff]
  constructor
  · rintro ⟨U, ⟨hruns, hsimple, hlen⟩, u, hcross, rfl, rfl⟩
    exact ⟨⟨hruns, hcross⟩, hsimple, hlen⟩
  · rintro ⟨⟨hruns, hcross⟩, hsimple, hlen⟩
    exact ⟨T, ⟨hruns, hsimple, hlen⟩, t, hcross, rfl, rfl⟩

theorem exists_extend_of_mem_offered {k : Nat} {T : Trail} (h : T ∈ nfa.offered word k) :
    ∃ (U : Trail) (t : Transition), T = U.extend t := by
  obtain ⟨U, -, hT⟩ := List.mem_flatMap.mp h
  obtain ⟨t, -, rfl⟩ := List.mem_map.mp hT
  exact ⟨U, t, rfl⟩

/-- The trails that close a loop in one of the first `m` rounds. -/
def loopsUpTo (nfa : Nfa) (word : List Char) (m : Nat) : List Trail :=
  (List.range m).flatMap fun k => (nfa.offered word k).filter fun T => (T.path nfa).looped

/-- Up to the first round without trails these are all first revisits. -/
theorem mem_loopsUpTo_iff (hf : nfa.graph.Filed) {m : Nat} (hm : nfa.trails word m = [])
    (T : Trail) :
    T ∈ nfa.loopsUpTo word m ↔ T.FirstRevisit nfa word := by
  simp only [loopsUpTo, List.mem_flatMap, List.mem_range, List.mem_filter]
  constructor
  · rintro ⟨k, -, hoffered, hlooped⟩
    obtain ⟨U, t, rfl⟩ := exists_extend_of_mem_offered hoffered
    obtain ⟨hruns, hsimple, -⟩ := (extend_mem_offered_iff hf word k U t).mp hoffered
    exact (Trail.firstRevisit_extend_iff nfa word U t).mpr ⟨hruns, hsimple, hlooped⟩
  · intro h
    obtain ⟨U, t, rfl⟩ := h.exists_extend
    obtain ⟨hruns, hsimple, hlooped⟩ := (Trail.firstRevisit_extend_iff nfa word U t).mp h
    have hU := ((U.runs_extend_iff nfa t).mp hruns).1
    exact ⟨U.edges.length, length_lt_of_trails_eq_nil hf hm hU hsimple,
      (extend_mem_offered_iff hf word _ U t).mpr ⟨hruns, hsimple, rfl⟩, hlooped⟩

theorem nodup_loopsUpTo (hn : nfa.Shaped lo hi) (word : List Char) (m : Nat) :
    (nfa.loopsUpTo word m).Nodup := by
  refine List.nodup_flatMap.mpr ⟨fun k _ => ?_, List.nodup_range.imp fun hne T hk hj => ?_⟩
  · exact (nodup_offered hn word k (nodup_trails hn word k)).filter _
  · -- the round in which a trail is offered is told by its length
    obtain ⟨U, t, rfl⟩ := exists_extend_of_mem_offered (List.mem_filter.mp hk).1
    have hk := (extend_mem_offered_iff hn.filed word _ U t).mp (List.mem_filter.mp hk).1
    have hj := (extend_mem_offered_iff hn.filed word _ U t).mp (List.mem_filter.mp hj).1
    exact hne (hk.2.2.symm.trans hj.2.2)

/-- The loops of a search are the records of the first revisits, each of them once. -/
structure RecordsFirstRevisits (nfa : Nfa) (word : List Char) (loops : List Path) : Prop where
  nodup : loops.Nodup
  exists_trails : ∃ revisits : List Trail, revisits.Nodup ∧
    (∀ T, T ∈ revisits ↔ T.FirstRevisit nfa word) ∧
    List.Forall₂ (Trail.RecordedAs nfa) revisits loops

theorem recordsFirstRevisits_reportAfter (hn : nfa.Shaped lo hi) {m : Nat}
    (hm : nfa.trails word m = []) :
    nfa.RecordsFirstRevisits word (nfa.reportAfter word m).loops.toList := by
  have hloops : (nfa.reportAfter word m).loops.toList =
      (nfa.loopsUpTo word m).map (Trail.path nfa) :=
    loops_reportAfter nfa word m
  have hnodup := nodup_loopsUpTo hn word m
  have hmem := mem_loopsUpTo_iff hn.filed hm
  rw [hloops]
  refine ⟨hnodup.map_on fun T hT U hU h => ?_, _, hnodup, hmem, ?_⟩
  · exact eq_of_path_eq hn ((hmem T).mp hT).runs ((hmem U).mp hU).runs h
  · rw [List.forall₂_map_right_iff, List.forall₂_same]
    exact fun T hT => ((hmem T).mp hT).recordedAs

end Nfa

/-- The loops of the pruned search without limits of a compiled tree are the records of the
trails that end with their first revisit of a configuration, each of them once. -/
theorem Compiler.exists_search_loops (c : Compiler) (p : Pattern) :
    ∃ nfa c', c.compileTree p = .ok (nfa, c') ∧ ∀ word, ∃ report,
      nfa.search word { maxRounds := none, maxPaths := none } = .ok report ∧
        nfa.RecordsFirstRevisits word report.loops.toList := by
  obtain ⟨nfa, c', hok, hfrag⟩ := c.exists_compileTree p
  refine ⟨nfa, c', hok, fun word => ?_⟩
  obtain ⟨m, hm, hsearch⟩ := Nfa.exists_search_eq_ok hfrag.shaped word
  exact ⟨_, hsearch, Nfa.recordsFirstRevisits_reportAfter hfrag.shaped hm⟩

end Backtracking
