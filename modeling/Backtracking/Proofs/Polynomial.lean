import Backtracking.Proofs.Components
import Backtracking.Proofs.Reports

/-!
# Without a witness the number of paths is polynomial

A simple trail either consumes nothing, or it consists of a run, the edge of a character, a
journey, and a last run (`Nfa.exists_parts`).  Anchors hold only at the two ends of the
text, so between two consumed characters none is crossed.

**Count.**  A run of a simple trail visits no state twice, which leaves a number of runs
that does not depend on the text.  Where a check finds nothing the journeys over a word are
polynomially many, and then so are the trails.

**Results.**
* `Nfa.atMost_trails`: how many simple trails there are over a text.
* `Compiler.report_le_of_check`: the bound on everything that a search reports.
-/

namespace Backtracking

/-- Every list is cut behind the last transition that consumes. -/
theorem exists_tail_split (ts : List Transition) :
    ∃ us vs, ts = us ++ vs ∧ (∀ t ∈ us.getLast?, t.consumes = true) ∧
      ∀ t ∈ vs, t.consumes = false := by
  by_cases h : consumedWord ts = []
  · exact ⟨[], ts, rfl, by simp, (consumedWord_eq_nil_iff ts).mp h⟩
  · obtain ⟨us, t, vs, rfl, ht, hvs⟩ :=
      exists_last_split (exists_consumes_of_consumedWord_ne_nil h)
    exact ⟨us ++ [t], vs, by simp, by simp [ht], hvs⟩

namespace Nfa

variable {nfa : Nfa} {lo hi : StateId} {word : List Char} {c : Configuration}
variable {ts : List Transition}

/-- Behind the text nothing is consumed. -/
theorem Course.not_consumes_of_le (h : nfa.Course word c ts) (hend : word.length ≤ c.offset) :
    ∀ t ∈ ts, t.consumes = false := by
  induction ts generalizing c with
  | nil =>
      simp
  | cons t ts ih =>
      rcases h with ⟨-, -, hp, hts⟩
      have ht : t.consumes = false := by
        rw [← Bool.not_eq_true]
        intro hc
        obtain ⟨a, ha⟩ := label_eq_char_of_consumes hc
        obtain ⟨hlt, -⟩ := List.getElem?_eq_some_iff.mp ((Transition.passes_char_iff ha).mp hp)
        omega
      refine List.forall_mem_cons.mpr ⟨ht, ih hts ?_⟩
      rwa [Configuration.offset_after, Transition.width_of_not_consumes ht]

/-- Behind the first character and before the last one no anchor holds. -/
theorem Course.anchorFree (h : nfa.Course word c ts) (hpos : 0 < c.offset)
    (hlast : ∀ t ∈ ts.getLast?, t.consumes = true) : AnchorFree ts := by
  induction ts generalizing c with
  | nil =>
      exact fun t ht => absurd ht List.not_mem_nil
  | cons t ts ih =>
      have hcourse := h
      rcases h with ⟨-, -, hp, hts⟩
      have hrest : AnchorFree ts := by
        refine ih hts ?_ fun u hu => hlast u ?_
        · rw [Configuration.offset_after]
          omega
        · rw [List.getLast?_cons, Option.mem_def.mp hu]
          rfl
      refine List.forall_mem_cons.mpr ⟨⟨fun hl => ?_, fun hl => ?_⟩, hrest⟩
      · rw [Transition.passes_startAnchor_iff hl] at hp
        omega
      · rw [Transition.passes_endAnchor_iff hl] at hp
        obtain ⟨u, hu⟩ : ∃ u, u ∈ (t :: ts).getLast? := ⟨_, rfl⟩
        have hnone := hcourse.not_consumes_of_le hp.ge u (List.mem_of_mem_getLast? hu)
        exact Bool.noConfusion ((hlast u hu).symm.trans hnone)

/-- A course consumes what stands in the text. -/
theorem Course.consumedWord_prefix (h : nfa.Course word c ts) :
    consumedWord ts <+: word.drop c.offset := by
  induction ts generalizing c with
  | nil =>
      exact List.nil_prefix
  | cons t ts ih =>
      rcases h with ⟨-, -, hp, hts⟩
      have ih := ih hts
      rw [Configuration.offset_after] at ih
      rw [consumedWord_cons]
      cases hc : t.consumes with
      | false =>
          rw [Transition.width_of_not_consumes hc] at ih
          rwa [consumedWord_of_not_consumes hc]
      | true =>
          obtain ⟨a, ha⟩ := label_eq_char_of_consumes hc
          obtain ⟨hlt, hget⟩ :=
            List.getElem?_eq_some_iff.mp ((Transition.passes_char_iff ha).mp hp)
          rw [Transition.width_of_consumes hc] at ih
          rw [consumedWord_of_label_eq_char ha, List.drop_eq_getElem_cons hlt, hget]
          exact List.cons_prefix_cons.mpr ⟨rfl, ih⟩

/-- A run that a simple trail can take: not longer than the states are many. -/
def IsRun (nfa : Nfa) (ts : List Transition) : Prop :=
  ts.length ≤ nfa.graph.states.length ∧ ∀ t ∈ ts, t ∈ nfa.graph.transitions

theorem atMost_isRun (nfa : Nfa) :
    AtMost ((nfa.graph.transitions.length + 1) ^ nfa.graph.states.length) nfa.IsRun :=
  (atMost_mem nfa.graph.transitions).lists _

theorem Course.mem_transitions (hf : nfa.graph.Filed) (h : nfa.Course word c ts) :
    ∀ t ∈ ts, t ∈ nfa.graph.transitions :=
  fun t ht => (hf.mem_transitions t).mpr (h.walk.arc t ht)

theorem Course.isRun (hn : nfa.Shaped lo hi) (h : nfa.Course word c ts)
    (hstate : nfa.Owns c.state) (hsimple : c.Simple ts)
    (hnone : ∀ t ∈ ts, t.consumes = false) : nfa.IsRun ts := by
  refine ⟨?_, h.mem_transitions hn.filed⟩
  have hnd := (Configuration.simple_iff_of_not_consumes hnone c).mp hsimple
  have hsub : c.state :: ts.map Transition.target ⊆ nfa.graph.states := by
    refine List.cons_subset.mpr ⟨(Graph.mem_states _ _).mpr hstate, fun s hs => ?_⟩
    obtain ⟨t, ht, rfl⟩ := List.mem_map.mp hs
    exact (Graph.mem_states _ _).mpr (hn.inside (h.walk.arc t ht)).2
  have hlen := (hnd.subperm hsub).length_le
  rw [List.length_cons, List.length_map] at hlen
  omega

/-- A simple trail is a run, or two runs around the edge of a character and a journey. -/
theorem exists_parts (hn : nfa.Shaped lo hi) {T : Trail} (hruns : T.Runs nfa word)
    (hsimple : T.Simple nfa) :
    nfa.IsRun T.edges ∨
      ∃ a e ρ b, T.edges = a ++ e :: (legs ρ ++ b) ∧ nfa.IsRun a ∧
        e ∈ nfa.graph.transitions ∧ e.target ∈ nfa.entered ∧ nfa.IsRun b ∧
        (∃ q, nfa.Journey e.target ρ q) ∧ ρ.length ≤ word.length ∧
        ρ.map Route.letter = (word.drop (T.origin + 1)).take ρ.length := by
  rcases T with ⟨origin, edges⟩
  rcases hruns with ⟨-, hcourse⟩
  have hroot : nfa.Owns (Trail.root nfa ⟨origin, edges⟩).state := hn.start_owned
  by_cases hword : consumedWord edges = []
  · exact Or.inl (hcourse.isRun hn hroot hsimple ((consumedWord_eq_nil_iff _).mp hword))
  · right
    obtain ⟨a, e, rest, rfl, ha, he⟩ :=
      exists_first_split (exists_consumes_of_consumedWord_ne_nil hword)
    obtain ⟨us, b, rfl, hlast, hb⟩ := exists_tail_split rest
    obtain ⟨letter, hletter⟩ := label_eq_char_of_consumes he
    have hruns := runsSimple_of_simple hsimple
    obtain ⟨hasimple, hrestsimple⟩ :=
      (Configuration.simple_append_cons_iff he _ a _).mp hsimple
    obtain ⟨hacourse, hsource, harc, -, hrestcourse⟩ := course_append_iff.mp hcourse
    obtain ⟨huscourse, hbcourse⟩ := course_append_iff.mp hrestcourse
    have hoffset : (((Trail.root nfa ⟨origin, a ++ e :: (us ++ b)⟩).along a).after e).offset =
        origin + 1 := by
      rw [Configuration.offset_after, Configuration.offset_along,
        (consumedWord_eq_nil_iff a).mpr ha, Transition.width_of_consumes he]
      rfl
    obtain ⟨ρ, hρ, rfl⟩ := exists_journey_of_walk huscourse.walk
      (huscourse.anchorFree (by omega) hlast) he
      (RunsSimple.of_append_append a b (by simpa using hruns)) hlast
    have hprefix := huscourse.consumedWord_prefix
    rw [hoffset, hρ.consumedWord_legs] at hprefix
    refine ⟨a, e, ρ, b, rfl, hacourse.isRun hn hroot hasimple ha,
      hcourse.mem_transitions hn.filed e (by simp), ?_, ?_, ⟨_, hρ⟩, ?_, ?_⟩
    · have hreach : nfa.Reaches nfa.start e.source := hsource ▸ hacourse.walk.reaches
      exact (mem_entered_iff nfa _).mpr
        ⟨hreach.tail ⟨_, harc⟩, e.source, letter, hletter ▸ harc⟩
    · exact hbcourse.isRun hn (huscourse.walk.owns hn (hn.inside harc).2)
        hrestsimple.of_append_right hb
    · have hle := hprefix.length_le
      rw [List.length_map, List.length_drop] at hle
      omega
    · rw [List.prefix_iff_eq_take.mp hprefix, List.length_map]

/-- How many simple trails there are at most over a text of `n` characters. -/
def trailBound (nfa : Nfa) (n : Nat) : Nat :=
  let runs := (nfa.graph.transitions.length + 1) ^ nfa.graph.states.length
  let journeys := (nfa.graph.states.length + nfa.everyRoute.length * n) ^
    nfa.graph.states.length
  (n + 1) * (runs + runs * (nfa.graph.transitions.length * ((n + 1) * (journeys * runs))))

/-- Where a check finds nothing, simple trails are few. -/
theorem atMost_trails (hn : nfa.Shaped lo hi)
    {limits : CheckLimits} (hcheck : nfa.check limits = .ok none) (word : List Char) :
    AtMost (nfa.trailBound word.length) fun T : Trail =>
      T.Runs nfa word ∧ T.Simple nfa := by
  have hjourneys : ∀ s (w : List Char), w.length ≤ word.length →
      AtMost ((nfa.graph.states.length + nfa.everyRoute.length * word.length) ^
        nfa.graph.states.length) fun ρ =>
        s ∈ nfa.entered ∧ (∃ q, nfa.Journey s ρ q) ∧ ρ.map Route.letter = w := by
    intro s w hw
    by_cases hs : s ∈ nfa.entered
    · exact (atMost_journeys hn hcheck _ hs (card_ahead_le s) w hw).mono le_rfl
        fun ρ hρ => hρ.2
    · exact atMost_of_forall_not _ fun ρ hρ => hs hρ.1
  have hrun := atMost_isRun nfa
  have hlong := fun i => hrun.bind fun a _ =>
    (atMost_mem nfa.graph.transitions).bind fun e _ =>
      (atMost_mem (List.range (word.length + 1))).bind fun j _ =>
        (hjourneys e.target ((word.drop (i + 1)).take j)
          (by rw [List.length_take, List.length_drop]; omega)).bind fun ρ _ =>
          hrun.image fun b => a ++ e :: (legs ρ ++ b)
  have htrails := (atMost_mem (List.range (word.length + 1))).bind fun i _ =>
    (hrun.or (hlong i)).image fun ts => ({ origin := i, edges := ts } : Trail)
  refine htrails.mono ?_ ?_
  · rw [List.length_range]
    rfl
  · rintro T ⟨hruns, hsimple⟩
    refine ⟨T.origin, List.mem_range.mpr (Nat.lt_succ_of_le hruns.1), T.edges, ?_, rfl⟩
    rcases exists_parts hn hruns hsimple with hshort |
      ⟨a, e, ρ, b, hedges, ha, he, hent, hb, hρ, hlen, hletters⟩
    · exact Or.inl hshort
    · exact Or.inr ⟨a, ha, e, he, ρ.length, List.mem_range.mpr (Nat.lt_succ_of_le hlen), ρ,
        ⟨hent, hρ, hletters⟩, b, hb, hedges⟩

/-- The bound is polynomial. -/
theorem exists_trailBound_le (nfa : Nfa) :
    ∃ K d, ∀ n, nfa.trailBound n ≤ K * (n + 1) ^ d := by
  obtain ⟨S, hS⟩ : ∃ S, S = nfa.graph.states.length := ⟨_, rfl⟩
  obtain ⟨A, hA⟩ : ∃ A, A = nfa.graph.transitions.length := ⟨_, rfl⟩
  obtain ⟨R, hR⟩ : ∃ R, R = nfa.everyRoute.length := ⟨_, rfl⟩
  refine ⟨(A + 1) ^ S + (A + 1) ^ S * (A * ((S + R) ^ S * (A + 1) ^ S)), S + 2, fun n => ?_⟩
  rw [trailBound, ← hS, ← hA, ← hR]
  have hjourneys : (S + R * n) ^ S ≤ (S + R) ^ S * (n + 1) ^ S := by
    rw [← Nat.mul_pow]
    refine Nat.pow_le_pow_left ?_ S
    nlinarith
  have hone : 1 ≤ (n + 1) ^ (S + 1) := Nat.one_le_pow _ _ (Nat.succ_pos n)
  generalize (A + 1) ^ S = Z
  generalize (S + R) ^ S = B at *
  calc (n + 1) * (Z + Z * (A * ((n + 1) * ((S + R * n) ^ S * Z))))
      ≤ (n + 1) * (Z * (n + 1) ^ (S + 1) +
          Z * (A * ((n + 1) * (B * (n + 1) ^ S * Z)))) := by
        gcongr
        exact Nat.le_mul_of_pos_right Z hone
    _ = (Z + Z * (A * (B * Z))) * (n + 1) ^ (S + 2) := by
        ring

end Nfa

/-- If a compiled tree is found not to be vulnerable, everything that the pruned search of
a text reports is polynomial in the length of the text. -/
theorem Compiler.report_le_of_check
    {c c' : Compiler} {p : Pattern} {nfa : Nfa} (hok : c.compileTree p = .ok (nfa, c'))
    {limits : CheckLimits} (hcheck : nfa.check limits = .ok none) :
    ∃ K d, ∀ word : List Char,
      ∃ report, nfa.search word { maxRounds := none, maxPaths := none } = .ok report ∧
        report.ambiguity ≤ K * (word.length + 1) ^ d ∧
        report.peakPaths ≤ K * (word.length + 1) ^ d ∧
        report.records ≤ K * (word.length + 1) ^ d := by
  have hn := Compiler.shaped_of_compileTree hok
  obtain ⟨K, d, hK⟩ := nfa.exists_trailBound_le
  refine ⟨K + nfa.graph.states.length * K, d, fun word => ?_⟩
  obtain ⟨m, hm, hsearch⟩ := Nfa.exists_search_eq_ok hn word
  obtain ⟨hambiguity, hpeak, hrecords⟩ := Nfa.report_le hn hm fun l hl hmem =>
    (Nfa.atMost_trails hn hcheck word).length_le hl hmem
  have hbound := hK word.length
  have hstates := Nat.mul_le_mul_left nfa.graph.states.length hbound
  rw [Nat.add_mul, Nat.mul_assoc]
  exact ⟨_, hsearch, by omega, by omega, by omega⟩

/-- What a search reports of `a*` is polynomial. -/
theorem Compiler.report_le_of_one_letter :
    ∃ nfa c', Compiler.compileTree {} (.star (.literal 'a')) = .ok (nfa, c') ∧
      nfa.check { maxSteps := none } = .ok none ∧
      ∃ K d, ∀ word : List Char,
        ∃ report, nfa.search word { maxRounds := none, maxPaths := none } = .ok report ∧
          report.ambiguity ≤ K * (word.length + 1) ^ d ∧
          report.peakPaths ≤ K * (word.length + 1) ^ d ∧
          report.records ≤ K * (word.length + 1) ^ d := by
  obtain ⟨nfa, c', v, hok, hcheck, rfl⟩ := Compiler.exists_check_of_decide
    (Compiler.compileTree {} (.star (.literal 'a'))) { maxSteps := none }
    (fun _ v => v = none) (by decide +kernel)
  exact ⟨nfa, c', hok, hcheck, Compiler.report_le_of_check hok hcheck⟩

end Backtracking
