import Backtracking.Proofs.Journey
import Backtracking.Proofs.TwinSearch

/-!
# What a verdict says about journeys

A check keeps two routes for an edge and searches pairs of states.  Neither loses two
different journeys from a state back to it over the same word.

**Routes.**  Routes are exchanged for kept ones one after another; the states in between
and the word stay, and two walks that are apart stay apart (`Nfa.exists_joined`).

**Results.**
* `Nfa.exists_journeys_of_check`: a witness is made of two journeys.
* `Nfa.not_canStrand_of_check`: a check that finds none has looked at all journeys.
* `Nfa.exists_check_eq_ok`: without a limit there is a verdict.
-/

namespace Backtracking

theorem append_singleton_ne_iff {α : Type} {l l' : List α} {a b : α} :
    l ++ [a] ≠ l' ++ [b] ↔ l ≠ l' ∨ a ≠ b := by
  rw [Ne, ← List.concat_eq_append, ← List.concat_eq_append, List.concat_inj, not_and_or]

namespace Nfa

open Relation

theorem mem_entered_iff (nfa : Nfa) (t : StateId) :
    t ∈ nfa.entered ↔ nfa.Reaches nfa.start t ∧ ∃ s a, nfa.Arc s (.char a) t := by
  have hedge := nfa.graph.exists_mem_transitions_iff fun e =>
    (∃ a, e.label = .char a) ∧ nfa.Reaches nfa.start e.target ∧ e.target = t
  rw [entered, Std.ExtTreeSet.mem_ofList, List.contains_iff_mem, List.mem_map]
  simp only [List.mem_filter, Bool.and_eq_true, Std.ExtTreeSet.contains_iff_mem,
    mem_reachable_iff_reaches]
  constructor
  · rintro ⟨e, ⟨he, hc, hreach⟩, rfl⟩
    obtain ⟨s, ⟨l, t⟩, hrow, ⟨a, rfl⟩, hreach, rfl⟩ :=
      hedge.mp ⟨e, he, label_eq_char_of_consumes hc, hreach, rfl⟩
    exact ⟨hreach, s, a, hrow⟩
  · rintro ⟨hreach, s, a, ha⟩
    obtain ⟨e, he, ⟨b, hb⟩, hreach, rfl⟩ := hedge.mpr ⟨s, _, ha, ⟨a, rfl⟩, hreach, rfl⟩
    exact ⟨e, ⟨he, consumes_of_label_eq_char hb, hreach⟩, rfl⟩

theorem owns_of_mem_entered
    {nfa : Nfa} {lo hi s : StateId} (hn : nfa.Shaped lo hi) (hs : s ∈ nfa.entered) :
    nfa.Owns s := by
  obtain ⟨-, t, a, ha⟩ := (mem_entered_iff nfa s).mp hs
  exact (hn.inside ha).2

/-- The automaton can get stuck behind a state. -/
def CanStrand (nfa : Nfa) (s : StateId) : Prop :=
  ∃ r, nfa.Reaches s r ∧ r ≠ nfa.finish ∧ ¬ nfa.Slides r nfa.finish

theorem canGetStuck_iff (nfa : Nfa) (s : StateId) :
    nfa.canGetStuck s = true ↔ nfa.CanStrand s := by
  simp only [canGetStuck, CanStrand, List.any_eq_true, Std.ExtTreeSet.mem_toList,
    mem_reachable_iff_reaches, Bool.and_eq_true, bne_iff_ne, Bool.not_eq_true',
    ← Bool.not_eq_true, Std.ExtTreeSet.contains_iff_mem, mem_epsilonReachable_singleton_iff]

/-- A state reaches what the states behind it reach. -/
theorem CanStrand.of_reaches
    {nfa : Nfa} {s t : StateId} (hst : nfa.Reaches s t) (ht : nfa.CanStrand t) :
    nfa.CanStrand s := by
  rcases ht with ⟨r, hr, hne, hslide⟩
  exact ⟨r, ReflTransGen.trans hst hr, hne, hslide⟩

section Table

/-- The routes that a check has collected before it tries the first state. -/
def checkTable (nfa : Nfa) : RouteTable :=
  nfa.keptTable nfa.entered.toList ∅

theorem getElem?_checkTable (nfa : Nfa) (s : StateId) :
    nfa.checkTable[s]? = if s ∈ nfa.entered then some (nfa.keptRoutes s) else none := by
  rw [checkTable, getElem?_keptTable]
  simp only [Std.ExtTreeSet.mem_toList, Std.ExtTreeMap.getElem?_empty]

theorem mem_checkTable_iff (nfa : Nfa) (s : StateId) :
    s ∈ nfa.checkTable ↔ s ∈ nfa.entered := by
  rw [Std.ExtTreeMap.mem_iff_isSome_getElem?, getElem?_checkTable]
  split_ifs with h <;> simp [h]

/-- The routes that a check collects do not depend on its limit. -/
theorem eq_checkTable_of_routeTable
    {nfa : Nfa} {limit : Option Nat} {table : RouteTable} {n : Nat}
    (h : nfa.routeTable limit nfa.entered.toList ∅ 0 = .ok (table, n)) :
    table = nfa.checkTable := by
  rw [routeTable_eq nfa limit _ ∅ (fun l _ => Nat.zero_le l)] at h
  cases hc : charge limit 0 (nfa.entered.toList.map nfa.routeCost).sum with
  | error e =>
      simp [hc, Except.map] at h
  | ok m =>
      rw [hc] at h
      exact (Prod.mk.inj (Except.ok.inj h)).1.symm

theorem mem_routes_checkTable_iff (nfa : Nfa) (s : StateId) (r : Route) :
    r ∈ nfa.checkTable.routes s ↔ s ∈ nfa.entered ∧ r ∈ nfa.keptRoutes s := by
  rw [RouteTable.routes, getElem?_checkTable]
  split_ifs with h <;> simp [h]

variable {nfa : Nfa} {lo hi : StateId} {s p p' : StateId}

/-- Routes lead to states that a check looks at. -/
theorem IsRoute.target_mem_entered
    {r : Route} (hr : nfa.IsRoute s r) (hs : nfa.Reaches nfa.start s) :
    r.target ∈ nfa.entered := by
  refine (mem_entered_iff nfa _).mpr ⟨?_, r.edge.source, r.letter, ?_⟩
  · exact ReflTransGen.trans hs hr.walk_transitions.reaches
  · exact hr.letter ▸ hr.arc

theorem closed_checkTable (hn : nfa.Shaped lo hi) : nfa.checkTable.Closed := by
  intro s r hr
  obtain ⟨hs, hr⟩ := (mem_routes_checkTable_iff nfa s r).mp hr
  rw [mem_checkTable_iff]
  exact (isRoute_of_mem_keptRoutes hn hr).target_mem_entered ((mem_entered_iff nfa s).mp hs).1

theorem Journey.mem_entered
    {rs : List Route} (h : nfa.Journey s rs p) (hs : s ∈ nfa.entered) : p ∈ nfa.entered := by
  induction h with
  | nil =>
      exact hs
  | cons hr _ ih =>
      exact ih (hr.target_mem_entered ((mem_entered_iff nfa _).mp hs).1)

/-- Two walks side by side are two journeys over the same word, one route for each step, and
they are apart if the journeys differ. -/
theorem journeys_of_joined (hn : nfa.Shaped lo hi) {w : TwinWalk}
    (hw : nfa.checkTable.Joined s w) :
    ∃ ρ σ : List Route, w.first = legs ρ ∧ w.second = legs σ ∧
      nfa.Journey s ρ w.here.left ∧ nfa.Journey s σ w.here.right ∧
      ρ.map Route.letter = σ.map Route.letter ∧ (w.here.apart = true ↔ ρ ≠ σ) ∧
      ρ.length = w.trail.length := by
  induction hw with
  | seed =>
      exact ⟨[], [], rfl, rfl, .nil s, .nil s, rfl, by simp [TwinWalk.seed], rfl⟩
  | @extend w step _ hstep ih =>
      rcases ih with ⟨ρ, σ, hfirst, hsecond, hρ, hσ, hletters, hapart, hlength⟩
      obtain ⟨hl, hr, hletter⟩ := (RouteTable.mem_joint_iff _ _ step.1 step.2).mp hstep
      have hl := isRoute_of_mem_keptRoutes hn ((mem_routes_checkTable_iff _ _ _).mp hl).2
      have hr := isRoute_of_mem_keptRoutes hn ((mem_routes_checkTable_iff _ _ _).mp hr).2
      refine ⟨ρ ++ [step.1], σ ++ [step.2], ?_, ?_, hρ.append (.cons hl (.nil _)),
        hσ.append (.cons hr (.nil _)), ?_, ?_, ?_⟩
      · rw [legs_append, ← hfirst]
        simp [TwinWalk.first, TwinWalk.extend, legs]
      · rw [legs_append, ← hsecond]
        simp [TwinWalk.second, TwinWalk.extend, legs]
      · rw [List.map_append, List.map_append, hletters, List.map_singleton,
          List.map_singleton, hletter]
      · change (w.here.apart || step.1 != step.2) = true ↔ _
        rw [Bool.or_eq_true, hapart, bne_iff_ne, append_singleton_ne_iff]
      · rw [List.length_append, hlength]
        rfl

/-- Two routes are exchanged for kept ones that differ exactly if they do. -/
theorem exists_kept_step (hn : nfa.Shaped lo hi) {r r' : Route}
    (hr : nfa.IsRoute p r) (hr' : nfa.IsRoute p' r') :
    ∃ k ∈ nfa.keptRoutes p, ∃ k' ∈ nfa.keptRoutes p',
      k.edge = r.edge ∧ k'.edge = r'.edge ∧ (k = k' ↔ r = r') := by
  have hmem := (mem_allRoutes_iff hn p r).mpr hr
  have hmem' := (mem_allRoutes_iff hn p' r').mpr hr'
  obtain ⟨k, hk, hedge⟩ := exists_kept_of_mem hmem
  obtain ⟨k', hk', hedge'⟩ := exists_kept_of_mem hmem'
  by_cases hrr : r = r'
  · subst hrr
    obtain rfl := hr.eq_of_isRoute hr'
    exact ⟨k, hk, k, hk, hedge, hedge, by simp⟩
  · by_cases hsame : r'.edge = r.edge
    · by_cases hpp : p = p'
      · subst hpp
        obtain ⟨k, hk, k', hk', hedge, hedge', hne⟩ :=
          exists_kept_pair (nodup_allRoutes hn p) hmem hmem' hsame hrr
        exact ⟨k, hk, k', hk', hedge, hedge'.trans hsame.symm, by simp [hne, hrr]⟩
      · refine ⟨k, hk, k', hk', hedge, hedge', ?_⟩
        refine iff_of_false (fun heq => hpp ?_) hrr
        have hkr := isRoute_of_mem_keptRoutes hn hk
        exact hkr.eq_of_isRoute (heq ▸ isRoute_of_mem_keptRoutes hn hk')
    · refine ⟨k, hk, k', hk', hedge, hedge', iff_of_false (fun heq => hsame ?_) hrr⟩
      rw [← hedge, ← hedge', heq]

/-- Two journeys over the same word are found as walks side by side, one step for each
route. -/
theorem exists_joined (hn : nfa.Shaped lo hi) (hs : s ∈ nfa.entered)
    {ρ σ : List Route} (hρ : nfa.Journey s ρ p) (hσ : nfa.Journey s σ p')
    (hletters : ρ.map Route.letter = σ.map Route.letter) :
    ∃ w, nfa.checkTable.Joined s w ∧
      w.here = { left := p, right := p', apart := decide (ρ ≠ σ) } ∧
      w.trail.length = ρ.length := by
  induction ρ using List.reverseRecOn generalizing σ p p' with
  | nil =>
      obtain rfl := List.map_eq_nil_iff.mp hletters.symm
      rw [journey_nil_iff] at hρ hσ
      subst hρ
      subst hσ
      exact ⟨.seed s, .seed, by simp [TwinWalk.seed], rfl⟩
  | append_singleton ρ r ih =>
      rcases List.eq_nil_or_concat σ with rfl | ⟨σ, r', rfl⟩
      · simp at hletters
      · rw [List.concat_eq_append] at hσ hletters ⊢
        rw [List.map_append, List.map_append, List.map_singleton, List.map_singleton,
          ← List.concat_eq_append, ← List.concat_eq_append, List.concat_inj] at hletters
        obtain ⟨m, hm, hr, rfl⟩ := journey_concat_iff.mp hρ
        obtain ⟨m', hm', hr', rfl⟩ := journey_concat_iff.mp hσ
        obtain ⟨w, hw, hhere, hlength⟩ := ih hm hm' hletters.1
        obtain ⟨k, hk, k', hk', hedge, hedge', hiff⟩ := exists_kept_step hn hr hr'
        have hkr := isRoute_of_mem_keptRoutes hn hk
        have hkr' := isRoute_of_mem_keptRoutes hn hk'
        have hletter : k.letter = k'.letter := by
          have h := hkr.letter
          have h' := hkr'.letter
          rw [hedge, hr.letter, Label.char.injEq] at h
          rw [hedge', hr'.letter, Label.char.injEq] at h'
          rw [← h, ← h', hletters.2]
        refine ⟨w.extend (k, k'), .extend hw ?_, ?_, ?_⟩
        · rw [RouteTable.mem_joint_iff, mem_routes_checkTable_iff, mem_routes_checkTable_iff,
            hhere]
          exact ⟨⟨hm.mem_entered hs, hk⟩, ⟨hm'.mem_entered hs, hk'⟩, hletter⟩
        · simp only [TwinWalk.extend, Route.target, hhere, hedge, hedge', TwinState.mk.injEq,
            true_and]
          rw [Bool.eq_iff_iff, Bool.or_eq_true, bne_iff_ne, decide_eq_true_iff,
            decide_eq_true_iff, append_singleton_ne_iff]
          exact or_congr_right (not_congr hiff)
        · change ((k, k') :: w.trail).length = _
          rw [List.length_cons, hlength, List.length_append, List.length_singleton]

/-- Where a search for twin cycles finds nothing, a journey back is the only one over its
word. -/
theorem Journey.eq_of_twinCycles_eq_none (hn : nfa.Shaped lo hi) (hs : s ∈ nfa.entered)
    {limit : Option Nat} {n n' : Nat}
    (hnone : nfa.checkTable.twinCycles limit s n = .ok (n', none)) {ρ σ : List Route}
    (hρ : nfa.Journey s ρ s) (hσ : nfa.Journey s σ s)
    (hletters : ρ.map Route.letter = σ.map Route.letter) : ρ = σ := by
  by_contra hne
  obtain ⟨w, hw, hhere, -⟩ := exists_joined hn hs hρ hσ hletters
  refine RouteTable.not_joined_of_twinCycles (closed_checkTable hn)
    ((mem_checkTable_iff nfa s).mpr hs) hnone hw ?_
  rw [hhere, decide_eq_true hne]

end Table

section Check

variable {nfa : Nfa} {limit : Option Nat} {table : RouteTable}

/-- A witness is made of the first walks that are found and that count. -/
theorem exists_twinCycles_of_tryStates
    {states exempt : List StateId} {steps : Nat} {w : Witness}
    (h : (nfa.tryStates limit table states exempt steps).ending = .vulnerable w) :
    ∃ before s after, states = before ++ s :: after ∧
      (∀ q ∈ before, nfa.canGetStuck q = true →
        ∃ n n', table.twinCycles limit q n = .ok (n', none)) ∧
      ∃ n n' tw, table.twinCycles limit s n = .ok (n', some tw) ∧
        nfa.canGetStuck s = true ∧ w = .ofTwins s tw := by
  induction states generalizing exempt steps with
  | nil =>
      simp [tryStates] at h
  | cons s states ih =>
      rw [tryStates] at h
      split at h
      · cases h
      · next n htw =>
          obtain ⟨before, s', after, rfl, hbefore, rest⟩ := ih h
          exact ⟨s :: before, s', after, rfl,
            List.forall_mem_cons.mpr ⟨fun _ => ⟨steps, n, htw⟩, hbefore⟩, rest⟩
      · next n tw htw =>
          split_ifs at h with hstuck
          · exact ⟨[], s, states, rfl, fun q hq => absurd hq List.not_mem_nil, steps, n, tw,
              htw, hstuck, (CheckEnding.vulnerable.inj h).symm⟩
          · obtain ⟨before, s', after, rfl, hbefore, rest⟩ := ih h
            exact ⟨s :: before, s', after, rfl,
              List.forall_mem_cons.mpr ⟨fun hs => absurd hs hstuck, hbefore⟩, rest⟩

/-- A check is clear if every state was tried and nothing that counts was found. -/
theorem twinCycles_of_tryStates_eq_clear
    {states exempt : List StateId} {steps : Nat}
    (h : (nfa.tryStates limit table states exempt steps).ending = .clear) :
    ∀ s ∈ states, nfa.canGetStuck s = true →
      ∃ n n', table.twinCycles limit s n = .ok (n', none) := by
  induction states generalizing exempt steps with
  | nil =>
      exact fun s hs => absurd hs List.not_mem_nil
  | cons s states ih =>
      rw [tryStates] at h
      split at h
      · cases h
      · next n htw =>
          exact List.forall_mem_cons.mpr ⟨fun _ => ⟨steps, n, htw⟩, ih h⟩
      · split_ifs at h with hstuck
        exact List.forall_mem_cons.mpr ⟨fun hs => absurd hs hstuck, ih h⟩

theorem tryStates_ne_exhausted
    (nfa : Nfa) (table : RouteTable) (states exempt : List StateId) (steps limit : Nat) :
    (nfa.tryStates none table states exempt steps).ending ≠ .exhausted limit := by
  induction states generalizing exempt steps with
  | nil =>
      simp [tryStates]
  | cons s states ih =>
      rw [tryStates]
      split
      · next e herr =>
          obtain ⟨a, ha⟩ := table.exists_twinCycles_eq_ok s steps
          simp [ha] at herr
      · exact ih _ _
      · split_ifs
        · simp
        · exact ih _ _

theorem check_eq_ok_some_iff {limits : CheckLimits} {w : Witness} :
    nfa.check limits = .ok (some w) ↔ (nfa.checkRun limits).ending = .vulnerable w := by
  rw [check, CheckRun.result]
  cases (nfa.checkRun limits).ending <;> simp

theorem check_eq_ok_none_iff {limits : CheckLimits} :
    nfa.check limits = .ok none ↔ (nfa.checkRun limits).ending = .clear := by
  rw [check, CheckRun.result]
  cases (nfa.checkRun limits).ending <;> simp

/-- A check that is not cut short has collected all its routes. -/
theorem exists_tryStates_of_check
    {limits : CheckLimits} {v : Verdict} (h : nfa.check limits = .ok v) :
    ∃ steps, nfa.routeTable limits.maxSteps nfa.entered.toList ∅ 0 =
        .ok (nfa.checkTable, steps) ∧
      nfa.checkRun limits =
        nfa.tryStates limits.maxSteps nfa.checkTable nfa.entered.toList [] steps := by
  rw [check, checkRun] at h
  rw [checkRun]
  cases htable : nfa.routeTable limits.maxSteps nfa.entered.toList ∅ 0 with
  | error e =>
      simp [htable, CheckRun.cutShort, CheckRun.result] at h
  | ok r =>
      obtain ⟨table, steps⟩ := r
      obtain rfl := eq_checkTable_of_routeTable htable
      exact ⟨steps, rfl, rfl⟩

/-- A witness is made of the walks that the first search found that counts; the states before
its own were searched in vain. -/
theorem exists_twinCycles_of_check
    {limits : CheckLimits} {w : Witness} (h : nfa.check limits = .ok (some w)) :
    ∃ before s after, nfa.entered.toList = before ++ s :: after ∧
      (∀ q ∈ before, nfa.CanStrand q →
        ∃ n n', nfa.checkTable.twinCycles limits.maxSteps q n = .ok (n', none)) ∧
      ∃ n n' tw, nfa.checkTable.twinCycles limits.maxSteps s n = .ok (n', some tw) ∧
        nfa.CanStrand s ∧ w = .ofTwins s tw := by
  obtain ⟨steps, -, hrun⟩ := exists_tryStates_of_check h
  have hending := check_eq_ok_some_iff.mp h
  rw [hrun] at hending
  simpa only [canGetStuck_iff] using exists_twinCycles_of_tryStates hending

/-- A witness is made of two different journeys over its word, from a state behind which
the automaton can get stuck. -/
theorem exists_journeys_of_check {lo hi : StateId} (hn : nfa.Shaped lo hi)
    {limits : CheckLimits} {w : Witness} (h : nfa.check limits = .ok (some w)) :
    w.state ∈ nfa.entered ∧ nfa.CanStrand w.state ∧
      ∃ ρ σ : List Route, w.first = legs ρ ∧ w.second = legs σ ∧ ρ ≠ σ ∧
        nfa.Journey w.state ρ w.state ∧ nfa.Journey w.state σ w.state ∧
        ρ.map Route.letter = w.word ∧ σ.map Route.letter = w.word := by
  obtain ⟨before, s, after, hsplit, -, n, n', tw, htw, hstrand, rfl⟩ :=
    exists_twinCycles_of_check h
  obtain ⟨hjoined, hhere⟩ := RouteTable.joined_of_twinCycles htw
  obtain ⟨ρ, σ, hfirst, hsecond, hρ, hσ, hletters, hapart, -⟩ :=
    journeys_of_joined hn hjoined
  rw [hhere] at hρ hσ hapart
  have hs : s ∈ nfa.entered.toList := by simp [hsplit]
  refine ⟨Std.ExtTreeSet.mem_toList.mp hs, hstrand, ρ, σ, hfirst,
    hsecond, hapart.mp rfl, hρ, hσ, ?_, ?_⟩
  · change _ = consumedWord tw.first
    rw [hfirst, hρ.consumedWord_legs]
  · change _ = consumedWord tw.first
    rw [hfirst, hρ.consumedWord_legs, hletters]

/-- Where a check finds nothing, the automaton cannot get stuck behind two different
journeys over the same word. -/
theorem not_canStrand_of_check {lo hi : StateId} (hn : nfa.Shaped lo hi)
    {limits : CheckLimits} (h : nfa.check limits = .ok none)
    {s : StateId} (hs : s ∈ nfa.entered) {ρ σ : List Route}
    (hρ : nfa.Journey s ρ s) (hσ : nfa.Journey s σ s)
    (hletters : ρ.map Route.letter = σ.map Route.letter) (hne : ρ ≠ σ) :
    ¬ nfa.CanStrand s := by
  intro hstrand
  obtain ⟨steps, -, hrun⟩ := exists_tryStates_of_check h
  have hending := check_eq_ok_none_iff.mp h
  rw [hrun] at hending
  obtain ⟨n, n', htw⟩ := twinCycles_of_tryStates_eq_clear hending s
    (Std.ExtTreeSet.mem_toList.mpr hs) ((canGetStuck_iff nfa s).mpr hstrand)
  exact hne (hρ.eq_of_twinCycles_eq_none hn hs htw hσ hletters)

/-- Without a limit there is a verdict. -/
theorem exists_check_eq_ok (nfa : Nfa) :
    ∃ v, nfa.check { maxSteps := none } = .ok v := by
  rw [check, checkRun, routeTable_eq nfa none _ ∅ (fun l _ => Nat.zero_le l), CheckRun.result]
  simp only [charge, Except.map]
  split
  · exact ⟨_, rfl⟩
  · exact ⟨_, rfl⟩
  · next l hl =>
      exact absurd hl (tryStates_ne_exhausted nfa _ _ _ _ l)

end Check

end Nfa

/-- What is decided about a compiled automaton and its verdict holds of them. -/
theorem Compiler.exists_check_of_decide
    (compiled : Except CompileError (Nfa × Compiler)) (limits : CheckLimits)
    (P : Nfa → Verdict → Prop) [∀ nfa v, Decidable (P nfa v)]
    (h : (compiled.toOption.bind fun r =>
      (r.1.check limits).toOption.map fun v => decide (P r.1 v)) = some true) :
    ∃ nfa c' v, compiled = .ok (nfa, c') ∧ nfa.check limits = .ok v ∧ P nfa v := by
  cases compiled with
  | error e =>
      simp [Except.toOption] at h
  | ok r =>
      cases hcheck : r.1.check limits with
      | error e =>
          simp [hcheck, Except.toOption] at h
      | ok v =>
          simp only [hcheck, Except.toOption, Option.bind_some, Option.map_some,
            Option.some.injEq, decide_eq_true_eq] at h
          exact ⟨r.1, r.2, v, rfl, hcheck, h⟩

end Backtracking
