import Backtracking.Proofs.Enumeration
import Backtracking.Proofs.Worklist

/-!
# A search for routes with one path that is changed in place

The routes out of a state can also be collected along one path, which grows and shrinks.  An
epsilon edge to a state off the path puts the state and the edge on it; when everything behind
the edge has been looked at, both are taken off again.

**Restoring.**  Looking at edges leaves the path as it was, whatever is put on it meanwhile
(`Nfa.Explores.restores`).  So all edges out of a state are looked at from the same path.

**Termination.**  No state is put on the path while it is there, so the path does not outgrow the
automaton, and the search ends on every cycle of epsilon edges (`Nfa.Shaped.exists_explores`).

**Results.**
* `Nfa.Shaped.explores_iff`: such a search ends in one way only, with what `Nfa.routesFrom` finds.
* `Nfa.CompleteUpToTwo`: of the simple runs to the source of an edge of a character two are shown,
  or all if there are less.
* `Compiler.exists_routesFrom_completeUpToTwo`: the routes out of every state of a compiled tree
  are complete in this sense.
-/

namespace Backtracking

/-- One more edge is followed from the end of a run, newest edge first; the edge of a character
ends a route. -/
def Harvest.follow (h : Harvest) (run : List Transition) (t : Transition) : Harvest :=
  let counted : Harvest := { h with steps := h.steps + 1 }
  match t.label with
  | .char letter => counted.keep { run := run.reverse, edge := t, letter }
  | _ => counted

/-- A search for routes under way: the states on its path, the edges of the path, newest first,
and what it has found. -/
structure Exploration where
  onPath : StateSet
  run : List Transition
  harvest : Harvest

namespace Exploration

variable {e : Exploration} {t : Transition} {h : Harvest} {q : StateId}

/-- A search that has not left its state, after some steps of a check. -/
def seed (s : StateId) (steps : Nat) : Exploration :=
  { onPath := {s}, run := [], harvest := { steps } }

/-- Behind the edge the search goes on. -/
def Opens (e : Exploration) (t : Transition) : Prop :=
  t.label = .epsilon ∧ t.target ∉ e.onPath

/-- Follows an edge without going on behind it. -/
def follow (e : Exploration) (t : Transition) : Exploration :=
  { e with harvest := e.harvest.follow e.run t }

/-- Puts an edge and its target on the path. -/
def push (e : Exploration) (t : Transition) : Exploration :=
  { e with onPath := e.onPath.insert t.target, run := t :: e.run }

/-- Takes the newest edge and its target off the path. -/
def pop (e : Exploration) (t : Transition) : Exploration :=
  { e with onPath := e.onPath.erase t.target, run := e.run.tail }

theorem mem_seed_iff (s : StateId) (steps : Nat) : q ∈ (seed s steps).onPath ↔ q = s := by
  rw [seed, Std.ExtTreeSet.singleton_eq_insert, Graph.mem_insert_iff]
  simp

/-- A state that was off the path is put on it and taken off again. -/
theorem pop_push (hnew : t.target ∉ e.onPath) :
    ({ e.push t with harvest := h } : Exploration).pop t = { e with harvest := h } := by
  have hpath : (e.onPath.insert t.target).erase t.target = e.onPath := by
    refine Std.ExtTreeSet.ext_mem fun q => ?_
    rw [Std.ExtTreeSet.mem_erase, Graph.mem_insert_iff, ne_eq, Nat.compare_eq_eq]
    constructor
    · rintro ⟨hne, rfl | hq⟩
      · exact absurd rfl hne
      · exact hq
    · intro hq
      exact ⟨fun heq => hnew (heq ▸ hq), Or.inr hq⟩
  simp only [pop, push, hpath, List.tail_cons]

end Exploration

namespace Nfa

variable {nfa : Nfa} {lo hi s : StateId} {t : Transition} {ts us : List Transition}
variable {before after after' : Exploration}

/-- The edges of a list are looked at one after another, each with everything behind it. -/
inductive Explores (nfa : Nfa) :
    (ts : List Transition) → (before after : Exploration) → Prop
  /-- No edge is left. -/
  | done (e : Exploration) : nfa.Explores [] e e
  /-- The edge is followed, and nothing behind it is looked at. -/
  | stay {t : Transition} {ts : List Transition} {e after : Exploration} (closed : ¬ e.Opens t)
      (rest : nfa.Explores ts (e.follow t) after) : nfa.Explores (t :: ts) e after
  /-- The edges behind the edge come first, with the edge on the path. -/
  | descend {t : Transition} {ts : List Transition} {e inner after : Exploration}
      (opened : e.Opens t)
      (behind : nfa.Explores (nfa.graph.transitionsFrom t.target) ((e.follow t).push t) inner)
      (rest : nfa.Explores ts (inner.pop t) after) : nfa.Explores (t :: ts) e after

/-- The path is restored: nothing but the finds and the steps is changed. -/
theorem Explores.restores (h : nfa.Explores ts before after) :
    after = { before with harvest := after.harvest } := by
  induction h with
  | done e =>
      rfl
  | stay closed rest ih =>
      exact ih
  | @descend t ts e inner after opened behind rest ihbehind ihrest =>
      have hpop : inner.pop t = { e with harvest := inner.harvest } := by
        rw [ihbehind]
        exact Exploration.pop_push opened.2
      rw [hpop] at ihrest
      exact ihrest

/-- A search ends in one way only. -/
theorem Explores.eq (h : nfa.Explores ts before after) (h' : nfa.Explores ts before after') :
    after = after' := by
  induction h generalizing after' with
  | done e =>
      cases h' with
      | done => rfl
  | stay closed rest ih =>
      cases h' with
      | stay _ rest' => exact ih rest'
      | descend opened _ _ => exact absurd opened closed
  | descend opened behind rest ihbehind ihrest =>
      cases h' with
      | stay closed _ => exact absurd opened closed
      | descend _ behind' rest' =>
          obtain rfl := ihbehind behind'
          exact ihrest rest'

theorem Explores.append {middle : Exploration} (h : nfa.Explores ts before middle)
    (h' : nfa.Explores us middle after) : nfa.Explores (ts ++ us) before after := by
  induction h with
  | done e =>
      exact h'
  | stay closed rest ih =>
      exact .stay closed (ih h')
  | descend opened behind rest _ ih =>
      exact .descend opened behind (ih h')

/-- Where every edge of a list can be looked at from a path, whatever was found before, the whole
list can: each edge leaves the path to the next one as it was. -/
theorem exists_explores_of_forall {f : Harvest → Transition → Except Exhausted Harvest}
    {e : Exploration}
    (hf : ∀ t ∈ ts, ∀ h, ∃ after, f h t = .ok after.harvest ∧
      nfa.Explores [t] { e with harvest := h } after)
    (h : Harvest) :
    ∃ after, ts.foldlM f h = .ok after.harvest ∧
      nfa.Explores ts { e with harvest := h } after := by
  induction ts generalizing h with
  | nil =>
      exact ⟨_, rfl, .done _⟩
  | cons t ts ih =>
      obtain ⟨middle, hok, hedge⟩ := hf t List.mem_cons_self h
      obtain ⟨after, hfold, hrest⟩ :=
        ih (fun u hu => hf u (List.mem_cons_of_mem t hu)) middle.harvest
      have hmiddle : middle = { e with harvest := middle.harvest } := hedge.restores
      refine ⟨after, ?_, hedge.append (hmiddle ▸ hrest)⟩
      rw [List.foldlM_cons, hok]
      exact hfold

/-- Where the depth leaves room for all states off the path, the search with one path ends, and the
search without a limit has found the same when it ends. -/
theorem Shaped.exists_explores (hn : nfa.Shaped lo hi) (depth : Nat) (here : StateId)
    (visited : List StateId) (e : Exploration) (hpath : ∀ q, q ∈ e.onPath ↔ q ∈ visited)
    (hnd : visited.Nodup) (howned : ∀ q ∈ visited, nfa.Owns q)
    (hdepth : nfa.graph.states.length < depth + visited.length) :
    ∃ after, nfa.harvest none depth here visited e.run e.harvest = .ok after.harvest ∧
      nfa.Explores (nfa.graph.transitionsFrom here) e after := by
  induction depth generalizing here visited e with
  | zero =>
      -- the path cannot hold more states than there are
      have hlen := (hnd.subperm fun q hq => (Graph.mem_states _ _).mpr (howned q hq)).length_le
      omega
  | succ depth ih =>
      rw [harvest]
      refine exists_explores_of_forall (e := e) (fun t ht h => ?_) e.harvest
      by_cases hopen : ({ e with harvest := h } : Exploration).Opens t
      · obtain ⟨hl, hoff⟩ := hopen
        have hnew : t.target ∉ visited := fun hmem => hoff ((hpath _).mpr hmem)
        have hpush : ∀ q, q ∈ e.onPath.insert t.target ↔ q ∈ t.target :: visited := by
          intro q
          rw [Graph.mem_insert_iff, List.mem_cons, hpath]
        have htarget := (hn.inside ((mem_transitionsFrom_iff hn.filed here t).mp ht).2).2
        obtain ⟨inner, hok, hbehind⟩ := ih t.target (t.target :: visited)
          ((({ e with harvest := h } : Exploration).follow t).push t) hpush (hnd.cons hnew)
          (List.forall_mem_cons.mpr ⟨htarget, howned⟩)
          (by rw [List.length_cons]; omega)
        refine ⟨_, ?_, .descend ⟨hl, hoff⟩ hbehind (.done _)⟩
        simp only [hl, List.contains_iff_mem, if_neg hnew]
        simp only [Exploration.follow, Exploration.push, Harvest.follow, hl] at hok
        exact hok
      · -- only a route is offered here, if the edge ends one
        refine ⟨_, ?_, .stay hopen (.done _)⟩
        cases hl : t.label with
        | epsilon =>
            have hold : t.target ∈ visited := by
              by_contra hnew
              exact hopen ⟨hl, fun hmem => hnew ((hpath _).mp hmem)⟩
            simp only [Exploration.follow, Harvest.follow, hl, List.contains_iff_mem, if_pos hold]
            rfl
        | _ =>
            simp only [Exploration.follow, Harvest.follow, hl]
            rfl

theorem Shaped.exists_explores_seed (hn : nfa.Shaped lo hi) (s : StateId) (steps : Nat) :
    ∃ after, nfa.harvest none nfa.graph.states.length s [s] [] { steps } = .ok after.harvest ∧
      nfa.Explores (nfa.graph.transitionsFrom s) (.seed s steps) after := by
  by_cases hs : nfa.Owns s
  · refine hn.exists_explores _ s [s] (.seed s steps) (fun q => ?_) (List.nodup_singleton s)
      (List.forall_mem_singleton.mpr hs) (Nat.lt_succ_self _)
    rw [Exploration.mem_seed_iff, List.mem_singleton]
  · -- no edge leaves a state that is not owned
    have hnone : nfa.graph.transitionsFrom s = [] :=
       Graph.transitionsFrom_eq_nil (Bool.not_eq_true _ ▸ hs)
    refine ⟨.seed s steps, ?_, hnone.symm ▸ .done _⟩
    cases nfa.graph.states.length with
    | zero =>
        rfl
    | succ depth =>
        rw [harvest, hnone]
        rfl

/-- A search with one path ends, with the path that it began with, and in one way only: with the
routes that are kept and the edges that are paid for. -/
theorem Shaped.explores_iff (hn : nfa.Shaped lo hi) (s : StateId) (steps : Nat) :
    nfa.Explores (nfa.graph.transitionsFrom s) (.seed s steps) after ↔
      after = { Exploration.seed s steps with
        harvest :=
          { steps := steps + nfa.routeCost s, routes := (nfa.keptRoutes s).reverse } } := by
  obtain ⟨found, hok, hfound⟩ := hn.exists_explores_seed s steps
  have hharvest : found.harvest =
      { steps := steps + nfa.routeCost s, routes := (nfa.keptRoutes s).reverse } := by
    rw [harvest_eq nfa none _ s [s] [] _ (fun l hl => by simp at hl)] at hok
    rw [← Except.ok.inj hok, keptRoutes, keptOf, List.reverse_reverse]
    rfl
  rw [← hharvest, ← hfound.restores]
  constructor
  · exact fun h => h.eq hfound
  · rintro rfl
    exact hfound

/-- A run of epsilon edges from one state to another that visits no state twice. -/
structure SimpleRun (nfa : Nfa) (s : StateId) (run : List Transition) (q : StateId) : Prop where
  walk : nfa.Walk s run q
  silent : ∀ t ∈ run, t.label = .epsilon
  simple : (s :: run.map Transition.target).Nodup

theorem isRoute_iff (hf : nfa.graph.Filed) (r : Route) :
    nfa.IsRoute s r ↔ nfa.SimpleRun s r.run r.edge.source ∧
      r.edge ∈ nfa.graph.transitions ∧ r.edge.label = .char r.letter := by
  rw [hf.mem_transitions]
  constructor
  · intro hr
    exact ⟨⟨hr.walk, hr.silent, hr.simple⟩, hr.arc, hr.letter⟩
  · rintro ⟨hrun, harc, hletter⟩
    exact ⟨hrun.walk, harc, hrun.silent, hletter, hrun.simple⟩

/-- Different routes out of a state, none of which crosses an anchor.  For every edge of a
character two of them end with it, or as many as there are simple runs from the state to the
source of the edge. -/
structure CompleteUpToTwo (nfa : Nfa) (s : StateId) (routes : List Route) : Prop where
  nodup : routes.Nodup
  simpleRun : ∀ r ∈ routes, nfa.SimpleRun s r.run r.edge.source
  edge : ∀ r ∈ routes, r.edge ∈ nfa.graph.transitions ∧ r.edge.label = .char r.letter
  anchorFree : ∀ r ∈ routes, AnchorFree r.transitions
  finite_simpleRuns : ∀ e ∈ nfa.graph.transitions, ∀ letter, e.label = .char letter →
    {run | nfa.SimpleRun s run e.source}.Finite
  length_endingWith : ∀ e ∈ nfa.graph.transitions, ∀ letter, e.label = .char letter →
    (endingWith e routes).length = min 2 {run | nfa.SimpleRun s run e.source}.ncard

/-- The routes that end with the edge of a character are the simple runs to its source, each with
the edge behind it. -/
theorem Shaped.simpleRun_iff (hn : nfa.Shaped lo hi) {e : Transition} {letter : Char}
    (he : e ∈ nfa.graph.transitions) (hletter : e.label = .char letter)
    (run : List Transition) :
    nfa.SimpleRun s run e.source ↔ run ∈ (endingWith e (nfa.allRoutes s)).map Route.run := by
  rw [List.mem_map]
  simp only [mem_endingWith_iff, mem_allRoutes_iff hn, isRoute_iff hn.filed]
  constructor
  · intro hrun
    exact ⟨{ run, edge := e, letter }, ⟨⟨hrun, he, hletter⟩, rfl⟩, rfl⟩
  · rintro ⟨r, ⟨⟨hrun, -, -⟩, rfl⟩, rfl⟩
    exact hrun

/-- Routes that end with the same edge differ in their runs. -/
theorem Shaped.nodup_runs (hn : nfa.Shaped lo hi) (s : StateId) (e : Transition) :
    ((endingWith e (nfa.allRoutes s)).map Route.run).Nodup := by
  refine List.Nodup.map_on (fun r hr r' hr' hrun => ?_) ((nodup_allRoutes hn s).filter _)
  obtain ⟨hmem, hedge⟩ := (mem_endingWith_iff _ _ _).mp hr
  obtain ⟨hmem', hedge'⟩ := (mem_endingWith_iff _ _ _).mp hr'
  have hletter := ((mem_allRoutes_iff hn s r).mp hmem).letter
  have hletter' := ((mem_allRoutes_iff hn s r').mp hmem').letter
  rw [hedge] at hletter
  rw [hedge', hletter] at hletter'
  have hletters := Label.char.inj hletter'
  obtain ⟨run, edge, letter⟩ := r
  obtain ⟨run', edge', letter'⟩ := r'
  simp only at hrun hedge hedge' hletters
  rw [hrun, hedge, hedge', hletters]

theorem Shaped.completeUpToTwo (hn : nfa.Shaped lo hi) (s : StateId) :
    nfa.CompleteUpToTwo s (nfa.keptRoutes s) := by
  have hroute : ∀ r ∈ nfa.keptRoutes s, nfa.IsRoute s r := fun r hr =>
    isRoute_of_mem_keptRoutes hn hr
  constructor
  case nodup =>
    exact (keptOf_sublist _).nodup (nodup_allRoutes hn s)
  case simpleRun =>
    exact fun r hr => ((isRoute_iff hn.filed r).mp (hroute r hr)).1
  case edge =>
    exact fun r hr => ((isRoute_iff hn.filed r).mp (hroute r hr)).2
  case anchorFree =>
    intro r hr
    have hjourney : nfa.Journey s [r] r.target := .cons (hroute r hr) (.nil _)
    have hlegs : legs [r] = r.transitions := by
      rw [legs_cons, legs_nil]
      rfl
    exact hlegs ▸ hjourney.anchorFree
  case finite_simpleRuns =>
    intro e he letter hletter
    refine (List.finite_toSet ((endingWith e (nfa.allRoutes s)).map Route.run)).subset ?_
    exact fun run hrun => (hn.simpleRun_iff he hletter run).mp hrun
  case length_endingWith =>
    intro e he letter hletter
    have hcount : {run | nfa.SimpleRun s run e.source}.ncard =
        ((endingWith e (nfa.allRoutes s)).map Route.run).length :=
      ncard_eq_length (hn.nodup_runs s e) (hn.simpleRun_iff he hletter)
    rw [keptRoutes, length_endingWith_keptOf, hcount, List.length_map]

end Nfa

/-- Without a limit the search for routes out of any state of a compiled tree ends, with routes
that are complete up to two.  So does the search with one path that is changed in place, whose
depth nothing bounds: it ends in one way only, with the path that it began with, the same routes
and the same number of steps. -/
theorem Compiler.exists_routesFrom_completeUpToTwo (c : Compiler) (p : Pattern) :
    ∃ nfa c', c.compileTree p = .ok (nfa, c') ∧ ∀ s steps, ∃ routes n,
      nfa.routesFrom none s steps = .ok (routes, n) ∧ nfa.CompleteUpToTwo s routes ∧
      ∀ after, nfa.Explores (nfa.graph.transitionsFrom s) (.seed s steps) after ↔
        after = { Exploration.seed s steps with
          harvest := { steps := n, routes := routes.reverse } } := by
  obtain ⟨nfa, c', hok, hfrag⟩ := c.exists_compileTree p
  have hn := hfrag.shaped
  refine ⟨nfa, c', hok, fun s steps => ⟨nfa.keptRoutes s, steps + nfa.routeCost s, ?_,
    hn.completeUpToTwo s, fun after => hn.explores_iff s steps⟩⟩
  rw [nfa.routesFrom_eq none s fun l hl => by simp at hl]
  rfl

/-- Three ways to the `a` of `(|||^)a` cross no anchor; two of them are shown. -/
example : (Nfa.ofText ['(', '|', '|', '|', '^', ')', 'a']).toOption.bind (fun nfa =>
    (nfa.routesFrom none nfa.start 0).toOption.map fun found =>
      ((nfa.allRoutes nfa.start).length, found.1.map fun r => r.run.length)) =
        some (3, [4, 6]) := by
  decide +kernel

end Backtracking
