import Backtracking.Proofs.Shifting
import Mathlib.Tactic

/-!
# Checking an automaton under other names

A check asks of states whether they are the same and in which order they come, of characters
whether they are the same, and counts every edge.  If an automaton differs from another one by the
names of its states and of its characters, and the states come in the same order, its check takes
the same steps: a limit stops it at the same edge, and a witness is the same one under the new
names.

**Outcomes.**  `mapBoth` renames the outcome of a computation that may stop early.  Two folds
whose steps differ by names alone have outcomes that do (`foldlM_mapBoth`), which carries the
equations from one step to whole stages.

**Results.**
* `Renaming.Carries`: what a check asks of two automata that differ by a renaming.
* `Renaming.Carries.routeTable_eq`: the routes, which are found first.
* `Renaming.run_search`, `Renaming.twinCycles_table`: the search for twin cycles.
* `Renaming.Carries.check_eq`: the verdict, under every limit.
-/

namespace Backtracking

open Std

section Outcome

variable {ε ε' α α' β β' : Type} {χ : ε → ε'} {φ : α → α'} {ψ : β → β'}

/-- The outcome under other names. -/
def mapBoth (χ : ε → ε') (φ : α → α') : Except ε α → Except ε' α'
  | .ok a => .ok (φ a)
  | .error e => .error (χ e)

theorem mapBoth_id_id (x : Except ε α) : mapBoth id id x = x := by
  cases x <;> rfl

theorem bind_mapBoth {x : Except ε α} {x' : Except ε' α'} {f : α → Except ε β}
    {f' : α' → Except ε' β'} (hx : x' = mapBoth χ φ x) (hf : ∀ a, f' (φ a) = mapBoth χ ψ (f a)) :
    (x' >>= f') = mapBoth χ ψ (x >>= f) := by
  subst hx
  cases x with
  | error e =>
      rfl
  | ok a =>
      exact hf a

/-- Steps that differ by names alone add up to folds that do. -/
theorem foldlM_mapBoth {f : α → β → Except ε α} {f' : α' → β' → Except ε' α'}
    (h : ∀ a b, f' (φ a) (ψ b) = mapBoth χ φ (f a b)) (l : List β) (a : α) :
    (l.map ψ).foldlM f' (φ a) = mapBoth χ φ (l.foldlM f a) := by
  induction l generalizing a with
  | nil =>
      rfl
  | cons b l ih =>
      rw [List.map_cons, List.foldlM_cons, List.foldlM_cons]
      exact bind_mapBoth (h a b) ih

end Outcome

/-- The label with another character; epsilon and the anchors stay. -/
def Label.relabel (f : Char → Char) : Label → Label
  | .char c => .char (f c)
  | .epsilon => .epsilon
  | .startAnchor => .startAnchor
  | .endAnchor => .endAnchor

theorem Label.relabel_id (l : Label) : l.relabel id = l := by
  cases l <;> rfl

theorem Label.relabel_injective {f : Char → Char} (hf : Function.Injective f) :
    Function.Injective (Label.relabel f) := by
  intro l l' heq
  cases l <;> cases l' <;> simp_all [relabel, hf.eq_iff]

theorem Label.consumed?_relabel (f : Char → Char) (l : Label) :
    (l.relabel f).consumed? = l.consumed?.map f := by
  cases l <;> rfl

/-- Other names for states and characters, different ones for different ones. -/
structure Renaming where
  state : StateId → StateId
  char : Char → Char
  state_injective : Function.Injective state
  char_injective : Function.Injective char

namespace Renaming

variable (ρ : Renaming)

def transition (t : Transition) : Transition :=
  { source := ρ.state t.source, label := t.label.relabel ρ.char, target := ρ.state t.target }

theorem transition_injective : Function.Injective ρ.transition := by
  rintro ⟨s, l, t⟩ ⟨s', l', t'⟩ heq
  obtain ⟨hsource, hlabel, htarget⟩ := Transition.mk.inj heq
  obtain rfl : s = s' := ρ.state_injective hsource
  obtain rfl : t = t' := ρ.state_injective htarget
  obtain rfl : l = l' := Label.relabel_injective ρ.char_injective hlabel
  rfl

theorem consumedWord_map_transition (ts : List Transition) :
    consumedWord (ts.map ρ.transition) = (consumedWord ts).map ρ.char := by
  rw [consumedWord, List.filterMap_map, consumedWord, List.map_filterMap]
  exact List.filterMap_congr fun t _ => Label.consumed?_relabel ρ.char t.label

def route (r : Route) : Route :=
  { run := r.run.map ρ.transition, edge := ρ.transition r.edge, letter := ρ.char r.letter }

theorem route_injective : Function.Injective ρ.route := by
  rintro ⟨run, edge, c⟩ ⟨run', edge', c'⟩ heq
  obtain ⟨hrun, hedge, hletter⟩ := Route.mk.inj heq
  obtain rfl : run = run' := ρ.transition_injective.list_map hrun
  obtain rfl : edge = edge' := ρ.transition_injective hedge
  obtain rfl : c = c' := ρ.char_injective hletter
  rfl

theorem transitions_route (r : Route) :
    (ρ.route r).transitions = r.transitions.map ρ.transition := by
  rw [Route.transitions, Route.transitions, List.map_append]
  rfl

def harvest (h : Harvest) : Harvest :=
  { h with routes := h.routes.map ρ.route }

theorem keep_harvest (h : Harvest) (r : Route) :
    (ρ.harvest h).keep (ρ.route r) = ρ.harvest (h.keep r) := by
  have hkept : (ρ.harvest h).routes.filter (fun kept => kept.edge == (ρ.route r).edge) =
      (h.routes.filter fun kept => kept.edge == r.edge).map ρ.route :=
    filter_map_of_eq (p := fun kept => kept.edge == r.edge)
      (fun _ => ρ.transition_injective.beq_eq) h.routes
  rw [Harvest.keep, hkept, List.length_map, Harvest.keep]
  split_ifs <;> rfl

/-- The renamed routes under the renamed states. -/
def table (table : RouteTable) : RouteTable :=
  rekey ρ.state (List.map ρ.route) table

def twins (p : TwinState) : TwinState :=
  { p with left := ρ.state p.left, right := ρ.state p.right }

theorem twins_injective : Function.Injective ρ.twins := by
  rintro ⟨s, t, _⟩ ⟨s', t', _⟩ heq
  obtain ⟨hleft, hright, rfl⟩ := TwinState.mk.inj heq
  obtain rfl : s = s' := ρ.state_injective hleft
  obtain rfl : t = t' := ρ.state_injective hright
  rfl

/-- The two routes of a step, renamed. -/
def step : Route × Route → Route × Route :=
  Prod.map ρ.route ρ.route

def walk (w : TwinWalk) : TwinWalk :=
  { here := ρ.twins w.here, trail := w.trail.map ρ.step }

theorem extend_walk (w : TwinWalk) (step : Route × Route) :
    (ρ.walk w).extend (ρ.step step) = ρ.walk (w.extend step) := by
  have hapart : ((ρ.step step).1 != (ρ.step step).2) = (step.1 != step.2) :=
    congrArg not ρ.route_injective.beq_eq
  rw [TwinWalk.extend, hapart]
  rfl

theorem first_walk (w : TwinWalk) : (ρ.walk w).first = w.first.map ρ.transition := by
  rw [TwinWalk.first, walk, ← List.map_reverse, List.flatMap_map, TwinWalk.first,
    List.map_flatMap]
  exact List.flatMap_congr fun step _ => ρ.transitions_route step.1

theorem second_walk (w : TwinWalk) : (ρ.walk w).second = w.second.map ρ.transition := by
  rw [TwinWalk.second, walk, ← List.map_reverse, List.flatMap_map, TwinWalk.second,
    List.map_flatMap]
  exact List.flatMap_congr fun step _ => ρ.transitions_route step.2

/-- Renamed walks can take the renamed steps, in the same order. -/
theorem joint_table (table : RouteTable) (p : TwinState) :
    (ρ.table table).joint (ρ.twins p) = (table.joint p).map ρ.step := by
  have hroutes : ∀ s, (ρ.table table)[ρ.state s]?.getD [] =
      (table[s]?.getD []).map ρ.route := by
    intro s
    rw [Renaming.table, getElem?_rekey ρ.state_injective]
    cases table[s]? <;> rfl
  have hpick : ∀ (r : Route) (l : List Route),
      (l.map ρ.route).filter (fun r' => (ρ.route r).letter == r'.letter) =
        (l.filter fun r' => r.letter == r'.letter).map ρ.route :=
    fun r => filter_map_of_eq fun _ => ρ.char_injective.beq_eq
  rw [RouteTable.joint, twins, hroutes, hroutes, List.flatMap_map, RouteTable.joint,
    List.map_flatMap]
  refine List.flatMap_congr fun r _ => ?_
  rw [hpick, List.map_map, List.map_map]
  rfl

def search (s : TwinSearch) : TwinSearch :=
  { s with entered := rename ρ.twins s.entered, fresh := s.fresh.map ρ.walk }

/-- The same reason to stop, with renamed walks. -/
def stop : TwinStop → TwinStop
  | .exhausted e => .exhausted e
  | .closed steps w => .closed steps (ρ.walk w)

theorem offer_search (limit : Option Nat) (goal : TwinState) (s : TwinSearch) (w : TwinWalk) :
    (ρ.search s).offer limit (ρ.twins goal) (ρ.walk w) =
      mapBoth ρ.stop ρ.search (s.offer limit goal w) := by
  have hentered : (ρ.search s).entered.contains (ρ.walk w).here = s.entered.contains w.here :=
    contains_rename ρ.twins_injective s.entered w.here
  have hgoal : (ρ.walk w).here = ρ.twins goal ↔ w.here = goal :=
    ρ.twins_injective.eq_iff
  have hinsert : (ρ.search s).entered.insert (ρ.walk w).here =
      rename ρ.twins (s.entered.insert w.here) :=
    (rename_insert s.entered w.here).symm
  have hsteps : (ρ.search s).steps = s.steps := rfl
  rw [TwinSearch.offer, hsteps, TwinSearch.offer]
  cases spend limit s.steps with
  | error e =>
      rfl
  | ok steps =>
      simp only [hentered, hgoal, hinsert]
      split_ifs <;> rfl

theorem generation_search (limit : Option Nat) (table : RouteTable) (goal : TwinState)
    (s : TwinSearch) (walks : List TwinWalk) :
    TwinSearch.generation limit (ρ.table table) (ρ.twins goal) (ρ.search s) (walks.map ρ.walk) =
      mapBoth ρ.stop ρ.search (TwinSearch.generation limit table goal s walks) := by
  refine foldlM_mapBoth (fun s w => ?_) walks s
  have hjoint : (ρ.table table).joint (ρ.walk w).here = (table.joint w.here).map ρ.step :=
    ρ.joint_table table w.here
  rw [hjoint]
  refine foldlM_mapBoth (fun s step => ?_) _ s
  rw [extend_walk, offer_search]

/-- The generations of renamed walks. -/
theorem run_search (limit : Option Nat) (table : RouteTable) (goal : TwinState) (rounds : Nat)
    (s : TwinSearch) :
    TwinSearch.run limit (ρ.table table) (ρ.twins goal) rounds (ρ.search s) =
      mapBoth ρ.stop id (TwinSearch.run limit table goal rounds s) := by
  induction rounds generalizing s with
  | zero =>
      rfl
  | succ rounds ih =>
      have hempty : (ρ.search s).fresh.isEmpty = s.fresh.isEmpty := List.isEmpty_map
      rw [TwinSearch.run, hempty, TwinSearch.run]
      split_ifs
      · rfl
      · refine bind_mapBoth ?_ fun next => ih next
        rw [← generation_search, List.map_reverse]
        rfl

theorem twinCycles_table (table : RouteTable) (limit : Option Nat) (s : StateId) (steps : Nat) :
    (ρ.table table).twinCycles limit (ρ.state s) steps =
      mapBoth id (Prod.map id (Option.map ρ.walk)) (table.twinCycles limit s steps) := by
  have hsize : (ρ.table table).size = table.size := size_rekey ρ.state_injective table
  have hgoal : ({ (TwinWalk.seed (ρ.state s)).here with apart := true } : TwinState) =
      ρ.twins { (TwinWalk.seed s).here with apart := true } := rfl
  have hstart : ({ steps
                   entered := {(TwinWalk.seed (ρ.state s)).here}
                   fresh := [.seed (ρ.state s)] } : TwinSearch) =
      ρ.search { steps, entered := {(TwinWalk.seed s).here}, fresh := [.seed s] } := by
    rw [search, rename_singleton]
    rfl
  rw [RouteTable.twinCycles, hsize, hgoal, hstart, run_search, RouteTable.twinCycles]
  cases TwinSearch.run limit table _ _ _ with
  | ok steps =>
      rfl
  | error stop =>
      cases stop <;> rfl

/-- The witness under the new names. -/
def witness (w : Witness) : Witness :=
  { state := ρ.state w.state
    word := w.word.map ρ.char
    first := w.first.map ρ.transition
    second := w.second.map ρ.transition }

theorem ofTwins_walk (s : StateId) (w : TwinWalk) :
    Witness.ofTwins (ρ.state s) (ρ.walk w) = ρ.witness (.ofTwins s w) := by
  rw [Witness.ofTwins, first_walk, second_walk, consumedWord_map_transition]
  rfl

def ending : CheckEnding → CheckEnding
  | .vulnerable w => .vulnerable (ρ.witness w)
  | .clear => .clear
  | .exhausted limit => .exhausted limit

/-- The course of a check under the new names. -/
def checkRun (r : CheckRun) : CheckRun :=
  { r with exempt := r.exempt.map ρ.state, ending := ρ.ending r.ending }

/-- What a check asks of an automaton has the same answers for another one, under other names.
The states that are tried come in the same order. -/
structure Carries (nfa nfa' : Nfa) : Prop where
  transitionsFrom : ∀ s, nfa'.graph.transitionsFrom (ρ.state s) =
    (nfa.graph.transitionsFrom s).map ρ.transition
  length_states : nfa'.graph.states.length = nfa.graph.states.length
  entered : nfa'.entered.toList = nfa.entered.toList.map ρ.state
  canGetStuck : ∀ s, nfa'.canGetStuck (ρ.state s) = nfa.canGetStuck s

namespace Carries

variable {ρ} {nfa nfa' : Nfa} (h : ρ.Carries nfa nfa')
include h

/-- The routes that go on from a renamed run of epsilon edges. -/
theorem harvest_eq (limit : Option Nat) (depth : Nat) (here : StateId) (visited : List StateId)
    (run : List Transition) (found : Harvest) :
    nfa'.harvest limit depth (ρ.state here) (visited.map ρ.state) (run.map ρ.transition)
        (ρ.harvest found) =
      mapBoth id ρ.harvest (nfa.harvest limit depth here visited run found) := by
  induction depth generalizing here visited run found with
  | zero =>
      rfl
  | succ depth ih =>
      rw [Nfa.harvest, h.transitionsFrom, Nfa.harvest]
      refine foldlM_mapBoth (fun found t => ?_) _ found
      refine bind_mapBoth (mapBoth_id_id (spend limit found.steps)).symm fun steps => ?_
      obtain ⟨source, label, target⟩ := t
      cases label with
      | char letter =>
          rw [← List.map_reverse]
          exact congrArg Except.ok (ρ.keep_harvest { found with steps }
            ⟨run.reverse, ⟨source, .char letter, target⟩, letter⟩)
      | epsilon =>
          have hvisited : (visited.map ρ.state).contains (ρ.state target) =
              visited.contains target := by
            rw [Bool.eq_iff_iff, List.contains_iff_mem, List.contains_iff_mem,
              List.mem_map_of_injective ρ.state_injective]
          simp only [transition, Label.relabel, hvisited]
          split_ifs
          · rfl
          · exact ih target (target :: visited) (⟨source, .epsilon, target⟩ :: run)
              { found with steps }
      | startAnchor | endAnchor =>
          rfl

theorem routesFrom_eq (limit : Option Nat) (s : StateId) (steps : Nat) :
    nfa'.routesFrom limit (ρ.state s) steps =
      mapBoth id (Prod.map (List.map ρ.route) id) (nfa.routesFrom limit s steps) := by
  rw [Nfa.routesFrom, h.length_states, Nfa.routesFrom]
  refine bind_mapBoth (h.harvest_eq limit _ s [s] [] { steps }) fun found => ?_
  rw [harvest, ← List.map_reverse]
  rfl

/-- The routes out of renamed states. -/
theorem routeTable_eq (limit : Option Nat) (states : List StateId) (table : RouteTable)
    (steps : Nat) :
    nfa'.routeTable limit (states.map ρ.state) (ρ.table table) steps =
      mapBoth id (Prod.map ρ.table id) (nfa.routeTable limit states table steps) := by
  induction states generalizing table steps with
  | nil =>
      rfl
  | cons s states ih =>
      rw [List.map_cons, Nfa.routeTable, Nfa.routeTable]
      refine bind_mapBoth (h.routesFrom_eq limit s steps) fun ⟨routes, steps⟩ => ?_
      refine Eq.trans ?_ (ih (table.insert s routes) steps)
      rw [Renaming.table, Renaming.table, rekey_insert ρ.state_injective]
      rfl

/-- The states that are left, tried one after another. -/
theorem tryStates_eq (limit : Option Nat) (table : RouteTable) (states exempt : List StateId)
    (steps : Nat) :
    nfa'.tryStates limit (ρ.table table) (states.map ρ.state) (exempt.map ρ.state) steps =
      ρ.checkRun (nfa.tryStates limit table states exempt steps) := by
  induction states generalizing exempt steps with
  | nil =>
      rw [List.map_nil, Nfa.tryStates, ← List.map_reverse]
      rfl
  | cons s states ih =>
      rw [List.map_cons, Nfa.tryStates, twinCycles_table, Nfa.tryStates, ← List.map_reverse]
      cases table.twinCycles limit s steps with
      | error e =>
          rfl
      | ok found =>
          obtain ⟨steps, _ | w⟩ := found
          · exact ih exempt steps
          · simp only [mapBoth, Prod.map, id, Option.map_some, h.canGetStuck, ofTwins_walk]
            split_ifs
            · rfl
            · exact ih (s :: exempt) steps

theorem checkRun_eq (limits : CheckLimits) :
    nfa'.checkRun limits = ρ.checkRun (nfa.checkRun limits) := by
  have htable := h.routeTable_eq limits.maxSteps nfa.entered.toList ∅ 0
  rw [Renaming.table, rekey_empty] at htable
  rw [Nfa.checkRun, h.entered, htable, Nfa.checkRun]
  cases nfa.routeTable limits.maxSteps nfa.entered.toList ∅ 0 with
  | error e =>
      rfl
  | ok found =>
      exact h.tryStates_eq limits.maxSteps found.1 nfa.entered.toList [] found.2

/-- The verdict is the same under the new names, or the check stops at the same limit. -/
theorem check_eq (limits : CheckLimits) :
    nfa'.check limits = (nfa.check limits).map (Option.map ρ.witness) := by
  rw [Nfa.check, h.checkRun_eq, Nfa.check, CheckRun.result, CheckRun.result, Renaming.checkRun]
  cases (nfa.checkRun limits).ending <;> rfl

end Carries

end Renaming

end Backtracking
