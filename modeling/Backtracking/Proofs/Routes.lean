import Backtracking.Proofs.Walk

/-!
# Routes are found, and two are kept for each edge

A check collects the routes out of a state depth first.  Here its outcome is split into
three: the list of all routes (`Nfa.routesOnward`), the number of edges that are followed
(`Nfa.edgesOnward`), and what is kept of the list (`keepRoute`).

**Budget.**  Steps are only added up, so a search under a limit is the unlimited one
together with one comparison of the whole cost (`charge`).

**Results.**
* `Nfa.harvest_eq`: a search for routes in terms of the three.
* `Nfa.mem_allRoutes_iff`: the routes found are those that `Nfa.IsRoute` describes.
* `exists_kept_of_mem`, `exists_kept_pair`: the kept routes show every edge, and show it
  twice where there are two routes onto it.
-/

namespace Backtracking

/-- The number of steps after some more, if the limit allows them all. -/
def charge (limit : Option Nat) (steps more : Nat) : Except Exhausted Nat :=
  match limit with
  | some l => if steps + more ≤ l then .ok (steps + more) else .error { limit := l }
  | none => .ok (steps + more)

/-- The limit allows so many steps. -/
def Affordable (limit : Option Nat) (steps : Nat) : Prop :=
  ∀ l ∈ limit, steps ≤ l

theorem spend_eq_charge (limit : Option Nat) (steps : Nat) :
    spend limit steps = charge limit steps 1 := by
  cases limit with
  | none =>
      rfl
  | some l =>
      simp only [spend, charge, Nat.succ_le_iff]

theorem charge_zero
    {limit : Option Nat} {steps : Nat} (h : Affordable limit steps) :
    charge limit steps 0 = .ok steps := by
  cases limit with
  | none =>
      rfl
  | some l =>
      rw [charge, Nat.add_zero, if_pos (h l rfl)]

theorem affordable_of_charge_eq_ok
    {limit : Option Nat} {steps more n : Nat} (h : charge limit steps more = .ok n) :
    n = steps + more ∧ Affordable limit n := by
  cases limit with
  | none =>
      exact ⟨(Except.ok.inj h).symm, fun l hl => by simp at hl⟩
  | some l =>
      rw [charge] at h
      split_ifs at h with hle
      obtain rfl := Except.ok.inj h
      exact ⟨rfl, fun l' hl => Option.some.inj hl ▸ hle⟩

theorem charge_add (limit : Option Nat) (steps a b : Nat) :
    (charge limit steps a >>= fun n => charge limit n b) = charge limit steps (a + b) := by
  cases limit with
  | none =>
      change Except.ok (steps + a + b) = _
      rw [Nat.add_assoc]
      rfl
  | some l =>
      simp only [charge]
      split_ifs with h₁ h₂ h₂
      · change (if steps + a + b ≤ l then _ else _) = _
        rw [if_pos (by omega), Nat.add_assoc]
      · change (if steps + a + b ≤ l then _ else _) = _
        rw [if_neg (by omega)]
      · omega
      · rfl

/-- Keeps a route, unless two with the same last edge are kept already. -/
def keepRoute (kept : List Route) (r : Route) : List Route :=
  if (kept.filter fun k => k.edge == r.edge).length < 2 then r :: kept else kept

/-- What a harvest is after more routes have been offered to it. -/
def Harvest.collect (h : Harvest) (steps : Nat) (rs : List Route) : Harvest :=
  { steps, routes := rs.foldl keepRoute h.routes }

theorem Harvest.keep_eq (h : Harvest) (r : Route) :
    h.keep r = h.collect h.steps [r] := by
  simp only [keep, collect, List.foldl_cons, List.foldl_nil, keepRoute]
  split_ifs <;> rfl

/-- Costs and finds of the members of a list add up. -/
theorem foldlM_charge
    {limit : Option Nat} {f : Harvest → Transition → Except Exhausted Harvest}
    {cost : Transition → Nat} {found : Transition → List Route}
    (hf : ∀ h t, Affordable limit h.steps →
      f h t = (charge limit h.steps (cost t)).map fun n => h.collect n (found t))
    (ts : List Transition) (h : Harvest) (hh : Affordable limit h.steps) :
    ts.foldlM f h =
      (charge limit h.steps (ts.map cost).sum).map fun n =>
        h.collect n (ts.flatMap found) := by
  induction ts generalizing h with
  | nil =>
      rw [List.foldlM_nil, List.map_nil, List.sum_nil, charge_zero hh]
      rfl
  | cons t ts ih =>
      rw [List.foldlM_cons, hf h t hh, List.map_cons, List.sum_cons, ← charge_add]
      cases hc : charge limit h.steps (cost t) with
      | error e =>
          rfl
      | ok n =>
          change ts.foldlM f (h.collect n (found t)) = (charge limit n _).map _
          rw [ih _ (affordable_of_charge_eq_ok hc).2]
          simp only [Harvest.collect, List.flatMap_cons, List.foldl_append]

namespace Nfa

/-- All routes that go on from `here`, in the order in which they are found. -/
def routesOnward (nfa : Nfa) :
    (depth : Nat) → (here : StateId) → (visited : List StateId) → (run : List Transition) →
    List Route
  | 0, _, _, _ => []
  | depth + 1, here, visited, run =>
      (nfa.graph.transitionsFrom here).flatMap fun t =>
        match t.label with
        | .char letter => [{ run := run.reverse, edge := t, letter }]
        | .epsilon =>
            if visited.contains t.target then []
            else nfa.routesOnward depth t.target (t.target :: visited) (t :: run)
        | .startAnchor | .endAnchor => []

/-- How many edges are followed from `here` on. -/
def edgesOnward (nfa : Nfa) : (depth : Nat) → (here : StateId) → (visited : List StateId) → Nat
  | 0, _, _ => 0
  | depth + 1, here, visited =>
      ((nfa.graph.transitionsFrom here).map fun t =>
        1 + match t.label with
          | .epsilon =>
              if visited.contains t.target then 0
              else nfa.edgesOnward depth t.target (t.target :: visited)
          | _ => 0).sum

/-- A search for routes pays for the edges that it follows and offers all routes. -/
theorem harvest_eq
    (nfa : Nfa) (limit : Option Nat) (depth : Nat) (here : StateId) (visited : List StateId)
    (run : List Transition) (h : Harvest) (hh : Affordable limit h.steps) :
    nfa.harvest limit depth here visited run h =
      (charge limit h.steps (nfa.edgesOnward depth here visited)).map fun n =>
        h.collect n (nfa.routesOnward depth here visited run) := by
  induction depth generalizing here visited run h with
  | zero =>
      rw [harvest, edgesOnward, routesOnward, charge_zero hh]
      rfl
  | succ depth ih =>
      rw [harvest, edgesOnward, routesOnward]
      refine foldlM_charge (fun h t hh => ?_) _ h hh
      rw [spend_eq_charge, ← charge_add]
      cases hc : charge limit h.steps 1 with
      | error e =>
          rfl
      | ok n =>
          have hn := (affordable_of_charge_eq_ok hc).2
          change (match t.label with
            | .char letter => _
            | .epsilon => _
            | .startAnchor | .endAnchor => _) = (charge limit n _).map _
          cases t.label with
          | char letter =>
              simp only [charge_zero hn, Harvest.keep_eq]
              rfl
          | epsilon =>
              simp only
              split_ifs
              · rw [charge_zero hn]
                rfl
              · rw [ih _ _ _ _ hn]
                rfl
          | _ =>
              simp only [charge_zero hn]
              rfl

/-- What a route out of `s` is: epsilon edges that visit no state twice, then the edge of
a character. -/
structure IsRoute (nfa : Nfa) (s : StateId) (r : Route) : Prop where
  walk : nfa.Walk s r.run r.edge.source
  arc : nfa.Arc r.edge.source r.edge.label r.edge.target
  silent : ∀ t ∈ r.run, t.label = .epsilon
  letter : r.edge.label = .char r.letter
  simple : (s :: r.run.map Transition.target).Nodup

theorem mem_transitionsFrom_iff
    {nfa : Nfa} (hf : nfa.graph.Filed) (s : StateId) (t : Transition) :
    t ∈ nfa.graph.transitionsFrom s ↔ s = t.source ∧ nfa.Arc t.source t.label t.target := by
  rw [hf.mem_transitionsFrom, Arc, @eq_comm _ s]
  constructor
  · rintro ⟨rfl, h⟩
    exact ⟨rfl, h⟩
  · rintro ⟨rfl, h⟩
    exact ⟨rfl, h⟩

theorem nodup_transitionsFrom
    {nfa : Nfa} {s : StateId} (h : (nfa.graph.row s).Nodup) :
    (nfa.graph.transitionsFrom s).Nodup :=
  List.Nodup.of_map Transition.edge h

/-- The routes found from `here` on: the run is continued by less than `depth` edges, and
without coming back to a visited state. -/
theorem mem_routesOnward_iff
    {nfa : Nfa} (hf : nfa.graph.Filed) (depth : Nat) (here : StateId) (visited : List StateId)
    (run : List Transition) (r : Route) :
    r ∈ nfa.routesOnward depth here visited run ↔
      ∃ more, r.run = run.reverse ++ more ∧ more.length < depth ∧
        nfa.Walk here more r.edge.source ∧
        nfa.Arc r.edge.source r.edge.label r.edge.target ∧
        (∀ t ∈ more, t.label = .epsilon) ∧ r.edge.label = .char r.letter ∧
        (more.map Transition.target).Nodup ∧ ∀ t ∈ more, t.target ∉ visited := by
  induction depth generalizing here visited run with
  | zero =>
      simp [routesOnward]
  | succ depth ih =>
      rw [routesOnward, List.mem_flatMap]
      simp only [mem_transitionsFrom_iff hf]
      constructor
      · rintro ⟨t, ⟨rfl, ht⟩, hr⟩
        cases hl : t.label with
        | char letter =>
            rw [hl] at hr
            obtain rfl := List.mem_singleton.mp hr
            exact ⟨[], by simp, by simp, .nil _, ht, by simp, hl, by simp, by simp⟩
        | epsilon =>
            simp only [hl] at hr
            split_ifs at hr with hvis
            · simp at hr
            · obtain ⟨more, hrun, hlen, hwalk, harc, hsil, hlet, hnd, hout⟩ :=
                (ih _ _ _).mp hr
              have hself : t.target ∉ visited := by simpa using hvis
              refine ⟨t :: more, by simp [hrun], by simpa using hlen, .cons ht hwalk, harc,
                List.forall_mem_cons.mpr ⟨hl, hsil⟩, hlet, ?_,
                List.forall_mem_cons.mpr ⟨hself, fun u hu hmem =>
                  hout u hu (List.mem_cons_of_mem _ hmem)⟩⟩
              rw [List.map_cons, List.nodup_cons]
              refine ⟨fun hmem => ?_, hnd⟩
              obtain ⟨u, hu, hut⟩ := List.mem_map.mp hmem
              exact hout u hu (hut ▸ List.mem_cons_self)
        | _ =>
            simp [hl] at hr
      · rintro ⟨more, hrun, hlen, hwalk, harc, hsil, hlet, hnd, hout⟩
        cases more with
        | nil =>
            obtain rfl := walk_nil_iff.mp hwalk
            refine ⟨r.edge, ⟨rfl, harc⟩, ?_⟩
            simp only [hlet]
            rw [List.mem_singleton]
            cases r
            simpa using hrun
        | cons t more =>
            obtain ⟨rfl, ht, hwalk⟩ := walk_cons_iff.mp hwalk
            obtain ⟨hl, hsil⟩ := List.forall_mem_cons.mp hsil
            obtain ⟨hself, hout⟩ := List.forall_mem_cons.mp hout
            rw [List.map_cons, List.nodup_cons] at hnd
            refine ⟨t, ⟨rfl, ht⟩, ?_⟩
            simp only [hl]
            rw [if_neg (by simpa using hself), ih]
            refine ⟨more, by simp [hrun], by simpa using hlen, hwalk, harc, hsil, hlet, hnd.2,
              fun u hu hmem => ?_⟩
            rcases List.mem_cons.mp hmem with hut | hmem
            · exact hnd.1 (List.mem_map.mpr ⟨u, hu, hut⟩)
            · exact hout u hu hmem

/-- No route is found twice. -/
theorem nodup_routesOnward
    {nfa : Nfa} (hf : nfa.graph.Filed) (hrow : ∀ s, (nfa.graph.row s).Nodup) (depth : Nat)
    (here : StateId) (visited : List StateId) (run : List Transition) :
    (nfa.routesOnward depth here visited run).Nodup := by
  induction depth generalizing here visited run with
  | zero =>
      exact List.nodup_nil
  | succ depth ih =>
      rw [routesOnward, List.nodup_flatMap]
      refine ⟨fun t _ => ?_, (nodup_transitionsFrom (hrow here)).imp fun {t t'} hne => ?_⟩
      · cases t.label with
        | epsilon =>
            simp only
            split_ifs
            · exact List.nodup_nil
            · exact ih _ _ _
        | _ =>
            simp
      · -- a route shows the edge along which it was found
        have hnext : ∀ u : Transition, ∀ r, r ∈ (match u.label with
            | .char letter => [(⟨run.reverse, u, letter⟩ : Route)]
            | .epsilon =>
                if visited.contains u.target then []
                else nfa.routesOnward depth u.target (u.target :: visited) (u :: run)
            | .startAnchor | .endAnchor => []) →
            ∃ rest, r.transitions = run.reverse ++ u :: rest := by
          intro u r hr
          cases hl : u.label with
          | char letter =>
              rw [hl] at hr
              obtain rfl := List.mem_singleton.mp hr
              exact ⟨[], rfl⟩
          | epsilon =>
              simp only [hl] at hr
              split_ifs at hr
              · simp at hr
              · obtain ⟨more, hrun, -⟩ := (mem_routesOnward_iff hf _ _ _ _ _).mp hr
                exact ⟨more ++ [r.edge], by simp [Route.transitions, hrun]⟩
          | _ =>
              simp [hl] at hr
        intro r hr hr'
        obtain ⟨rest, hrest⟩ := hnext t r hr
        obtain ⟨rest', hrest'⟩ := hnext t' r hr'
        rw [hrest, List.append_cancel_left_eq, List.cons.injEq] at hrest'
        exact hne hrest'.1

theorem IsRoute.walk_transitions {nfa : Nfa} {s : StateId} {r : Route} (hr : nfa.IsRoute s r) :
    nfa.Walk s r.transitions r.target :=
  hr.walk.append (walk_singleton_iff.mpr ⟨rfl, hr.arc, rfl⟩)

theorem IsRoute.owns_source
    {nfa : Nfa} {lo hi : StateId} (hn : nfa.Shaped lo hi) {s : StateId} {r : Route}
    (hr : nfa.IsRoute s r) : nfa.Owns s :=
  hr.walk_transitions.owns_source hn (by simp [Route.transitions])

/-- All routes out of a state. -/
def allRoutes (nfa : Nfa) (s : StateId) : List Route :=
  nfa.routesOnward nfa.graph.states.length s [s] []

/-- Runs that visit no state twice are short enough, and so every route is found. -/
theorem mem_allRoutes_iff
    {nfa : Nfa} {lo hi : StateId} (hn : nfa.Shaped lo hi) (s : StateId) (r : Route) :
    r ∈ nfa.allRoutes s ↔ nfa.IsRoute s r := by
  rw [allRoutes, mem_routesOnward_iff hn.filed]
  constructor
  · rintro ⟨more, hrun, -, hwalk, harc, hsil, hlet, hnd, hout⟩
    rw [List.reverse_nil, List.nil_append] at hrun
    subst hrun
    refine ⟨hwalk, harc, hsil, hlet, List.nodup_cons.mpr ⟨fun hmem => ?_, hnd⟩⟩
    obtain ⟨t, ht, hts⟩ := List.mem_map.mp hmem
    exact hout t ht (by simp [hts])
  · intro hr
    obtain ⟨hself, hnd⟩ := List.nodup_cons.mp hr.simple
    have howned : ∀ q ∈ s :: r.run.map Transition.target, q ∈ nfa.graph.states := by
      intro q hq
      rw [Graph.mem_states]
      rcases List.mem_cons.mp hq with rfl | hq
      · exact hr.owns_source hn
      · obtain ⟨t, ht, rfl⟩ := List.mem_map.mp hq
        exact (hn.inside (hr.walk.arc t ht)).2
    have hlen := (hr.simple.subperm howned).length_le
    rw [List.length_cons, List.length_map] at hlen
    refine ⟨r.run, by simp, hlen, hr.walk, hr.arc, hr.silent, hr.letter, hnd,
      fun t ht hmem => ?_⟩
    exact hself (List.mem_singleton.mp hmem ▸ List.mem_map_of_mem ht)

theorem nodup_allRoutes
    {nfa : Nfa} {lo hi : StateId} (hn : nfa.Shaped lo hi) (s : StateId) :
    (nfa.allRoutes s).Nodup :=
  nodup_routesOnward hn.filed (fun q => (hn.nodup_targets q).of_map) _ _ _ _

end Nfa

section Kept

/-- The routes of a list that end with an edge. -/
def endingWith (e : Transition) (rs : List Route) : List Route :=
  rs.filter fun r => r.edge == e

theorem mem_endingWith_iff (e : Transition) (rs : List Route) (r : Route) :
    r ∈ endingWith e rs ↔ r ∈ rs ∧ r.edge = e := by
  rw [endingWith, List.mem_filter, beq_iff_eq]

theorem endingWith_cons (e : Transition) (r : Route) (rs : List Route) :
    endingWith e (r :: rs) =
      if r.edge = e then r :: endingWith e rs else endingWith e rs := by
  rw [endingWith, List.filter_cons]
  simp only [beq_iff_eq]
  rfl

/-- What is kept of a list is part of it, in the order of the list. -/
theorem sublist_foldl_keepRoute (rs kept : List Route) :
    (rs.foldl keepRoute kept).reverse.Sublist (kept.reverse ++ rs) := by
  induction rs generalizing kept with
  | nil =>
      simp
  | cons r rs ih =>
      rw [List.foldl_cons]
      refine (ih _).trans ?_
      rw [keepRoute]
      split_ifs
      · simp
      · exact (List.sublist_cons_self r rs).append_left _

/-- Of the routes that end with an edge two are kept, or all if there are less. -/
theorem length_endingWith_foldl_keepRoute
    (e : Transition) (rs kept : List Route) (hkept : (endingWith e kept).length ≤ 2) :
    (endingWith e (rs.foldl keepRoute kept)).length =
      min 2 ((endingWith e kept).length + (endingWith e rs).length) := by
  induction rs generalizing kept with
  | nil =>
      simp only [List.foldl_nil, endingWith, List.filter_nil, List.length_nil, Nat.add_zero]
      exact (min_eq_right hkept).symm
  | cons r rs ih =>
      rw [List.foldl_cons, keepRoute, endingWith_cons]
      change (endingWith e (rs.foldl keepRoute
        (if (endingWith r.edge kept).length < 2 then _ else _))).length = _
      by_cases hr : r.edge = e
      · subst hr
        rw [if_pos rfl, List.length_cons]
        split_ifs with hfew
        · have hcons : (endingWith r.edge (r :: kept)).length =
              (endingWith r.edge kept).length + 1 := by
            rw [endingWith_cons, if_pos rfl, List.length_cons]
          rw [ih _ (by omega), hcons]
          omega
        · rw [ih _ hkept]
          omega
      · rw [if_neg hr]
        split_ifs
        · have hcons : endingWith e (r :: kept) = endingWith e kept := by
            rw [endingWith_cons, if_neg hr]
          rw [ih _ (by rwa [hcons]), hcons]
        · exact ih _ hkept

/-- What is kept of a list of routes, in the order of the list. -/
def keptOf (rs : List Route) : List Route :=
  (rs.foldl keepRoute []).reverse

theorem keptOf_sublist (rs : List Route) : (keptOf rs).Sublist rs :=
  sublist_foldl_keepRoute rs []

theorem length_endingWith_keptOf (e : Transition) (rs : List Route) :
    (endingWith e (keptOf rs)).length = min 2 (endingWith e rs).length := by
  have h := length_endingWith_foldl_keepRoute e rs [] (Nat.zero_le 2)
  rw [keptOf, endingWith, List.filter_reverse, List.length_reverse]
  exact h.trans (by rw [endingWith, List.filter_nil, List.length_nil, Nat.zero_add])

/-- For every route one with the same last edge is kept. -/
theorem exists_kept_of_mem {rs : List Route} {r : Route} (hr : r ∈ rs) :
    ∃ k ∈ keptOf rs, k.edge = r.edge := by
  have hpos : 0 < (endingWith r.edge rs).length :=
    List.length_pos_of_mem ((mem_endingWith_iff _ _ _).mpr ⟨hr, rfl⟩)
  have hkept : 0 < (endingWith r.edge (keptOf rs)).length := by
    rw [length_endingWith_keptOf]
    omega
  obtain ⟨k, hk⟩ := List.exists_mem_of_length_pos hkept
  exact ⟨k, (mem_endingWith_iff _ _ _).mp hk⟩

/-- A list with two different members is longer than one. -/
theorem one_lt_length_of_mem_of_mem
    {α : Type} {l : List α} {a b : α} (ha : a ∈ l) (hb : b ∈ l) (hne : a ≠ b) :
    1 < l.length := by
  match l, ha, hb with
  | [x], ha, hb =>
      exact absurd ((List.mem_singleton.mp ha).trans (List.mem_singleton.mp hb).symm) hne
  | x :: y :: l, _, _ =>
      simp

/-- Where two routes have the same last edge, two are kept. -/
theorem exists_kept_pair
    {rs : List Route} (hnd : rs.Nodup) {r r' : Route} (hr : r ∈ rs) (hr' : r' ∈ rs)
    (hedge : r'.edge = r.edge) (hne : r ≠ r') :
    ∃ k ∈ keptOf rs, ∃ k' ∈ keptOf rs, k.edge = r.edge ∧ k'.edge = r.edge ∧ k ≠ k' := by
  have hmany := one_lt_length_of_mem_of_mem
    ((mem_endingWith_iff r.edge _ _).mpr ⟨hr, rfl⟩)
    ((mem_endingWith_iff r.edge _ _).mpr ⟨hr', hedge⟩) hne
  have hkept : 1 < (endingWith r.edge (keptOf rs)).length := by
    rw [length_endingWith_keptOf]
    omega
  have hknd : (endingWith r.edge (keptOf rs)).Nodup :=
    ((keptOf_sublist rs).nodup hnd).filter _
  match hl : endingWith r.edge (keptOf rs), hkept, hknd with
  | k :: k' :: rest, _, hknd =>
      have hk := (mem_endingWith_iff r.edge (keptOf rs) k).mp (by simp [hl])
      have hk' := (mem_endingWith_iff r.edge (keptOf rs) k').mp (by simp [hl])
      refine ⟨k, hk.1, k', hk'.1, hk.2, hk'.2, fun heq => ?_⟩
      exact (List.nodup_cons.mp hknd).1 (heq ▸ List.mem_cons_self)

end Kept

namespace Nfa

/-- The routes out of a state that a check keeps. -/
def keptRoutes (nfa : Nfa) (s : StateId) : List Route :=
  keptOf (nfa.allRoutes s)

theorem isRoute_of_mem_keptRoutes
    {nfa : Nfa} {lo hi : StateId} (hn : nfa.Shaped lo hi) {s : StateId} {r : Route}
    (hr : r ∈ nfa.keptRoutes s) : nfa.IsRoute s r :=
  (mem_allRoutes_iff hn s r).mp ((keptOf_sublist _).subset hr)

/-- The edges that are followed for the routes out of a state. -/
def routeCost (nfa : Nfa) (s : StateId) : Nat :=
  nfa.edgesOnward nfa.graph.states.length s [s]

theorem routesFrom_eq
    (nfa : Nfa) (limit : Option Nat) (s : StateId) {steps : Nat}
    (hsteps : Affordable limit steps) :
    nfa.routesFrom limit s steps =
      (charge limit steps (nfa.routeCost s)).map fun n => (nfa.keptRoutes s, n) := by
  rw [routesFrom, harvest_eq nfa limit _ s [s] [] _ hsteps, routeCost]
  cases charge limit steps (nfa.edgesOnward nfa.graph.states.length s [s]) <;> rfl

/-- The table of the kept routes of some states. -/
def keptTable (nfa : Nfa) (states : List StateId) (table : RouteTable) : RouteTable :=
  states.foldl (fun table s => table.insert s (nfa.keptRoutes s)) table

theorem routeTable_eq
    (nfa : Nfa) (limit : Option Nat) (states : List StateId) (table : RouteTable)
    {steps : Nat} (hsteps : Affordable limit steps) :
    nfa.routeTable limit states table steps =
      (charge limit steps (states.map nfa.routeCost).sum).map fun n =>
        (nfa.keptTable states table, n) := by
  induction states generalizing table steps with
  | nil =>
      rw [routeTable, List.map_nil, List.sum_nil, charge_zero hsteps]
      rfl
  | cons s states ih =>
      rw [routeTable, routesFrom_eq nfa limit s hsteps, List.map_cons, List.sum_cons,
        ← charge_add]
      cases hc : charge limit steps (nfa.routeCost s) with
      | error e =>
          rfl
      | ok n =>
          exact ih (table.insert s (nfa.keptRoutes s)) (affordable_of_charge_eq_ok hc).2

theorem getElem?_keptTable
    (nfa : Nfa) (states : List StateId) (table : RouteTable) (s : StateId) :
    (nfa.keptTable states table)[s]? =
      if s ∈ states then some (nfa.keptRoutes s) else table[s]? := by
  induction states generalizing table with
  | nil =>
      rfl
  | cons q states ih =>
      change (nfa.keptTable states (table.insert q (nfa.keptRoutes q)))[s]? = _
      rw [ih]
      by_cases hs : s ∈ states
      · rw [if_pos hs, if_pos (List.mem_cons_of_mem q hs)]
      · rw [if_neg hs, Std.ExtTreeMap.getElem?_insert]
        by_cases hq : q = s
        · subst hq
          simp
        · simp [hs, hq, Ne.symm hq]

end Nfa

end Backtracking
