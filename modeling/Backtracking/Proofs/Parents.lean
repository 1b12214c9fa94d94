import Backtracking.Proofs.Verdict

/-!
# Twin cycles by a queue and a map of parents

Twin cycles can also be searched without keeping any walk.  Pairs wait in one queue, and of every
pair that is entered its parent is noted: the pair from which it was entered, and the routes that
were taken.  When the goal is entered, the notes are followed back to the pair with which the
search began, and the routes on the way back are the two cycles.

**Queue.**  Pairs are served in the order in which they were entered, so those of one generation
stand before those of the next (`PairSearch.Mirrors`).  Serving a generation leaves the pairs of
the next one, and the two searches take the same steps.

**Unwinding.**  A parent is noted when its pair is entered, and no pair is entered twice, so notes
are never overwritten.  What led back to the beginning once does so ever after, and what is
followed back from a pair are the routes of the walk that entered it (`Parents.Traced`).

**Results.**
* `RouteTable.Closed.finds_iff`: over a closed table such a search ends in one way only, with the
  two cycles that the search over walks finds, or with none if that finds none.
* `Nfa.Shaped.finds_checkTable_iff`: so it is for every state that a check tries.
-/

namespace Backtracking

/-- What is noted of a pair when it is entered. -/
structure Parent where
  pair : TwinState
  step : Route × Route

/-- The parents of the pairs that were entered. -/
abbrev Parents := Std.ExtTreeMap TwinState Parent

namespace Parents

variable {parents : Parents} {origin p q : TwinState} {trail trail' : List (Route × Route)}

/-- The parents of a pair are followed back to the pair of the beginning, or to one of which
nothing is noted; the routes that are passed are put down in this order. -/
inductive Unwinds (parents : Parents) (origin : TwinState) :
    TwinState → List (Route × Route) → Prop
  /-- The beginning is come to. -/
  | home : parents.Unwinds origin origin []
  /-- Nothing is noted. -/
  | lost {p : TwinState} (away : p ≠ origin) (none : parents[p]? = none) :
      parents.Unwinds origin p []
  /-- The way goes on from the parent. -/
  | back {p : TwinState} {parent : Parent} {trail : List (Route × Route)} (away : p ≠ origin)
      (noted : parents[p]? = some parent) (rest : parents.Unwinds origin parent.pair trail) :
      parents.Unwinds origin p (parent.step :: trail)

/-- A pair is followed back in one way only. -/
theorem Unwinds.eq (h : parents.Unwinds origin p trail) (h' : parents.Unwinds origin p trail') :
    trail = trail' := by
  induction h generalizing trail' with
  | home =>
      cases h' with
      | home => rfl
      | lost away _ => exact absurd rfl away
      | back away _ _ => exact absurd rfl away
  | lost away none =>
      cases h' with
      | home => exact absurd rfl away
      | lost _ _ => rfl
      | back _ noted _ => cases none.symm.trans noted
  | back away noted rest ih =>
      cases h' with
      | home => exact absurd rfl away
      | lost _ none => cases none.symm.trans noted
      | back _ noted' rest' =>
          obtain rfl := Option.some.inj (noted.symm.trans noted')
          rw [ih rest']

theorem getElem?_insert_of_ne (parent : Parent) (h : p ≠ q) :
    (parents.insert q parent)[p]? = parents[p]? := by
  rw [Std.ExtTreeMap.getElem?_insert, if_neg]
  rw [Std.LawfulEqCmp.compare_eq_iff_eq]
  exact fun heq => h heq.symm

variable {seen : Std.ExtTreeSet TwinState} {w v : TwinWalk} {step : Route × Route}

/-- The pair of the beginning has been seen, and so have all parents that are noted. -/
structure Rooted (parents : Parents) (seen : Std.ExtTreeSet TwinState) (origin : TwinState) :
    Prop where
  origin_seen : origin ∈ seen
  inside : ∀ (p : TwinState) (parent : Parent), parents[p]? = some parent → parent.pair ∈ seen

/-- The pair of a walk has been seen, and it is followed back along the routes of the walk. -/
structure Traced (parents : Parents) (seen : Std.ExtTreeSet TwinState) (origin : TwinState)
    (w : TwinWalk) : Prop where
  seen : w.here ∈ seen
  unwinds : parents.Unwinds origin w.here w.trail

/-- A note about a pair that has not been seen changes no way back. -/
theorem Unwinds.insert (h : parents.Unwinds origin p trail) (hroot : parents.Rooted seen origin)
    (hp : p ∈ seen) (hq : q ∉ seen) (parent : Parent) :
    Unwinds (parents.insert q parent) origin p trail := by
  have hne : ∀ {p}, p ∈ seen → p ≠ q := fun hp heq => hq (heq ▸ hp)
  induction h with
  | home =>
      exact .home
  | lost away none =>
      exact .lost away ((getElem?_insert_of_ne parent (hne hp)).trans none)
  | back away noted rest ih =>
      refine .back away ((getElem?_insert_of_ne parent (hne hp)).trans noted) (ih ?_)
      exact hroot.inside _ _ noted

/-- The parents with the one of the pair that a step leads to. -/
def note (parents : Parents) (pair : TwinState) (step : Route × Route) : Parents :=
  parents.insert (pair.advance step) { pair, step }

theorem Rooted.note (h : parents.Rooted seen origin) (hp : p ∈ seen) (step : Route × Route) :
    (parents.note p step).Rooted (seen.insert (p.advance step)) origin := by
  refine ⟨Std.ExtTreeSet.mem_insert.mpr (Or.inr h.origin_seen), fun q parent hparent => ?_⟩
  rw [Parents.note, Std.ExtTreeMap.getElem?_insert] at hparent
  refine Std.ExtTreeSet.mem_insert.mpr (Or.inr ?_)
  split_ifs at hparent
  · obtain rfl := Option.some.inj hparent
    exact hp
  · exact h.inside q parent hparent

/-- What was followed back before still is. -/
theorem Traced.note (hv : parents.Traced seen origin v) (hroot : parents.Rooted seen origin)
    (hnew : p.advance step ∉ seen) :
    (parents.note p step).Traced (seen.insert (p.advance step)) origin v :=
  ⟨Std.ExtTreeSet.mem_insert.mpr (Or.inr hv.seen), hv.unwinds.insert hroot hv.seen hnew _⟩

/-- The pair that is entered is followed back along the walk that enters it. -/
theorem Traced.extend (hw : parents.Traced seen origin w) (hroot : parents.Rooted seen origin)
    (hnew : w.here.advance step ∉ seen) :
    (parents.note w.here step).Traced (seen.insert (w.here.advance step)) origin
      (w.extend step) := by
  have away : w.here.advance step ≠ origin := fun heq => hnew (heq ▸ hroot.origin_seen)
  have noted : (parents.note w.here step)[w.here.advance step]? =
      some { pair := w.here, step } := Std.ExtTreeMap.getElem?_insert_self
  refine ⟨Std.ExtTreeSet.mem_insert_self, ?_⟩
  exact .back away noted (hw.unwinds.insert hroot hw.seen hnew _)

end Parents

/-- A search for twin cycles that notes parents: the steps so far, the pairs seen, their parents,
and the pairs that wait. -/
structure PairSearch where
  steps : Nat
  seen : Std.ExtTreeSet TwinState
  parents : Parents
  queue : List TwinState

/-- Why such a search stops early. -/
inductive PairStop
  | exhausted (e : Exhausted)
  | closed (steps : Nat) (parents : Parents)

namespace PairSearch

/-- The search before the first pair is served. -/
def seed (s : StateId) (steps : Nat) : PairSearch :=
  { steps, seen := {(TwinWalk.seed s).here}, parents := ∅, queue := [(TwinWalk.seed s).here] }

/-- The pair that a step leads to is seen and waits. -/
def enter (s : PairSearch) (pair : TwinState) (step : Route × Route) : PairSearch :=
  { s with
    seen := s.seen.insert (pair.advance step)
    parents := s.parents.note pair step
    queue := s.queue ++ [pair.advance step] }

/-- Tries one more step from a pair. -/
def offer (limit : Option Nat) (goal pair : TwinState) (s : PairSearch) (step : Route × Route) :
    Except PairStop PairSearch :=
  match spend limit s.steps with
  | .error e => .error (.exhausted e)
  | .ok steps =>
      if s.seen.contains (pair.advance step) then
        .ok { s with steps }
      else if pair.advance step = goal then
        .error (.closed steps (s.parents.note pair step))
      else
        .ok ({ s with steps }.enter pair step)

/-- Tries all steps from a pair. -/
def serve (limit : Option Nat) (table : RouteTable) (goal : TwinState) (s : PairSearch)
    (pair : TwinState) : Except PairStop PairSearch :=
  (table.joint pair).foldlM (offer limit goal pair) s

/-- The first pair of the queue is served, again and again, until none waits or the search
stops. -/
inductive Drains (limit : Option Nat) (table : RouteTable) (goal : TwinState) :
    PairSearch → Except PairStop Nat → Prop
  /-- Nothing waits. -/
  | empty {s : PairSearch} (hqueue : s.queue = []) : Drains limit table goal s (.ok s.steps)
  /-- The search stops while a pair is served. -/
  | stop {s : PairSearch} {pair : TwinState} {rest : List TwinState} {stop : PairStop}
      (hqueue : s.queue = pair :: rest)
      (hserve : serve limit table goal { s with queue := rest } pair = .error stop) :
      Drains limit table goal s (.error stop)
  /-- A pair has been served, and the search goes on. -/
  | step {s s' : PairSearch} {pair : TwinState} {rest : List TwinState}
      {r : Except PairStop Nat} (hqueue : s.queue = pair :: rest)
      (hserve : serve limit table goal { s with queue := rest } pair = .ok s')
      (later : Drains limit table goal s' r) : Drains limit table goal s r

variable {limit : Option Nat} {table : RouteTable} {goal origin : TwinState}
variable {s s' : PairSearch} {t t' : TwinSearch} {w v : TwinWalk} {walks : List TwinWalk}
variable {r r' : Except PairStop Nat} {α β : Type}

/-- A search ends in one way only. -/
theorem Drains.eq (h : Drains limit table goal s r) (h' : Drains limit table goal s r') :
    r = r' := by
  induction h generalizing r' with
  | empty hqueue =>
      cases h' with
      | empty => rfl
      | stop hqueue' _ => cases hqueue.symm.trans hqueue'
      | step hqueue' _ _ => cases hqueue.symm.trans hqueue'
  | stop hqueue hserve =>
      cases h' with
      | empty hqueue' => cases hqueue'.symm.trans hqueue
      | stop hqueue' hserve' =>
          obtain ⟨rfl, rfl⟩ := List.cons.inj (hqueue.symm.trans hqueue')
          exact congrArg Except.error (Except.error.inj (hserve.symm.trans hserve'))
      | step hqueue' hserve' _ =>
          obtain ⟨rfl, rfl⟩ := List.cons.inj (hqueue.symm.trans hqueue')
          cases hserve.symm.trans hserve'
  | step hqueue hserve later ih =>
      cases h' with
      | empty hqueue' => cases hqueue'.symm.trans hqueue
      | stop hqueue' hserve' =>
          obtain ⟨rfl, rfl⟩ := List.cons.inj (hqueue.symm.trans hqueue')
          cases hserve.symm.trans hserve'
      | step hqueue' hserve' later' =>
          obtain ⟨rfl, rfl⟩ := List.cons.inj (hqueue.symm.trans hqueue')
          obtain rfl := Except.ok.inj (hserve.symm.trans hserve')
          exact ih later'

/-- Two searches, one over walks and one over pairs, come to the same: both go on and `R` holds,
both are exhausted, or both close, and the notes lead back along the walks. -/
inductive Agrees (origin : TwinState) (R : α → β → Prop) :
    Except TwinStop α → Except PairStop β → Prop
  | ok {a : α} {b : β} (h : R a b) : Agrees origin R (.ok a) (.ok b)
  | exhausted (e : Exhausted) :
      Agrees origin R (.error (.exhausted e)) (.error (.exhausted e))
  | closed (n : Nat) {w : TwinWalk} {parents : Parents}
      (h : parents.Unwinds origin w.here w.trail) :
      Agrees origin R (.error (.closed n w)) (.error (.closed n parents))

theorem Agrees.mono {R R' : α → β → Prop} {x : Except TwinStop α} {y : Except PairStop β}
    (h : Agrees origin R x y) (hR : ∀ {a b}, R a b → R' a b) : Agrees origin R' x y := by
  cases h with
  | ok h => exact .ok (hR h)
  | exhausted e => exact .exhausted e
  | closed n h => exact .closed n h

/-- Steps that agree one by one agree as a whole. -/
theorem Agrees.foldlM {ι : Type} {R : α → β → Prop} {f : α → ι → Except TwinStop α}
    {g : β → ι → Except PairStop β} {a : α} {b : β} (xs : List ι)
    (hstep : ∀ {a b} x, R a b → Agrees origin R (f a x) (g b x)) (h : R a b) :
    Agrees origin R (xs.foldlM f a) (xs.foldlM g b) := by
  induction xs generalizing a b with
  | nil =>
      exact .ok h
  | cons x xs ih =>
      rw [List.foldlM_cons, List.foldlM_cons]
      have hfirst := hstep x h
      generalize f a x = fa at hfirst ⊢
      generalize g b x = gb at hfirst ⊢
      cases hfirst with
      | ok h => exact ih h
      | exhausted e => exact .exhausted e
      | closed n h => exact .closed n h

/-- A search over pairs stands where one over walks stands that has to try the steps of `walks`
before its fresh ones: the same pairs wait, and the notes lead back along the walks. -/
structure Mirrors (origin : TwinState) (walks : List TwinWalk) (t : TwinSearch)
    (s : PairSearch) : Prop where
  steps_eq : s.steps = t.steps
  seen_eq : s.seen = t.entered
  queue_eq : s.queue = (walks ++ t.fresh.reverse).map TwinWalk.here
  traced : ∀ w ∈ walks ++ t.fresh.reverse, s.parents.Traced s.seen origin w
  rooted : s.parents.Rooted s.seen origin

theorem Mirrors.spent (h : Mirrors origin walks t s) (steps : Nat) :
    Mirrors origin walks { t with steps } { s with steps } :=
  ⟨rfl, h.seen_eq, h.queue_eq, h.traced, h.rooted⟩

/-- A pair is entered from the pair of a walk, and the longer walk is fresh. -/
theorem Mirrors.enter (h : Mirrors origin walks t s) (hw : s.parents.Traced s.seen origin w)
    {step : Route × Route} (hnew : w.here.advance step ∉ s.seen) :
    Mirrors origin walks
      { t with entered := t.entered.insert (w.extend step).here, fresh := w.extend step :: t.fresh }
      (s.enter w.here step) := by
  refine ⟨h.steps_eq, ?_, ?_, fun v hv => ?_, h.rooted.note hw.seen step⟩
  · rw [← h.seen_eq]
    rfl
  · rw [List.reverse_cons, ← List.append_assoc, List.map_append, ← h.queue_eq]
    rfl
  · rw [List.reverse_cons, ← List.append_assoc, List.mem_append, List.mem_singleton] at hv
    obtain hv | rfl := hv
    · exact (h.traced v hv).note h.rooted hnew
    · exact hw.extend h.rooted hnew

/-- One more step from the pair of a walk. -/
theorem Mirrors.agrees_offer (h : Mirrors origin walks t s)
    (hw : s.parents.Traced s.seen origin w) (step : Route × Route) :
    Agrees origin (fun t s => Mirrors origin walks t s ∧ s.parents.Traced s.seen origin w)
      (t.offer limit goal (w.extend step)) (s.offer limit goal w.here step) := by
  have hnext : (w.extend step).here = w.here.advance step := rfl
  have hcontains : t.entered.contains (w.here.advance step) =
      s.seen.contains (w.here.advance step) := by rw [h.seen_eq]
  rw [TwinSearch.offer, offer, h.steps_eq, hnext]
  cases spend limit t.steps with
  | error e =>
      exact .exhausted e
  | ok steps =>
      simp only [hcontains]
      split_ifs with hold hgoal
      · exact .ok ⟨h.spent steps, hw⟩
      · exact .closed steps (hw.extend h.rooted hold).unwinds
      · exact .ok ⟨(h.spent steps).enter hw hold, hw.note h.rooted hold⟩

/-- Serving the first pair that waits is trying all steps of its walk. -/
theorem Mirrors.agrees_serve (h : Mirrors origin (w :: walks) t s) (limit : Option Nat)
    (table : RouteTable) (goal : TwinState) :
    ∃ rest, s.queue = w.here :: rest ∧
      Agrees origin (Mirrors origin walks)
        ((table.joint w.here).foldlM (fun t step => t.offer limit goal (w.extend step)) t)
        (serve limit table goal { s with queue := rest } w.here) := by
  have hw := h.traced w List.mem_cons_self
  have hrest : Mirrors origin walks t
      { s with queue := (walks ++ t.fresh.reverse).map TwinWalk.here } :=
    ⟨h.steps_eq, h.seen_eq, rfl, fun v hv => h.traced v (List.mem_cons_of_mem w hv), h.rooted⟩
  refine ⟨_, h.queue_eq, ?_⟩
  refine (Agrees.foldlM (R := fun t s => Mirrors origin walks t s ∧
    s.parents.Traced s.seen origin w) _ ?_ ⟨hrest, hw⟩).mono And.left
  exact fun step hstep => hstep.1.agrees_offer hstep.2 step

/-- Serving the pairs of a generation is trying all steps of its walks: how the search ends is
decided by how it ends afterwards. -/
theorem Mirrors.exists_drains_of_generation (h : Mirrors origin walks t s)
    (next : TwinSearch → Except TwinStop Nat)
    (hnext : ∀ {t' s'}, TwinSearch.generation limit table goal t walks = .ok t' →
      Mirrors origin [] t' s' →
        ∃ r, Drains limit table goal s' r ∧ Agrees origin Eq (next t') r) :
    ∃ r, Drains limit table goal s r ∧
      Agrees origin Eq (TwinSearch.generation limit table goal t walks >>= next) r := by
  induction walks generalizing t s with
  | nil =>
      exact hnext rfl h
  | cons w walks ih =>
      obtain ⟨rest, hqueue, hserve⟩ := h.agrees_serve limit table goal
      rw [TwinSearch.generation, List.foldlM_cons] at hnext ⊢
      generalize (table.joint w.here).foldlM
        (fun t step => TwinSearch.offer limit goal t (w.extend step)) t = x at hserve hnext ⊢
      generalize hy : serve limit table goal { s with queue := rest } w.here = y at hserve
      cases hserve with
      | ok hmirrors =>
          obtain ⟨r, hdrains, hagrees⟩ := ih hmirrors hnext
          exact ⟨r, .step hqueue hy hdrains, hagrees⟩
      | exhausted e =>
          exact ⟨_, .stop hqueue hy, .exhausted e⟩
      | closed n hback =>
          exact ⟨_, .stop hqueue hy, .closed n hback⟩

section Domain

variable {bound : Nat} (domain : TwinState → Prop)
  (hstep : ∀ p, domain p → ∀ step ∈ table.joint p, domain (p.advance step))
  (hbound : ∀ entered : Std.ExtTreeSet TwinState,
    (∀ p ∈ entered, domain p) → entered.size ≤ bound)

include hstep hbound

/-- Where the rounds of a search over walks suffice for all pairs, the queue runs empty or the
search stops, and both searches come to the same. -/
theorem Mirrors.exists_drains (h : Mirrors origin [] t s) (limit : Option Nat) (rounds : Nat)
    (hopen : TwinSearch.Open table goal t) (hdom : ∀ p ∈ t.entered, domain p)
    (enough : t.fresh = [] ∨ bound < rounds + t.entered.size) :
    ∃ r, Drains limit table goal s r ∧
      Agrees origin Eq (TwinSearch.run limit table goal rounds t) r := by
  have hend : ∀ {t s}, Mirrors origin [] t s → t.fresh = [] →
      ∃ r, Drains limit table goal s r ∧ Agrees origin Eq (.ok t.steps) r := by
    intro t s h hnone
    have hqueue : s.queue = [] := by simpa [hnone] using h.queue_eq
    exact ⟨_, .empty hqueue, .ok h.steps_eq.symm⟩
  induction rounds generalizing t s with
  | zero =>
      have hle := hbound t.entered hdom
      exact hend h (enough.resolve_right (by omega))
  | succ rounds ih =>
      rw [TwinSearch.run]
      split_ifs with hnone
      · exact hend h (List.isEmpty_iff.mp hnone)
      · have hnow : Mirrors origin t.fresh.reverse { t with fresh := [] } s := by
          refine ⟨h.steps_eq, h.seen_eq, ?_, fun v hv => h.traced v ?_, h.rooted⟩
          · simpa using h.queue_eq
          · simpa using hv
        refine hnow.exists_drains_of_generation _ fun hgen hnext => ?_
        rw [TwinSearch.generation_eq] at hgen
        have hgrown := TwinSearch.grown_of_foldlM hgen
        have enough := enough.resolve_left fun hnil => hnone (List.isEmpty_iff.mpr hnil)
        exact ih hnext (hopen.next hgrown) (hopen.domain_next hstep hdom hgrown)
          (hgrown.enough enough)

end Domain

end PairSearch

/-- The edges of two walks. -/
def TwinWalk.cycles (w : TwinWalk) : List Transition × List Transition :=
  (w.first, w.second)

namespace RouteTable

variable {table : RouteTable} {limit : Option Nat} {s : StateId} {steps : Nat}

/-- Two cycles are searched over pairs and put together from the routes on the way back. -/
inductive Finds (table : RouteTable) (limit : Option Nat) (s : StateId) (steps : Nat) :
    Except Exhausted (Nat × Option (List Transition × List Transition)) → Prop
  /-- The limit was reached. -/
  | exhausted {e : Exhausted}
      (h : PairSearch.Drains limit table { left := s, right := s, apart := true }
        (.seed s steps) (.error (.exhausted e))) :
      table.Finds limit s steps (.error e)
  /-- All pairs were served. -/
  | clear {n : Nat}
      (h : PairSearch.Drains limit table { left := s, right := s, apart := true }
        (.seed s steps) (.ok n)) :
      table.Finds limit s steps (.ok (n, none))
  /-- The goal was entered. -/
  | closed {n : Nat} {parents : Parents} {trail : List (Route × Route)}
      (h : PairSearch.Drains limit table { left := s, right := s, apart := true }
        (.seed s steps) (.error (.closed n parents)))
      (back : parents.Unwinds (TwinWalk.seed s).here { left := s, right := s, apart := true }
        trail) :
      table.Finds limit s steps (.ok (n, some
        (trail.reverse.flatMap fun step => step.1.transitions,
          trail.reverse.flatMap fun step => step.2.transitions)))

/-- Such a search ends in one way only. -/
theorem Finds.eq {a a' : Except Exhausted (Nat × Option (List Transition × List Transition))}
    (h : table.Finds limit s steps a) (h' : table.Finds limit s steps a') : a = a' := by
  cases h with
  | exhausted h =>
      cases h' with
      | exhausted h' => cases h.eq h'; rfl
      | clear h' => cases h.eq h'
      | closed h' _ => cases h.eq h'
  | clear h =>
      cases h' with
      | exhausted h' => cases h.eq h'
      | clear h' => cases h.eq h'; rfl
      | closed h' _ => cases h.eq h'
  | closed h back =>
      cases h' with
      | exhausted h' => cases h.eq h'
      | clear h' => cases h.eq h'
      | closed h' back' =>
          cases h.eq h'
          rw [back.eq back']

theorem mirrors_seed (s : StateId) (steps : Nat) :
    PairSearch.Mirrors (TwinWalk.seed s).here [] (.seed s steps) (.seed s steps) := by
  have hseen : (TwinWalk.seed s).here ∈ (PairSearch.seed s steps).seen :=
    (mem_entered_seed_iff s _).mpr rfl
  refine ⟨rfl, rfl, rfl, fun w hw => ?_, hseen, fun p parent hnoted => ?_⟩
  · obtain rfl := List.mem_singleton.mp hw
    exact ⟨hseen, .home⟩
  · rw [PairSearch.seed, Std.ExtTreeMap.getElem?_empty] at hnoted
    cases hnoted

/-- The search over pairs finds what the search over walks finds. -/
theorem Closed.finds_twinCycles (hclosed : table.Closed) (hs : s ∈ table) (limit : Option Nat)
    (steps : Nat) :
    table.Finds limit s steps
      ((table.twinCycles limit s steps).map fun a => (a.1, a.2.map TwinWalk.cycles)) := by
  obtain ⟨r, hdrains, hagrees⟩ := (mirrors_seed s steps).exists_drains table.Covers
    hclosed.covers_advance (size_le_of_covers table) limit
    (2 * table.size * table.size + 1) (open_seed table s steps)
    (fun p hp => (mem_entered_seed_iff s p).mp hp ▸ ⟨hs, hs⟩) (Or.inr (by omega))
  have hseed : ∀ w ∈ (TwinSearch.seed s steps).fresh, table.Joined s w := by
    intro w hw
    rw [List.mem_singleton.mp hw]
    exact .seed
  rw [twinCycles_eq_answer]
  generalize hrun : TwinSearch.run limit table { left := s, right := s, apart := true }
    (2 * table.size * table.size + 1) (.seed s steps) = x at hagrees ⊢
  cases hagrees with
  | ok h =>
      obtain rfl := h
      exact .clear hdrains
  | exhausted e =>
      exact .exhausted hdrains
  | @closed n w parents hback =>
      have hgoal := (TwinSearch.joined_of_run _ hseed hrun).2
      exact .closed hdrains (hgoal ▸ hback)

/-- The search over pairs ends in one way only, with what the search over walks finds. -/
theorem Closed.finds_iff (hclosed : table.Closed) (hs : s ∈ table)
    {a : Except Exhausted (Nat × Option (List Transition × List Transition))} :
    table.Finds limit s steps a ↔
      a = (table.twinCycles limit s steps).map fun a => (a.1, a.2.map TwinWalk.cycles) := by
  have hfinds := hclosed.finds_twinCycles hs limit steps
  constructor
  · exact fun h => h.eq hfinds
  · rintro rfl
    exact hfinds

end RouteTable

/-- For every state that a check of an automaton tries, the search over pairs ends in one way
only, with what the search over walks finds. -/
theorem Nfa.Shaped.finds_checkTable_iff {nfa : Nfa} {lo hi s : StateId} (hn : nfa.Shaped lo hi)
    (hs : s ∈ nfa.entered) {limit : Option Nat} {steps : Nat}
    {a : Except Exhausted (Nat × Option (List Transition × List Transition))} :
    nfa.checkTable.Finds limit s steps a ↔
      a = (nfa.checkTable.twinCycles limit s steps).map fun a =>
        (a.1, a.2.map TwinWalk.cycles) :=
  (closed_checkTable hn).finds_iff ((mem_checkTable_iff nfa s).mpr hs)

end Backtracking
