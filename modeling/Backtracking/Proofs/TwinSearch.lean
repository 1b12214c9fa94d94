import Backtracking.Check.Twin
import Backtracking.Proofs.Fragment

/-!
# The search for twin cycles is complete and shortest

`RouteTable.Joined` says which pairs of walks can go side by side by the routes of a
table.  A search that closes has found such a pair; a search that ends without closing
has entered every pair of states that two walks can come to, and its goal is not among
them.

**Saturation.**  Behind every generation the pairs entered are closed under one more step,
except for those of the generation itself (`TwinSearch.Open`).  Every walk of a generation
has entered a pair of its own, so the number of pairs bounds the number of generations.

**Length.**  The generations are the lengths of walks (`TwinSearch.Level`), so what closes a
search is as short as it can be.

**Results.**
* `RouteTable.joined_of_twinCycles`: what is found are two walks back to their state that
  have come apart.
* `RouteTable.length_le_of_twinCycles`: no two such walks are shorter.
* `RouteTable.not_joined_of_twinCycles`: nothing is found only if there are none.
* `RouteTable.exists_twinCycles_eq_ok`: without a limit there is an answer.
-/

namespace Backtracking

/-- The routes of a table out of a state. -/
def RouteTable.routes (table : RouteTable) (s : StateId) : List Route :=
  table[s]?.getD []

theorem RouteTable.mem_joint_iff (table : RouteTable) (p : TwinState) (r r' : Route) :
    (r, r') ∈ table.joint p ↔
      r ∈ table.routes p.left ∧ r' ∈ table.routes p.right ∧ r.letter = r'.letter := by
  simp only [joint, List.mem_flatMap, List.mem_map, List.mem_filter, beq_iff_eq,
    Prod.mk.injEq, routes]
  constructor
  · rintro ⟨a, ha, b, ⟨hb, hl⟩, rfl, rfl⟩
    exact ⟨ha, hb, hl⟩
  · rintro ⟨ha, hb, hl⟩
    exact ⟨r, ha, r', ⟨hb, hl⟩, rfl, rfl⟩

/-- Where two walks come to by one more route each. -/
def TwinState.advance (p : TwinState) (step : Route × Route) : TwinState :=
  { left := step.1.target
    right := step.2.target
    apart := p.apart || step.1 != step.2 }

/-- The pairs of walks that go side by side from `s` by the routes of a table. -/
inductive RouteTable.Joined (table : RouteTable) (s : StateId) : TwinWalk → Prop
  | seed : table.Joined s (.seed s)
  | extend
      {w : TwinWalk} {step : Route × Route}
      (hw : table.Joined s w) (hstep : step ∈ table.joint w.here) :
      table.Joined s (w.extend step)

namespace TwinSearch

variable {limit : Option Nat} {table : RouteTable} {goal : TwinState}
variable {s s' : TwinSearch} {w w' : TwinWalk} {n : Nat}

theorem eq_of_offer_eq_ok (h : s.offer limit goal w = .ok s') :
    (w.here ∈ s.entered ∧ s'.entered = s.entered ∧ s'.fresh = s.fresh) ∨
      (w.here ∉ s.entered ∧ w.here ≠ goal ∧
        s'.entered = s.entered.insert w.here ∧ s'.fresh = w :: s.fresh) := by
  rw [offer] at h
  cases hs : spend limit s.steps with
  | error e =>
      simp [hs] at h
  | ok steps =>
      simp only [hs, Std.ExtTreeSet.contains_iff_mem] at h
      split_ifs at h with hin hgoal
      · obtain rfl := Except.ok.inj h
        exact Or.inl ⟨hin, rfl, rfl⟩
      · obtain rfl := Except.ok.inj h
        exact Or.inr ⟨hin, hgoal, rfl, rfl⟩

theorem eq_of_offer_eq_closed (h : s.offer limit goal w = .error (.closed n w')) :
    w' = w ∧ w.here = goal := by
  rw [offer] at h
  cases hs : spend limit s.steps with
  | error e =>
      simp [hs] at h
  | ok steps =>
      simp only [hs] at h
      split_ifs at h with hin hgoal
      injection h with h
      injection h with _ h
      exact ⟨h.symm, hgoal⟩

theorem offer_ne_exhausted (e : Exhausted) : s.offer none goal w ≠ .error (.exhausted e) := by
  rw [offer, spend]
  split_ifs <;> simp

/-- What becomes of a search when some walks have been offered to it. -/
structure Grown (goal : TwinState) (offered : List TwinWalk) (s s' : TwinSearch) : Prop where
  entered_iff : ∀ p, p ∈ s'.entered ↔ p ∈ s.entered ∨ ∃ w ∈ offered, w.here = p
  fresh_of_fresh : ∀ w ∈ s.fresh, w ∈ s'.fresh
  fresh_or_offered : ∀ w ∈ s'.fresh, w ∈ s.fresh ∨ w ∈ offered
  /-- What is entered anew is shown by a fresh walk. -/
  shown : ∀ p ∈ s'.entered, p ∈ s.entered ∨ ∃ w ∈ s'.fresh, w.here = p
  goal_out : goal ∉ s.entered → goal ∉ s'.entered
  size_eq : s'.entered.size + s.fresh.length = s.entered.size + s'.fresh.length

theorem Grown.refl (goal : TwinState) (s : TwinSearch) : Grown goal [] s s := by
  refine ⟨fun p => ?_, fun w h => h, fun w h => Or.inl h, fun p h => Or.inl h, id, rfl⟩
  simp

theorem grown_of_offer (h : s.offer limit goal w = .ok s') : Grown goal [w] s s' := by
  rcases eq_of_offer_eq_ok h with ⟨hin, hent, hfresh⟩ | ⟨hout, hgoal, hent, hfresh⟩
  · rcases s' with ⟨steps, entered, fresh⟩
    obtain rfl : entered = s.entered := hent
    obtain rfl : fresh = s.fresh := hfresh
    refine ⟨fun p => ?_, fun v hv => hv, fun v hv => Or.inl hv, fun p hp => Or.inl hp, id, rfl⟩
    simp only [List.mem_singleton, exists_eq_left]
    exact ⟨Or.inl, fun h => h.elim id fun h => h ▸ hin⟩
  · have hmem : ∀ p, p ∈ s'.entered ↔ w.here = p ∨ p ∈ s.entered := fun p => by
      rw [hent, Std.ExtTreeSet.mem_insert, Std.LawfulEqCmp.compare_eq_iff_eq]
    refine ⟨fun p => ?_, fun v hv => ?_, fun v hv => ?_, fun p hp => ?_, fun hg hmem' => ?_, ?_⟩
    · rw [hmem, or_comm]
      simp
    · rw [hfresh]
      exact List.mem_cons_of_mem w hv
    · rw [hfresh] at hv
      exact (List.mem_cons.mp hv).symm.imp id List.mem_singleton.mpr
    · exact ((hmem p).mp hp).symm.imp id fun h => ⟨w, by simp [hfresh], h⟩
    · exact ((hmem goal).mp hmem').elim hgoal hg
    · have hout' : ¬ s.entered.contains w.here = true := hout
      rw [hent, hfresh, Std.ExtTreeSet.size_insert, if_neg hout', List.length_cons]
      omega

theorem Grown.trans
    {offered offered' : List TwinWalk} {s'' : TwinSearch}
    (h : Grown goal offered s s') (h' : Grown goal offered' s' s'') :
    Grown goal (offered ++ offered') s s'' := by
  refine ⟨fun p => ?_, fun w hw => h'.fresh_of_fresh w (h.fresh_of_fresh w hw),
    fun w hw => ?_, fun p hp => ?_, fun hg => h'.goal_out (h.goal_out hg), ?_⟩
  · rw [h'.entered_iff, h.entered_iff, or_assoc]
    simp only [List.mem_append, or_and_right, exists_or]
  · rcases h'.fresh_or_offered w hw with hw | hw
    · exact (h.fresh_or_offered w hw).imp id (List.mem_append_left _)
    · exact Or.inr (List.mem_append_right _ hw)
  · rcases h'.shown p hp with hp | hp
    · rcases h.shown p hp with hp | ⟨w, hw, rfl⟩
      · exact Or.inl hp
      · exact Or.inr ⟨w, h'.fresh_of_fresh w hw, rfl⟩
    · exact Or.inr hp
  · have h₁ := h.size_eq
    have h₂ := h'.size_eq
    omega

/-- The walks that are offered for a generation. -/
def candidates (table : RouteTable) (walks : List TwinWalk) : List TwinWalk :=
  walks.flatMap fun w => (table.joint w.here).map w.extend

theorem mem_candidates_iff (table : RouteTable) (walks : List TwinWalk) (w : TwinWalk) :
    w ∈ candidates table walks ↔
      ∃ v ∈ walks, ∃ step ∈ table.joint v.here, v.extend step = w := by
  simp only [candidates, List.mem_flatMap, List.mem_map]

/-- A generation offers its candidates one after another. -/
theorem generation_eq
    (limit : Option Nat) (table : RouteTable) (goal : TwinState) (s : TwinSearch)
    (walks : List TwinWalk) :
    generation limit table goal s walks =
      (candidates table walks).foldlM (fun s w => s.offer limit goal w) s := by
  rw [generation]
  induction walks generalizing s with
  | nil =>
      rfl
  | cons w walks ih =>
      rw [List.foldlM_cons, candidates, List.flatMap_cons, List.foldlM_append,
        List.foldlM_map]
      exact bind_congr ih

theorem grown_of_foldlM
    {offered : List TwinWalk}
    (h : offered.foldlM (fun s w => s.offer limit goal w) s = .ok s') :
    Grown goal offered s s' := by
  induction offered generalizing s with
  | nil =>
      obtain rfl := Except.ok.inj h
      exact .refl goal s
  | cons w offered ih =>
      rw [List.foldlM_cons] at h
      obtain ⟨m, hw, h⟩ := exists_of_bind_eq_ok h
      exact (grown_of_offer hw).trans (ih h)

theorem mem_of_foldlM_eq_closed
    {offered : List TwinWalk}
    (h : offered.foldlM (fun s w => s.offer limit goal w) s = .error (.closed n w)) :
    w ∈ offered ∧ w.here = goal := by
  induction offered generalizing s with
  | nil =>
      cases h
  | cons v offered ih =>
      rw [List.foldlM_cons] at h
      rcases eq_error_or_exists_of_bind_eq_error h with h | ⟨m, -, h⟩
      · obtain ⟨rfl, hgoal⟩ := eq_of_offer_eq_closed h
        exact ⟨List.mem_cons_self, hgoal⟩
      · exact (ih h).imp (List.mem_cons_of_mem v) id

theorem foldlM_ne_exhausted (offered : List TwinWalk) (s : TwinSearch) (e : Exhausted) :
    offered.foldlM (fun s w => s.offer none goal w) s ≠ .error (.exhausted e) := by
  induction offered generalizing s with
  | nil =>
      simp [pure, Except.pure]
  | cons v offered ih =>
      intro h
      rw [List.foldlM_cons] at h
      rcases eq_error_or_exists_of_bind_eq_error h with h | ⟨m, -, h⟩
      · exact offer_ne_exhausted e h
      · exact ih m h

theorem run_succ
    (limit : Option Nat) (table : RouteTable) (goal : TwinState) (rounds : Nat)
    (s : TwinSearch) :
    run limit table goal (rounds + 1) s =
      if s.fresh.isEmpty then .ok s.steps
      else (candidates table s.fresh.reverse).foldlM (fun s w => s.offer limit goal w)
        { s with fresh := [] } >>= fun next => next.run limit table goal rounds := by
  rw [run, generation_eq]
  rfl

/-- What a search closes with goes on from its fresh walks. -/
theorem joined_of_run
    {start : StateId} (rounds : Nat)
    (hfresh : ∀ w ∈ s.fresh, table.Joined start w)
    (h : run limit table goal rounds s = .error (.closed n w)) :
    table.Joined start w ∧ w.here = goal := by
  have hstep : ∀ {s : TwinSearch}, (∀ w ∈ s.fresh, table.Joined start w) →
      ∀ w ∈ candidates table s.fresh.reverse, table.Joined start w := by
    intro s hfresh w hw
    obtain ⟨v, hv, step, hstep, rfl⟩ := (mem_candidates_iff table _ w).mp hw
    exact .extend (hfresh v (List.mem_reverse.mp hv)) hstep
  induction rounds generalizing s with
  | zero =>
      cases h
  | succ rounds ih =>
      rw [run_succ] at h
      split_ifs at h
      rcases eq_error_or_exists_of_bind_eq_error h with h | ⟨next, hnext, h⟩
      · exact (mem_of_foldlM_eq_closed h).imp (hstep hfresh w) id
      · refine ih (fun v hv => ?_) h
        rcases (grown_of_foldlM hnext).fresh_or_offered v hv with hv | hv
        · exact absurd hv List.not_mem_nil
        · exact hstep hfresh v hv

theorem run_ne_exhausted (rounds : Nat) (s : TwinSearch) (e : Exhausted) :
    run none table goal rounds s ≠ .error (.exhausted e) := by
  induction rounds generalizing s with
  | zero =>
      simp [run, pure, Except.pure]
  | succ rounds ih =>
      rw [run_succ]
      split_ifs
      · simp
      · intro h
        rcases eq_error_or_exists_of_bind_eq_error h with h | ⟨next, -, h⟩
        · exact foldlM_ne_exhausted _ _ e h
        · exact ih next h

/-- Where a search stands: only the pairs of its fresh walks have not been left yet. -/
structure Open (table : RouteTable) (goal : TwinState) (s : TwinSearch) : Prop where
  goal_out : goal ∉ s.entered
  fresh_entered : ∀ w ∈ s.fresh, w.here ∈ s.entered
  left_behind : ∀ p ∈ s.entered, (∃ w ∈ s.fresh, w.here = p) ∨
    ∀ step ∈ table.joint p, p.advance step ∈ s.entered

/-- A generation takes one more step from every pair that was entered before it. -/
theorem Open.advance_mem
    (hs : Open table goal s)
    (h : Grown goal (candidates table s.fresh.reverse) { s with fresh := [] } s')
    {p : TwinState} (hp : p ∈ s.entered) {step : Route × Route} (hstep : step ∈ table.joint p) :
    p.advance step ∈ s'.entered := by
  refine (h.entered_iff _).mpr ?_
  rcases hs.left_behind p hp with ⟨w, hw, rfl⟩ | hall
  · refine Or.inr ⟨w.extend step, (mem_candidates_iff table _ _).mpr ?_, rfl⟩
    exact ⟨w, List.mem_reverse.mpr hw, step, hstep, rfl⟩
  · exact Or.inl (hall step hstep)

theorem Open.next
    (hs : Open table goal s)
    (h : Grown goal (candidates table s.fresh.reverse) { s with fresh := [] } s') :
    Open table goal s' := by
  refine ⟨h.goal_out hs.goal_out, fun w hw => ?_, fun p hp => ?_⟩
  · refine (h.entered_iff w.here).mpr (Or.inr ⟨w, ?_, rfl⟩)
    exact (h.fresh_or_offered w hw).resolve_left List.not_mem_nil
  · rcases h.shown p hp with hp | hp
    · exact Or.inr fun step hstep => hs.advance_mem h hp hstep
    · exact Or.inl hp

/-- A search that has gone through `k` generations: its fresh walks have taken `k` steps, and
every pair that is come to in at most `k` steps has been entered. -/
structure Level (table : RouteTable) (start : StateId) (k : Nat) (s : TwinSearch) : Prop where
  length_fresh : ∀ w ∈ s.fresh, w.trail.length = k
  mem_of_length_le : ∀ {v}, table.Joined start v → v.trail.length ≤ k → v.here ∈ s.entered

theorem Level.length_candidate
    {start : StateId} {k : Nat} (hs : Level table start k s)
    (hw : w ∈ candidates table s.fresh.reverse) : w.trail.length = k + 1 := by
  obtain ⟨v, hv, step, -, rfl⟩ := (mem_candidates_iff table _ w).mp hw
  change (step :: v.trail).length = k + 1
  rw [List.length_cons, hs.length_fresh v (List.mem_reverse.mp hv)]

theorem Level.next
    {start : StateId} {k : Nat} (hopen : Open table goal s) (hs : Level table start k s)
    (h : Grown goal (candidates table s.fresh.reverse) { s with fresh := [] } s') :
    Level table start (k + 1) s' := by
  refine ⟨fun w hw => ?_, fun {v} hv hlen => ?_⟩
  · exact hs.length_candidate ((h.fresh_or_offered w hw).resolve_left List.not_mem_nil)
  · cases hv with
    | seed =>
        exact (h.entered_iff _).mpr (Or.inl (hs.mem_of_length_le .seed (Nat.zero_le k)))
    | @extend w step hw hstep =>
        have hlen : w.trail.length ≤ k := Nat.le_of_succ_le_succ hlen
        exact hopen.advance_mem h (hs.mem_of_length_le hw hlen) hstep

/-- No walks that come to the goal take fewer steps than those that a search closes with. -/
theorem length_le_of_run
    {start : StateId} (rounds : Nat) {k : Nat}
    (hopen : Open table goal s) (hs : Level table start k s)
    (h : run limit table goal rounds s = .error (.closed n w))
    {v : TwinWalk} (hv : table.Joined start v) (hgoal : v.here = goal) :
    w.trail.length ≤ v.trail.length := by
  induction rounds generalizing s k with
  | zero =>
      cases h
  | succ rounds ih =>
      rw [run_succ] at h
      split_ifs at h
      rcases eq_error_or_exists_of_bind_eq_error h with h | ⟨next, hnext, h⟩
      · -- in fewer steps the goal would have been entered before this generation
        rw [hs.length_candidate (mem_of_foldlM_eq_closed h).1]
        by_contra hlt
        have hin := hs.mem_of_length_le hv (by omega)
        exact hopen.goal_out (hgoal ▸ hin)
      · have hgrown := grown_of_foldlM hnext
        exact ih (hopen.next hgrown) (hs.next hopen hgrown) h

/-- Behind a generation the pairs lie in a domain that a step of two walks does not leave. -/
theorem Open.domain_next
    {domain : TwinState → Prop}
    (hstep : ∀ p, domain p → ∀ step ∈ table.joint p, domain (p.advance step))
    (hs : Open table goal s) (hdom : ∀ p ∈ s.entered, domain p)
    (h : Grown goal (candidates table s.fresh.reverse) { s with fresh := [] } s') :
    ∀ p ∈ s'.entered, domain p := by
  intro p hp
  rcases (h.entered_iff p).mp hp with hp | ⟨w, hw, rfl⟩
  · exact hdom p hp
  · obtain ⟨v, hv, step, hmem, rfl⟩ := (mem_candidates_iff table _ w).mp hw
    exact hstep v.here (hdom _ (hs.fresh_entered v (List.mem_reverse.mp hv))) step hmem

/-- A generation enters a new pair, or it is the last one: rounds that suffice for all pairs
suffice behind it with one round less. -/
theorem Grown.enough
    {offered : List TwinWalk} {bound rounds : Nat}
    (h : Grown goal offered { s with fresh := [] } s')
    (enough : bound < rounds + 1 + s.entered.size) :
    s'.fresh = [] ∨ bound < rounds + s'.entered.size := by
  have hsize : s'.entered.size + 0 = s.entered.size + s'.fresh.length := h.size_eq
  rcases Nat.eq_zero_or_pos s'.fresh.length with hzero | hpos
  · exact Or.inl (List.length_eq_zero_iff.mp hzero)
  · exact Or.inr (by omega)

section Domain

variable {bound : Nat} (domain : TwinState → Prop)
  (hstep : ∀ p, domain p → ∀ step ∈ table.joint p, domain (p.advance step))
  (hbound : ∀ entered : Std.ExtTreeSet TwinState,
    (∀ p ∈ entered, domain p) → entered.size ≤ bound)

include hstep hbound

/-- A search that ends by itself leaves a closed set of pairs without its goal. -/
theorem exists_closed_of_run
    (rounds : Nat) (hs : Open table goal s) (hdom : ∀ p ∈ s.entered, domain p)
    (enough : s.fresh = [] ∨ bound < rounds + s.entered.size)
    (h : run limit table goal rounds s = .ok n) :
    ∃ entered : Std.ExtTreeSet TwinState, (∀ p ∈ s.entered, p ∈ entered) ∧ goal ∉ entered ∧
      ∀ p ∈ entered, ∀ step ∈ table.joint p, p.advance step ∈ entered := by
  have hend : ∀ {s : TwinSearch}, Open table goal s → s.fresh = [] →
      ∃ entered : Std.ExtTreeSet TwinState,
        (∀ p ∈ s.entered, p ∈ entered) ∧ goal ∉ entered ∧
          ∀ p ∈ entered, ∀ step ∈ table.joint p, p.advance step ∈ entered := by
    intro s hs hnone
    refine ⟨s.entered, fun p hp => hp, hs.goal_out, fun p hp => ?_⟩
    refine (hs.left_behind p hp).resolve_left ?_
    simp [hnone]
  induction rounds generalizing s with
  | zero =>
      have hle := hbound s.entered hdom
      exact hend hs (enough.resolve_right (by omega))
  | succ rounds ih =>
      rw [run_succ] at h
      split_ifs at h with hnone
      · exact hend hs (List.isEmpty_iff.mp hnone)
      · obtain ⟨next, hnext, h⟩ := exists_of_bind_eq_ok h
        have hgrown := grown_of_foldlM hnext
        have enough := enough.resolve_left fun hnil => hnone (List.isEmpty_iff.mpr hnil)
        obtain ⟨entered, hsub, hgoal, hclosed⟩ := ih (hs.next hgrown)
          (hs.domain_next hstep hdom hgrown) (hgrown.enough enough) h
        exact ⟨entered, fun p hp => hsub p ((hgrown.entered_iff p).mpr (Or.inl hp)), hgoal,
          hclosed⟩

end Domain

/-- The search for twin cycles of a state before its first generation. -/
def seed (s : StateId) (steps : Nat) : TwinSearch :=
  { steps, entered := {(TwinWalk.seed s).here}, fresh := [.seed s] }

/-- What the outcome of a search says about twin cycles. -/
def answer : Except TwinStop Nat → Except Exhausted (Nat × Option TwinWalk)
  | .ok steps => .ok (steps, none)
  | .error (.closed steps w) => .ok (steps, some w)
  | .error (.exhausted e) => .error e

end TwinSearch

namespace RouteTable

/-- The routes of a table lead to states of the table. -/
def Closed (table : RouteTable) : Prop :=
  ∀ s, ∀ r ∈ table.routes s, r.target ∈ table

/-- Both walks have come to states of the table. -/
def Covers (table : RouteTable) (p : TwinState) : Prop :=
  p.left ∈ table ∧ p.right ∈ table

theorem size_le_of_covers
    (table : RouteTable) (entered : Std.ExtTreeSet TwinState)
    (h : ∀ p ∈ entered, table.Covers p) : entered.size ≤ 2 * table.size * table.size := by
  have hsub : entered.toList ⊆
      (([false, true] ×ˢ (table.keys ×ˢ table.keys)).map fun q =>
        ({ left := q.2.1, right := q.2.2, apart := q.1 } : TwinState)) := by
    intro p hp
    obtain ⟨hl, hr⟩ := h p (Std.ExtTreeSet.mem_toList.mp hp)
    refine List.mem_map.mpr ⟨(p.apart, p.left, p.right), ?_, rfl⟩
    rw [List.mem_product, List.mem_product, Std.ExtTreeMap.mem_keys, Std.ExtTreeMap.mem_keys]
    refine ⟨?_, hl, hr⟩
    cases p.apart <;> simp
  have hnd : entered.toList.Nodup :=
    Std.ExtTreeSet.distinct_toList.imp fun hne heq =>
      hne (Std.LawfulEqCmp.compare_eq_iff_eq.mpr heq)
  have hlen := (hnd.subperm hsub).length_le
  rw [List.length_map, List.length_product, List.length_product, Std.ExtTreeMap.length_keys,
    Std.ExtTreeSet.length_toList] at hlen
  simpa [Nat.mul_assoc] using hlen

variable {limit : Option Nat} {table : RouteTable} {s : StateId} {steps n : Nat}

theorem twinCycles_eq_answer (table : RouteTable) (limit : Option Nat) (s : StateId)
    (steps : Nat) :
    table.twinCycles limit s steps =
      TwinSearch.answer (TwinSearch.run limit table { left := s, right := s, apart := true }
        (2 * table.size * table.size + 1) (.seed s steps)) :=
  rfl

/-- The pair that a search for twin cycles begins with. -/
theorem mem_entered_seed_iff (s : StateId) (p : TwinState) :
    p ∈ ({(TwinWalk.seed s).here} : Std.ExtTreeSet TwinState) ↔ (TwinWalk.seed s).here = p := by
  rw [Std.ExtTreeSet.singleton_eq_insert, Std.ExtTreeSet.mem_insert,
    Std.LawfulEqCmp.compare_eq_iff_eq]
  simp

theorem open_seed (table : RouteTable) (s : StateId) (steps : Nat) :
    TwinSearch.Open table { left := s, right := s, apart := true } (.seed s steps) := by
  refine ⟨fun hg => ?_, fun v hv => ?_, fun p hp => Or.inl ?_⟩
  · simpa [TwinWalk.seed] using (mem_entered_seed_iff s _).mp hg
  · rw [List.mem_singleton.mp hv]
    exact (mem_entered_seed_iff s _).mpr rfl
  · exact ⟨.seed s, List.mem_singleton.mpr rfl, (mem_entered_seed_iff s p).mp hp⟩

theorem level_seed (table : RouteTable) (s : StateId) (steps : Nat) :
    TwinSearch.Level table s 0 (.seed s steps) := by
  refine ⟨fun w hw => ?_, fun {v} hv hlen => ?_⟩
  · rw [List.mem_singleton.mp hw]
    rfl
  · cases hv with
    | seed =>
        exact (mem_entered_seed_iff s _).mpr rfl
    | extend =>
        exact absurd hlen (Nat.not_succ_le_zero _)

/-- What the search finds are two walks back to their state that have come apart. -/
theorem joined_of_twinCycles
    {w : TwinWalk} (h : table.twinCycles limit s steps = .ok (n, some w)) :
    table.Joined s w ∧ w.here = { left := s, right := s, apart := true } := by
  rw [twinCycles] at h
  split at h
  · cases h
  · next w' hrun =>
      obtain ⟨-, hw⟩ := Prod.mk.inj (Except.ok.inj h)
      obtain rfl := Option.some.inj hw
      refine TwinSearch.joined_of_run _ (fun v hv => ?_) hrun
      rw [List.mem_singleton.mp hv]
      exact .seed
  · cases h

/-- No two such walks are shorter than those that it finds. -/
theorem length_le_of_twinCycles
    {w v : TwinWalk} (h : table.twinCycles limit s steps = .ok (n, some w))
    (hv : table.Joined s v) (hgoal : v.here = { left := s, right := s, apart := true }) :
    w.trail.length ≤ v.trail.length := by
  rw [twinCycles] at h
  split at h
  · cases h
  · next w' hrun =>
      obtain ⟨-, hw⟩ := Prod.mk.inj (Except.ok.inj h)
      obtain rfl := Option.some.inj hw
      exact TwinSearch.length_le_of_run _ (open_seed table s steps) (level_seed table s steps)
        hrun hv hgoal
  · cases h

/-- Two walks do not leave a closed table. -/
theorem Closed.covers_advance (hclosed : table.Closed) :
    ∀ p, table.Covers p → ∀ step ∈ table.joint p, table.Covers (p.advance step) := by
  intro p _ step hmem
  obtain ⟨hl, hr, -⟩ := (table.mem_joint_iff p step.1 step.2).mp hmem
  exact ⟨hclosed _ _ hl, hclosed _ _ hr⟩

/-- It finds nothing only if there is nothing to be found. -/
theorem not_joined_of_twinCycles
    (hclosed : table.Closed) (hs : s ∈ table)
    (h : table.twinCycles limit s steps = .ok (n, none)) {w : TwinWalk}
    (hw : table.Joined s w) : w.here ≠ { left := s, right := s, apart := true } := by
  rw [twinCycles] at h
  split at h
  · next n' hrun =>
      obtain ⟨entered, hsub, hgoal, hstep⟩ := TwinSearch.exists_closed_of_run
        table.Covers hclosed.covers_advance (size_le_of_covers table) _
        (open_seed table s steps)
        (fun p hp => (mem_entered_seed_iff s p).mp hp ▸ ⟨hs, hs⟩)
        (Or.inr (by omega)) hrun
      have hall : ∀ {v : TwinWalk}, table.Joined s v → v.here ∈ entered := by
        intro v hv
        induction hv with
        | seed =>
            exact hsub _ ((mem_entered_seed_iff s _).mpr rfl)
        | extend _ hmem ih =>
            exact hstep _ ih _ hmem
      exact fun heq => hgoal (heq ▸ hall hw)
  · cases h
  · cases h

/-- Without a limit there is an answer. -/
theorem exists_twinCycles_eq_ok (table : RouteTable) (s : StateId) (steps : Nat) :
    ∃ a, table.twinCycles none s steps = .ok a := by
  rw [twinCycles]
  split
  · exact ⟨_, rfl⟩
  · exact ⟨_, rfl⟩
  · next e hrun =>
      exact absurd hrun (TwinSearch.run_ne_exhausted _ _ e)

end RouteTable

end Backtracking
