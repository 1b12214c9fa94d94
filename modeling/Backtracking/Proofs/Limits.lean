import Backtracking.Proofs.Stages

/-!
# Limits of a search are exact

A search with limits goes through the stages of the search without limits until it halts:
no path is left, as many rounds have been made as the limit allows, or the next stage has
outgrown the limit on paths.  Records and live paths only become more within a round, so
it does not matter where in the round a limit is looked at (`Arrival.excess?_eq_none_iff`).

**Rounds.**  A search halts early enough for the number of rounds after which it would be
given up as endless (`Nfa.lt_roundBound`).

**Results.**
* `Nfa.searchRun_of_halts`: how a search ends at the first stage where it halts.
* `Nfa.Thresholds`: what limits do to a search, and what they do not.
* `Nfa.endsWithin_searchRun`: in how many rounds a search ends.
* `Compiler.exists_search_thresholds`, `Compiler.exists_search_bounded`: this holds for
  the automata of trees, and their searches end if anything bounds them.
-/

namespace Backtracking

/-- The limit allows a number. -/
def Admits (limit : Option Nat) (n : Nat) : Prop :=
  ∀ bound, limit = some bound → n ≤ bound

theorem admits_none (n : Nat) : Admits none n :=
  fun _ h => nomatch h

theorem admits_some_iff {bound n : Nat} : Admits (some bound) n ↔ n ≤ bound := by
  simp [Admits]

theorem admits_zero (limit : Option Nat) : Admits limit 0 :=
  fun _ _ => Nat.zero_le _

/-- The limits `limits'` allow at least as much as `limits`, for the same kind of search. -/
structure SearchLimits.RelaxedTo (limits limits' : SearchLimits) : Prop where
  maxRounds : ∀ n, Admits limits.maxRounds n → Admits limits'.maxRounds n
  maxPaths : ∀ n, Admits limits.maxPaths n → Admits limits'.maxPaths n
  pruneLoops : limits'.pruneLoops = limits.pruneLoops

namespace Arrival

/-- The arrivals of a round stay within the limit exactly if they do so at the end of the
round. -/
theorem excess?_eq_none_iff (nfa : Nfa) (prune : Bool) {limit records live : Nat}
    (arrivals : List Arrival) (hrecords : records ≤ limit) (hlive : live ≤ limit) :
    excess? nfa prune limit records live arrivals = none ↔
      records + (arrivals.filter looped).length +
          (arrivals.filter (accepted nfa prune)).length ≤ limit ∧
        live + (arrivals.filter (alive prune)).length ≤ limit := by
  induction arrivals generalizing records live with
  | nil =>
      simp [excess?, hrecords, hlive]
  | cons a rest ih =>
      have hone : ∀ (n : Nat) (test : Arrival → Bool),
          (if test a = true then n + 1 else n) = n + ([a].filter test).length := fun n test => by
        cases h : test a <;> simp [h]
      have hlength : ∀ test : Arrival → Bool, ((a :: rest).filter test).length =
          ([a].filter test).length + (rest.filter test).length := fun test => by
        rw [← List.length_append, ← List.filter_append, List.singleton_append]
      rw [excess?, hlength, hlength, hlength, hone, hone, hone]
      by_cases hkept : limit < records + ([a].filter looped).length +
          ([a].filter (accepted nfa prune)).length
      · rw [if_pos hkept]
        simp only [reduceCtorEq, false_iff]
        omega
      · by_cases halive : limit < live + ([a].filter (alive prune)).length
        · rw [if_neg hkept, if_pos halive]
          simp only [reduceCtorEq, false_iff]
          omega
        · rw [if_neg hkept, if_neg halive,
            ih (Nat.le_of_not_lt hkept) (Nat.le_of_not_lt halive)]
          omega

end Arrival

/-- The number of rounds that a search has begun, which may be one more than it has
completed. -/
def SearchRun.begun (r : SearchRun) : Nat :=
  match r.ending with
  | .pathLimit _ _ => r.report.rounds + 1
  | _ => r.report.rounds

/-- The search ends, and has begun no more than `bound` rounds by then. -/
structure SearchRun.EndsWithin (r : SearchRun) (bound : Nat) : Prop where
  ends : r.ending ≠ .endless
  begun_le : r.begun ≤ bound

/-- The stage stays within the limit on paths. -/
structure Stage.Fits (limit : Option Nat) (s : Stage) : Prop where
  live : Admits limit s.live.length
  records : Admits limit s.report.records

namespace Nfa

variable {nfa : Nfa} {lo hi : StateId} {word : List Char} {limits limits' : SearchLimits}
variable {k m : Nat} {report : Report}

/-- A search does not go on from the stage after `k` rounds. -/
def Halts (nfa : Nfa) (word : List Char) (limits : SearchLimits) (k : Nat) : Prop :=
  (nfa.stage word limits.pruneLoops k).live = [] ∨ limits.maxRounds = some k ∨
    ¬ (nfa.stage word limits.pruneLoops (k + 1)).Fits limits.maxPaths

theorem fits_of_not_halts (h : ¬ nfa.Halts word limits k) :
    (nfa.stage word limits.pruneLoops (k + 1)).Fits limits.maxPaths :=
  not_not.mp fun hfits => h (Or.inr (Or.inr hfits))

theorem live_ne_nil_of_not_halts (h : ¬ nfa.Halts word limits k) :
    (nfa.stage word limits.pruneLoops k).live ≠ [] :=
  fun hnil => h (Or.inl hnil)

/-- A search that has not halted before is within its limits. -/
theorem admits_records (hbefore : ∀ j < k, ¬ nfa.Halts word limits j) :
    Admits limits.maxPaths (nfa.stage word limits.pruneLoops k).report.records := by
  cases k with
  | zero =>
      exact admits_zero _
  | succ k =>
      exact (fits_of_not_halts (hbefore k (Nat.lt_succ_self k))).records

theorem admits_rounds (hbefore : ∀ j < k, ¬ nfa.Halts word limits j) :
    Admits limits.maxRounds k := by
  intro bound hbound
  by_contra hlt
  exact hbefore bound (Nat.lt_of_not_le hlt) (Or.inr (Or.inl hbound))

theorem rounds_of_not_halts (hbefore : ∀ j < k, ¬ nfa.Halts word limits j) :
    (nfa.stage word limits.pruneLoops k).report.rounds = k :=
  rounds_stage fun j hj => live_ne_nil_of_not_halts (hbefore j hj)

/-- The arrivals of a round outgrow the limit on paths exactly if the next stage does. -/
theorem bind_excess?_eq_none_iff
    (hlive : (nfa.stage word limits.pruneLoops k).live ≠ [])
    (hrecords : Admits limits.maxPaths
      (nfa.stage word limits.pruneLoops k).report.records) :
    (limits.maxPaths.bind fun limit =>
        (Arrival.excess? nfa limits.pruneLoops limit
          (nfa.stage word limits.pruneLoops k).report.records 0
          (nfa.arrivals word (nfa.stage word limits.pruneLoops k).live)).map
            (SearchEnding.pathLimit limit)) = none ↔
      (nfa.stage word limits.pruneLoops (k + 1)).Fits limits.maxPaths := by
  cases hpaths : limits.maxPaths with
  | none =>
      exact iff_of_true rfl ⟨admits_none _, admits_none _⟩
  | some limit =>
      rw [Option.bind_some, Option.map_eq_none_iff, Arrival.excess?_eq_none_iff _ _ _
        (hrecords limit hpaths) (Nat.zero_le _), ← Report.records_addRound,
        ← report_stage_succ hlive, Nat.zero_add, ← List.length_map Arrival.path,
        ← live_stage_succ, and_comm]
      constructor
      · rintro ⟨hl, hr⟩
        exact ⟨admits_some_iff.mpr hl, admits_some_iff.mpr hr⟩
      · rintro ⟨hl, hr⟩
        exact ⟨admits_some_iff.mp hl, admits_some_iff.mp hr⟩

/-- The limit on rounds allows one more round unless it is reached just now. -/
theorem filter_maxRounds_eq_none
    (hbefore : ∀ j < k, ¬ nfa.Halts word limits j) (hround : limits.maxRounds ≠ some k) :
    (limits.maxRounds.filter fun limit =>
      limit ≤ (nfa.stage word limits.pruneLoops k).report.rounds) = none := by
  rw [rounds_of_not_halts hbefore, Option.filter_eq_none_iff]
  intro bound hbound hle
  have hge := admits_rounds hbefore bound hbound
  have heq : bound = k := Nat.le_antisymm (by simpa using hle) hge
  exact hround (heq ▸ hbound)

/-- Where a search does not halt it makes one more round. -/
theorem explore_succ_of_not_halts (rounds : Nat)
    (hbefore : ∀ j < k, ¬ nfa.Halts word limits j) (h : ¬ nfa.Halts word limits k) :
    nfa.explore word limits (rounds + 1) (nfa.stage word limits.pruneLoops k).report
        (nfa.stage word limits.pruneLoops k).live =
      nfa.explore word limits rounds (nfa.stage word limits.pruneLoops (k + 1)).report
        (nfa.stage word limits.pruneLoops (k + 1)).live := by
  have hlive := live_ne_nil_of_not_halts h
  have hrounds := filter_maxRounds_eq_none hbefore fun hround => h (Or.inr (Or.inl hround))
  have hpaths := (bind_excess?_eq_none_iff hlive (admits_records hbefore)).mpr
    (fits_of_not_halts h)
  rw [explore, if_neg (by simpa using hlive), hrounds]
  dsimp only
  rw [hpaths]
  dsimp only
  rw [report_stage_succ hlive, live_stage_succ]

/-- Until it halts a search goes through the stages. -/
theorem explore_eq_of_not_halts (rounds : Nat)
    (hbefore : ∀ j < k, ¬ nfa.Halts word limits j) :
    nfa.explore word limits (rounds + k) {} (nfa.seeds word) =
      nfa.explore word limits rounds (nfa.stage word limits.pruneLoops k).report
        (nfa.stage word limits.pruneLoops k).live := by
  induction k generalizing rounds with
  | zero =>
      rfl
  | succ k ih =>
      have hstep := explore_succ_of_not_halts rounds
        (fun j hj => hbefore j (Nat.lt_succ_of_lt hj)) (hbefore k (Nat.lt_succ_self k))
      rw [← hstep, ← ih (rounds + 1) fun j hj => hbefore j (Nat.lt_succ_of_lt hj),
        Nat.succ_add_eq_add_succ]

/-- How a search ends where it halts. -/
inductive EndsAt (nfa : Nfa) (word : List Char) (limits : SearchLimits) (k : Nat) :
    SearchEnding → Prop
  | exhausted (h : (nfa.stage word limits.pruneLoops k).live = []) :
      nfa.EndsAt word limits k .exhausted
  | roundLimit (hlive : (nfa.stage word limits.pruneLoops k).live ≠ [])
      (h : limits.maxRounds = some k) : nfa.EndsAt word limits k (.roundLimit k)
  | pathLimit (hlive : (nfa.stage word limits.pruneLoops k).live ≠ [])
      (hround : limits.maxRounds ≠ some k) {limit : Nat} (h : limits.maxPaths = some limit)
      (hfits : ¬ (nfa.stage word limits.pruneLoops (k + 1)).Fits limits.maxPaths)
      (excess : Excess) : nfa.EndsAt word limits k (.pathLimit limit excess)

theorem explore_of_halts (rounds : Nat) (hbefore : ∀ j < k, ¬ nfa.Halts word limits j)
    (h : nfa.Halts word limits k) :
    ∃ ending, nfa.EndsAt word limits k ending ∧
      nfa.explore word limits (rounds + 1) (nfa.stage word limits.pruneLoops k).report
          (nfa.stage word limits.pruneLoops k).live =
        { report := (nfa.stage word limits.pruneLoops k).report, ending } := by
  rw [explore]
  by_cases hlive : (nfa.stage word limits.pruneLoops k).live = []
  · rw [if_pos (by simpa using hlive)]
    exact ⟨_, .exhausted hlive, rfl⟩
  · rw [if_neg (by simpa using hlive)]
    by_cases hround : limits.maxRounds = some k
    · have hreached : (limits.maxRounds.filter fun limit =>
          limit ≤ (nfa.stage word limits.pruneLoops k).report.rounds) = some k := by
        simp [hround, rounds_of_not_halts hbefore]
      rw [hreached]
      exact ⟨_, .roundLimit hlive hround, rfl⟩
    · have hfits : ¬ (nfa.stage word limits.pruneLoops (k + 1)).Fits limits.maxPaths :=
        (h.resolve_left hlive).resolve_left hround
      have hexcess := mt (bind_excess?_eq_none_iff hlive (admits_records hbefore)).mp hfits
      obtain ⟨ending, hending⟩ := Option.ne_none_iff_exists'.mp hexcess
      obtain ⟨limit, hlimit, hexcess⟩ := Option.bind_eq_some_iff.mp hending
      obtain ⟨excess, -, rfl⟩ := Option.map_eq_some_iff.mp hexcess
      rw [filter_maxRounds_eq_none hbefore hround]
      dsimp only
      rw [hending]
      exact ⟨_, .pathLimit hlive hround hlimit hfits excess, rfl⟩

/-- Under a limit on paths a search that goes on has made fewer rounds than there are
configurations and paths allowed. -/
theorem lt_add_maxPaths (hn : nfa.Shaped lo hi) {limit : Nat}
    (hlimit : limits.maxPaths = some limit) (hbefore : ∀ j < k, ¬ nfa.Halts word limits j)
    (hlive : (nfa.stage word limits.pruneLoops k).live ≠ []) :
    k < nfa.graph.states.length * (word.length + 1) + limit := by
  have hrecords := admits_records hbefore limit hlimit
  have hlt := lt_add_records hn hlive
  omega

/-- A search halts before it is given up. -/
theorem lt_roundBound (hn : nfa.Shaped lo hi) (hbefore : ∀ j < k, ¬ nfa.Halts word limits j)
    (h : nfa.Halts word limits k) : k < nfa.roundBound word limits := by
  rw [roundBound]
  cases k with
  | zero =>
      omega
  | succ k =>
      have hprev : ∀ j < k, ¬ nfa.Halts word limits j :=
        fun j hj => hbefore j (Nat.lt_succ_of_lt hj)
      have hlive := live_ne_nil_of_not_halts (hbefore k (Nat.lt_succ_self k))
      cases hpaths : limits.maxPaths with
      | some limit =>
          have hlt := lt_add_maxPaths hn hpaths hprev hlive
          rw [Option.getD_some]
          omega
      | none =>
          rcases h with hnil | hround | hfits
          · have hlt : ¬ nfa.graph.states.length * (word.length + 1) ≤ k := fun hle =>
              live_stage_ne_nil_of_le hlive hle (live_stage_eq_nil hn hnil)
            omega
          · rw [hround, Option.getD_some]
            omega
          · exact absurd (hpaths ▸ ⟨admits_none _, admits_none _⟩) hfits

/-- How a search ends at the first stage where it halts. -/
theorem searchRun_of_halts (hn : nfa.Shaped lo hi)
    (hbefore : ∀ j < k, ¬ nfa.Halts word limits j) (h : nfa.Halts word limits k) :
    ∃ ending, nfa.EndsAt word limits k ending ∧
      nfa.searchRun word limits =
        { report := (nfa.stage word limits.pruneLoops k).report, ending } := by
  obtain ⟨rounds, hrounds⟩ := Nat.exists_eq_add_of_lt (lt_roundBound hn hbefore h)
  obtain ⟨ending, hends, hrun⟩ := explore_of_halts rounds hbefore h
  refine ⟨ending, hends, ?_⟩
  rw [searchRun, hrounds, Nat.add_assoc, Nat.add_comm, explore_eq_of_not_halts _ hbefore, hrun]

theorem exists_first_halt (h : nfa.Halts word limits m) :
    ∃ k ≤ m, nfa.Halts word limits k ∧ ∀ j < k, ¬ nfa.Halts word limits j := by
  classical
  have hex : ∃ k, nfa.Halts word limits k := ⟨m, h⟩
  exact ⟨Nat.find hex, Nat.find_min' hex h, Nat.find_spec hex, fun j hj => Nat.find_min hex hj⟩

theorem search_of_halts (hn : nfa.Shaped lo hi)
    (hbefore : ∀ j < k, ¬ nfa.Halts word limits j) (h : nfa.Halts word limits k) :
    ∃ ending, nfa.EndsAt word limits k ending ∧
      nfa.search word limits =
        SearchRun.result { report := (nfa.stage word limits.pruneLoops k).report, ending } := by
  obtain ⟨ending, hends, hrun⟩ := searchRun_of_halts hn hbefore h
  exact ⟨ending, hends, congrArg SearchRun.result hrun⟩

/-- The stages that a search may come to stay within the limit on paths. -/
def Fitting (nfa : Nfa) (word : List Char) (limits : SearchLimits) : Prop :=
  ∀ k, 1 ≤ k → Admits limits.maxRounds k →
    (nfa.stage word limits.pruneLoops k).Fits limits.maxPaths

/-- What limits do to a search, told by the stages of the search without limits. -/
structure Thresholds (nfa : Nfa) (word : List Char) (limits : SearchLimits) : Prop where
  /-- A limit on paths that is outgrown in one of the rounds allowed ends the search. -/
  pathLimit : ∀ limit k, limits.maxPaths = some limit → 1 ≤ k → Admits limits.maxRounds k →
    (limit < (nfa.stage word limits.pruneLoops k).live.length ∨
      limit < (nfa.stage word limits.pruneLoops k).report.records) →
    nfa.search word limits = .error (.paths limit)
  /-- Otherwise a limit on rounds ends the search if paths are left behind the last round
  allowed. -/
  roundLimit : nfa.Fitting word limits → ∀ limit, limits.maxRounds = some limit →
    (nfa.stage word limits.pruneLoops limit).live ≠ [] →
    nfa.search word limits = .error (.rounds limit)
  /-- Otherwise, if the stages have an end, the search ends there. -/
  exhausted : nfa.Fitting word limits →
    (∀ limit, limits.maxRounds = some limit →
      (nfa.stage word limits.pruneLoops limit).live = []) →
    ∀ k, (nfa.stage word limits.pruneLoops k).live = [] →
      nfa.search word limits = .ok (nfa.stage word limits.pruneLoops k).report
  /-- Larger limits do not change a report. -/
  relaxed : ∀ limits' report, limits.RelaxedTo limits' →
    nfa.search word limits = .ok report → nfa.search word limits' = .ok report
  /-- A report is within the limits. -/
  within : ∀ report, nfa.search word limits = .ok report →
    Admits limits.maxRounds report.rounds ∧ Admits limits.maxPaths report.peakPaths ∧
      Admits limits.maxPaths report.records

/-- A stage that outgrows the limit on paths in a round allowed ends the search. -/
theorem search_of_not_fits (hn : nfa.Shaped lo hi) {limit : Nat}
    (hlimit : limits.maxPaths = some limit) (hk : Admits limits.maxRounds (k + 1))
    (hfits : ¬ (nfa.stage word limits.pruneLoops (k + 1)).Fits limits.maxPaths) :
    nfa.search word limits = .error (.paths limit) := by
  obtain ⟨i, hi, hhalts, hbefore⟩ := exists_first_halt (Or.inr (Or.inr hfits))
  obtain ⟨ending, hends, hsearch⟩ := search_of_halts hn hbefore hhalts
  rw [hsearch]
  cases hends with
  | exhausted hnil =>
      -- the last stage would be the one that outgrows the limit
      rw [stage_eq_of_le hnil (Nat.le_succ_of_le hi)] at hfits
      cases i with
      | zero =>
          exact absurd hnil (live_stage_zero_ne_nil _ _ _)
      | succ i =>
          exact absurd (fits_of_not_halts (hbefore i (Nat.lt_succ_self i))) hfits
  | roundLimit _ hround =>
      have hle := hk i hround
      omega
  | pathLimit _ _ hlimit' =>
      obtain rfl := Option.some.inj (hlimit.symm.trans hlimit')
      rfl

/-- Paths that are left behind the last round allowed end the search. -/
theorem search_of_live_ne_nil (hn : nfa.Shaped lo hi) (hfitting : nfa.Fitting word limits)
    {limit : Nat} (hlimit : limits.maxRounds = some limit)
    (hlive : (nfa.stage word limits.pruneLoops limit).live ≠ []) :
    nfa.search word limits = .error (.rounds limit) := by
  obtain ⟨i, hi, hhalts, hbefore⟩ := exists_first_halt (Or.inr (Or.inl hlimit))
  obtain ⟨ending, hends, hsearch⟩ := search_of_halts hn hbefore hhalts
  rw [hsearch]
  cases hends with
  | exhausted hnil =>
      exact absurd hnil (live_stage_ne_nil_of_le hlive hi)
  | roundLimit _ hround =>
      obtain rfl := Option.some.inj (hlimit.symm.trans hround)
      rfl
  | pathLimit _ hround _ hfits =>
      have hne : i ≠ limit := fun heq => hround (heq ▸ hlimit)
      refine absurd (hfitting (i + 1) (Nat.le_add_left 1 i) fun bound hbound => ?_) hfits
      obtain rfl := Option.some.inj (hlimit.symm.trans hbound)
      omega

/-- Where the stages end, the search ends. -/
theorem search_of_live_eq_nil (hn : nfa.Shaped lo hi) (hfitting : nfa.Fitting word limits)
    (hk : Admits limits.maxRounds k) (hnil : (nfa.stage word limits.pruneLoops k).live = []) :
    nfa.search word limits = .ok (nfa.stage word limits.pruneLoops k).report := by
  obtain ⟨i, hi, hhalts, hbefore⟩ := exists_first_halt (Or.inl hnil)
  obtain ⟨ending, hends, hsearch⟩ := search_of_halts hn hbefore hhalts
  rw [hsearch]
  cases hends with
  | exhausted hnil' =>
      rw [stage_eq_of_live_eq_nil hnil hnil']
      rfl
  | roundLimit hlive hround =>
      obtain rfl := Nat.le_antisymm hi (hk i hround)
      exact absurd hnil hlive
  | pathLimit hlive _ _ hfits =>
      have hne : i ≠ k := fun heq => hlive (heq ▸ hnil)
      refine absurd (hfitting (i + 1) (Nat.le_add_left 1 i) fun bound hbound => ?_) hfits
      have hle := hk bound hbound
      omega

/-- A search that has a report halted at the last stage. -/
theorem exists_halt_of_search (hn : nfa.Shaped lo hi)
    (hsearch : nfa.search word limits = .ok report) :
    ∃ k, (nfa.stage word limits.pruneLoops k).live = [] ∧
      (∀ j < k, ¬ nfa.Halts word limits j) ∧
      report = (nfa.stage word limits.pruneLoops k).report := by
  by_cases hhalts : ∃ m, nfa.Halts word limits m
  · obtain ⟨m, hm⟩ := hhalts
    obtain ⟨k, -, hk, hbefore⟩ := exists_first_halt hm
    obtain ⟨ending, hends, hrun⟩ := search_of_halts hn hbefore hk
    rw [hrun] at hsearch
    cases hends with
    | exhausted hnil =>
        exact ⟨k, hnil, hbefore, (Except.ok.inj hsearch).symm⟩
    | roundLimit _ _ =>
        cases hsearch
    | pathLimit _ _ _ _ _ =>
        cases hsearch
  · -- such a search is given up
    have hrun := explore_eq_of_not_halts 0 (k := nfa.roundBound word limits)
      fun j _ hj => hhalts ⟨j, hj⟩
    rw [Nat.zero_add] at hrun
    rw [search, searchRun, hrun] at hsearch
    cases hsearch

/-- All stages of a search that comes to its end stay within the limit on paths. -/
theorem fits_stage (hbefore : ∀ j < k, ¬ nfa.Halts word limits j)
    (hnil : (nfa.stage word limits.pruneLoops k).live = []) {i : Nat} (hi : 1 ≤ i) :
    (nfa.stage word limits.pruneLoops i).Fits limits.maxPaths := by
  rcases Nat.lt_or_ge k i with hlt | hle
  · rw [stage_eq_of_le hnil hlt.le]
    cases k with
    | zero =>
        exact absurd hnil (live_stage_zero_ne_nil _ _ _)
    | succ k =>
        exact fits_of_not_halts (hbefore k (Nat.lt_succ_self k))
  · obtain ⟨j, rfl⟩ := Nat.exists_eq_add_of_le' hi
    exact fits_of_not_halts (hbefore j hle)

/-- A search has a report exactly if the stages come to an end within its limits, and then it
is the report of the last stage. -/
theorem search_eq_ok_iff (hn : nfa.Shaped lo hi) :
    nfa.search word limits = .ok report ↔
      ∃ k, (nfa.stage word limits.pruneLoops k).live = [] ∧ Admits limits.maxRounds k ∧
        (∀ i, 1 ≤ i → (nfa.stage word limits.pruneLoops i).Fits limits.maxPaths) ∧
        (nfa.stage word limits.pruneLoops k).report = report := by
  constructor
  · intro hsearch
    obtain ⟨k, hnil, hbefore, rfl⟩ := exists_halt_of_search hn hsearch
    exact ⟨k, hnil, admits_rounds hbefore, fun _ hi => fits_stage hbefore hnil hi, rfl⟩
  · rintro ⟨k, hnil, hk, hfits, rfl⟩
    exact search_of_live_eq_nil hn (fun i hi _ => hfits i hi) hk hnil

theorem search_of_relaxedTo (hn : nfa.Shaped lo hi) (hrelaxed : limits.RelaxedTo limits')
    (hsearch : nfa.search word limits = .ok report) :
    nfa.search word limits' = .ok report := by
  obtain ⟨k, hnil, hk, hfits, hreport⟩ := (search_eq_ok_iff hn).mp hsearch
  rw [search_eq_ok_iff hn, hrelaxed.pruneLoops]
  refine ⟨k, hnil, hrelaxed.maxRounds k hk, fun i hi => ?_, hreport⟩
  have hfit := hfits i hi
  exact ⟨hrelaxed.maxPaths _ hfit.live, hrelaxed.maxPaths _ hfit.records⟩

/-- A report is within the limits of its search. -/
theorem admits_of_search (hn : nfa.Shaped lo hi)
    (hsearch : nfa.search word limits = .ok report) :
    Admits limits.maxRounds report.rounds ∧ Admits limits.maxPaths report.peakPaths ∧
      Admits limits.maxPaths report.records := by
  obtain ⟨k, hnil, hbefore, rfl⟩ := exists_halt_of_search hn hsearch
  refine ⟨?_, fun bound hbound => ?_, admits_records hbefore⟩
  · rw [rounds_of_not_halts hbefore]
    exact admits_rounds hbefore
  · rw [Report.peakPaths, ← Array.foldl_toList,
      lives_stage fun j hj => live_ne_nil_of_not_halts (hbefore j hj)]
    refine foldl_max_le _ _ (Nat.zero_le _) fun live hlive => ?_
    obtain ⟨j, hj, rfl⟩ := List.mem_map.mp hlive
    exact (fits_of_not_halts (hbefore j (List.mem_range.mp hj))).live bound hbound

theorem thresholds (hn : nfa.Shaped lo hi) (word : List Char) (limits : SearchLimits) :
    nfa.Thresholds word limits := by
  refine ⟨?pathLimit, ?roundLimit, ?exhausted, ?relaxed, ?within⟩
  case pathLimit =>
    intro limit k hlimit hpos hk hmore
    obtain ⟨j, rfl⟩ := Nat.exists_eq_add_of_le' hpos
    refine search_of_not_fits hn hlimit hk fun hfits => ?_
    have hlive := hfits.live limit hlimit
    have hrecords := hfits.records limit hlimit
    omega
  case roundLimit =>
    intro hfitting limit hlimit hlive
    exact search_of_live_ne_nil hn hfitting hlimit hlive
  case exhausted =>
    intro hfitting hended k hnil
    cases hrounds : limits.maxRounds with
    | none =>
        exact search_of_live_eq_nil hn hfitting (hrounds ▸ admits_none k) hnil
    | some limit =>
        have hlast := hended limit hrounds
        rw [stage_eq_of_live_eq_nil hnil hlast]
        exact search_of_live_eq_nil hn hfitting (hrounds ▸ admits_some_iff.mpr le_rfl) hlast
  case relaxed =>
    intro limits' report hrelaxed hsearch
    exact search_of_relaxedTo hn hrelaxed hsearch
  case within =>
    intro report hsearch
    exact admits_of_search hn hsearch

/-- A search without limits that gives up looped paths ends within as many rounds as there
are configurations. -/
theorem exists_search_rounds_le (hn : nfa.Shaped lo hi) (word : List Char) :
    ∃ report, nfa.search word { maxRounds := none, maxPaths := none } = .ok report ∧
      report.rounds ≤ nfa.graph.states.length * (word.length + 1) := by
  have hnil := live_stage_prune_eq_nil hn word
  have hfitting : nfa.Fitting word { maxRounds := none, maxPaths := none } :=
    fun _ _ _ => ⟨admits_none _, admits_none _⟩
  exact ⟨_, search_of_live_eq_nil hn hfitting (admits_none _) hnil, rounds_stage_le _ _ _ _⟩

/-- A search ends within a number of rounds if it cannot go on from a stage after so many. -/
theorem endsWithin_searchRun (hn : nfa.Shaped lo hi) {bound : Nat}
    (hbound : ∀ k, (∀ j < k, ¬ nfa.Halts word limits j) →
      (nfa.stage word limits.pruneLoops k).live ≠ [] → limits.maxRounds ≠ some k → k < bound) :
    (nfa.searchRun word limits).EndsWithin bound := by
  have hlt : ∀ k, (∀ j ≤ k, ¬ nfa.Halts word limits j) → k < bound := fun k hk =>
    hbound k (fun j hj => hk j hj.le) (live_ne_nil_of_not_halts (hk k le_rfl))
      fun hround => hk k le_rfl (Or.inr (Or.inl hround))
  obtain ⟨m, hm⟩ : ∃ m, nfa.Halts word limits m := by
    by_contra hnone
    exact Nat.lt_irrefl _ (hlt bound fun j _ hj => hnone ⟨j, hj⟩)
  obtain ⟨k, -, hk, hbefore⟩ := exists_first_halt hm
  have hle : k ≤ bound := by
    cases k with
    | zero =>
        exact Nat.zero_le _
    | succ k =>
        exact hlt k fun j hj => hbefore j (Nat.lt_succ_of_le hj)
  obtain ⟨ending, hends, hrun⟩ := searchRun_of_halts hn hbefore hk
  rw [hrun]
  cases hends with
  | exhausted _ =>
      exact ⟨SearchEnding.noConfusion, (rounds_of_not_halts hbefore).trans_le hle⟩
  | roundLimit _ _ =>
      exact ⟨SearchEnding.noConfusion, (rounds_of_not_halts hbefore).trans_le hle⟩
  | pathLimit hlive hround _ _ =>
      refine ⟨SearchEnding.noConfusion, ?_⟩
      rw [SearchRun.begun, rounds_of_not_halts hbefore]
      exact hbound k hbefore hlive hround

/-- A search that gives up looped paths ends, whatever its limits. -/
theorem endsWithin_of_pruneLoops (hn : nfa.Shaped lo hi) (hprune : limits.pruneLoops = true) :
    (nfa.searchRun word limits).EndsWithin
      (nfa.graph.states.length * (word.length + 1)) := by
  refine endsWithin_searchRun hn fun k _ hlive _ => Nat.lt_of_not_le fun hle => ?_
  rw [hprune] at hlive
  exact live_stage_ne_nil_of_le hlive hle (live_stage_prune_eq_nil hn word)

/-- A limit on paths ends a search. -/
theorem endsWithin_of_maxPaths (hn : nfa.Shaped lo hi) {limit : Nat}
    (hlimit : limits.maxPaths = some limit) :
    (nfa.searchRun word limits).EndsWithin
      (nfa.graph.states.length * (word.length + 1) + limit) :=
  endsWithin_searchRun hn fun _ hbefore hlive _ => lt_add_maxPaths hn hlimit hbefore hlive

/-- A limit on rounds ends a search. -/
theorem endsWithin_of_maxRounds (hn : nfa.Shaped lo hi) {limit : Nat}
    (hlimit : limits.maxRounds = some limit) :
    (nfa.searchRun word limits).EndsWithin limit :=
  endsWithin_searchRun hn fun _ hbefore _ hround =>
    Nat.lt_of_le_of_ne (admits_rounds hbefore limit hlimit) fun heq => hround (heq ▸ hlimit)

end Nfa

/-- The limits of a search for a compiled tree are exact thresholds, and they change no
report. -/
theorem Compiler.exists_search_thresholds (c : Compiler) (p : Pattern) :
    ∃ nfa c', c.compileTree p = .ok (nfa, c') ∧
      ∀ (word : List Char) (limits : SearchLimits), nfa.Thresholds word limits := by
  obtain ⟨nfa, c', hok, hfrag⟩ := c.exists_compileTree p
  exact ⟨nfa, c', hok, fun word limits => Nfa.thresholds hfrag.shaped word limits⟩

/-- A search for a compiled tree ends if it gives up looped paths, if only so many paths are
allowed, and if only so many rounds are. -/
theorem Compiler.exists_search_bounded (c : Compiler) (p : Pattern) :
    ∃ nfa c', c.compileTree p = .ok (nfa, c') ∧ ∀ word : List Char,
      (∃ report,
        nfa.search word { maxRounds := none, maxPaths := none, pruneLoops := true } =
          .ok report ∧
        report.rounds ≤ nfa.graph.states.length * (word.length + 1)) ∧
      (∀ maxRounds maxPaths : Option Nat,
        (nfa.searchRun word { maxRounds, maxPaths, pruneLoops := true }).EndsWithin
          (nfa.graph.states.length * (word.length + 1))) ∧
      (∀ (maxRounds : Option Nat) (limit : Nat) (pruneLoops : Bool),
        (nfa.searchRun word { maxRounds, maxPaths := some limit, pruneLoops }).EndsWithin
          (nfa.graph.states.length * (word.length + 1) + limit)) ∧
      ∀ (limit : Nat) (maxPaths : Option Nat) (pruneLoops : Bool),
        (nfa.searchRun word { maxRounds := some limit, maxPaths, pruneLoops }).EndsWithin
          limit := by
  obtain ⟨nfa, c', hok, hfrag⟩ := c.exists_compileTree p
  have hn := hfrag.shaped
  exact ⟨nfa, c', hok, fun word => ⟨Nfa.exists_search_rounds_le hn word,
    fun _ _ => Nfa.endsWithin_of_pruneLoops hn rfl,
    fun _ _ _ => Nfa.endsWithin_of_maxPaths hn rfl,
    fun _ _ _ => Nfa.endsWithin_of_maxRounds hn rfl⟩⟩

end Backtracking
