import Backtracking.Proofs.Routes

/-!
# Journeys

A journey is a list of routes, each of which goes on where the one before it ends.  As a
walk it crosses no anchor, ends with a consumed character, and its runs are simple.

**Reading.**  Behind a consumed character every such walk is the walk of a journey
(`Nfa.exists_journey_of_walk`), and of one only (`Nfa.Journey.eq_of_legs_eq`).  So what a
check says about routes is said about walks.
-/

namespace Backtracking

/-- The transitions of some routes, one route after another. -/
def legs (rs : List Route) : List Transition :=
  rs.flatMap Route.transitions

@[simp] theorem legs_nil : legs [] = [] := rfl

theorem legs_cons (r : Route) (rs : List Route) :
    legs (r :: rs) = r.run ++ r.edge :: legs rs := by
  simp [legs, Route.transitions]

@[simp] theorem legs_append (rs rs' : List Route) : legs (rs ++ rs') = legs rs ++ legs rs' :=
  List.flatMap_append

/-- No edge of an anchor is crossed. -/
def AnchorFree (ts : List Transition) : Prop :=
  ∀ t ∈ ts, t.label ≠ .startAnchor ∧ t.label ≠ .endAnchor

/-- An edge that is neither consumed nor an anchor is silent. -/
theorem label_eq_epsilon_of_anchorFree
    {ts : List Transition} (h : AnchorFree ts) {t : Transition} (ht : t ∈ ts)
    (hc : t.consumes = false) : t.label = .epsilon := by
  obtain ⟨hstart, hend⟩ := h t ht
  cases hl : t.label with
  | char a =>
      exact absurd ((consumes_of_label_eq_char hl).symm.trans hc) Bool.noConfusion
  | epsilon =>
      rfl
  | startAnchor =>
      exact absurd hl hstart
  | endAnchor =>
      exact absurd hl hend

namespace Nfa

variable {nfa : Nfa} {s q m : StateId} {r r' : Route} {rs rs' : List Route}

theorem IsRoute.consumes_edge (hr : nfa.IsRoute s r) : r.edge.consumes = true :=
  consumes_of_label_eq_char hr.letter

theorem IsRoute.consumes_run (hr : nfa.IsRoute s r) : ∀ t ∈ r.run, t.consumes = false :=
  fun t ht => not_consumes_of_label_eq (hr.silent t ht) rfl

/-- A route leaves one state only. -/
theorem IsRoute.eq_of_isRoute {s' : StateId} (hr : nfa.IsRoute s r) (hr' : nfa.IsRoute s' r) :
    s = s' := by
  cases hrun : r.run with
  | nil =>
      have h := hr.walk
      have h' := hr'.walk
      rw [hrun, walk_nil_iff] at h h'
      exact h.trans h'.symm
  | cons t ts =>
      have h := hr.walk
      have h' := hr'.walk
      rw [hrun, walk_cons_iff] at h h'
      exact h.1.trans h'.1.symm

/-- The routes lead from one state to another. -/
inductive Journey (nfa : Nfa) : StateId → List Route → StateId → Prop
  | nil (s : StateId) : nfa.Journey s [] s
  | cons
      {s q : StateId} {r : Route} {rs : List Route}
      (hr : nfa.IsRoute s r) (rest : nfa.Journey r.target rs q) : nfa.Journey s (r :: rs) q

theorem journey_nil_iff : nfa.Journey s [] q ↔ s = q := by
  constructor
  · rintro ⟨⟩
    rfl
  · rintro rfl
    exact .nil s

theorem journey_cons_iff :
    nfa.Journey s (r :: rs) q ↔ nfa.IsRoute s r ∧ nfa.Journey r.target rs q := by
  constructor
  · rintro (_ | ⟨hr, rest⟩)
    exact ⟨hr, rest⟩
  · rintro ⟨hr, rest⟩
    exact .cons hr rest

theorem journey_append_iff :
    nfa.Journey s (rs ++ rs') q ↔ ∃ m, nfa.Journey s rs m ∧ nfa.Journey m rs' q := by
  induction rs generalizing s with
  | nil =>
      simp [journey_nil_iff]
  | cons r rs ih =>
      rw [List.cons_append, journey_cons_iff, ih]
      simp only [journey_cons_iff]
      constructor
      · rintro ⟨hr, m, h, h'⟩
        exact ⟨m, ⟨hr, h⟩, h'⟩
      · rintro ⟨m, ⟨hr, h⟩, h'⟩
        exact ⟨hr, m, h, h'⟩

theorem Journey.append (h : nfa.Journey s rs m) (h' : nfa.Journey m rs' q) :
    nfa.Journey s (rs ++ rs') q :=
  journey_append_iff.mpr ⟨m, h, h'⟩

theorem journey_concat_iff :
    nfa.Journey s (rs ++ [r]) q ↔
      ∃ m, nfa.Journey s rs m ∧ nfa.IsRoute m r ∧ r.target = q := by
  simp only [journey_append_iff, journey_cons_iff, journey_nil_iff]

theorem Journey.walk (h : nfa.Journey s rs q) : nfa.Walk s (legs rs) q := by
  induction h with
  | nil s =>
      exact .nil s
  | cons hr _ ih =>
      rw [legs, List.flatMap_cons]
      exact hr.walk_transitions.append ih

theorem Journey.consumedWord_legs (h : nfa.Journey s rs q) :
    consumedWord (legs rs) = rs.map Route.letter := by
  induction h with
  | nil =>
      rfl
  | @cons s q r rs hr _ ih =>
      rw [legs_cons, consumedWord_append, consumedWord_cons, ih,
        (consumedWord_eq_nil_iff _).mpr hr.consumes_run, consumedWord_of_label_eq_char hr.letter]
      rfl

theorem Journey.anchorFree (h : nfa.Journey s rs q) : AnchorFree (legs rs) := by
  induction h with
  | nil =>
      exact fun t ht => absurd ht List.not_mem_nil
  | @cons s q r rs hr _ ih =>
      rw [legs_cons]
      intro t ht
      rcases List.mem_append.mp ht with ht | ht
      · simp [hr.silent t ht]
      · rcases List.mem_cons.mp ht with rfl | ht
        · simp [hr.letter]
        · exact ih t ht

/-- One route consumes one character, and so there is no run to look at. -/
theorem IsRoute.runsSimple (hr : nfa.IsRoute s r) : RunsSimple r.transitions := by
  intro before opening run closing after heq ho _ _
  rcases eq_or_exists_of_append_cons hr.consumes_run ho heq with
    ⟨-, -, hnil⟩ | ⟨_, -, hnil⟩
  · simp at hnil
  · simp at hnil

/-- Between two routes the run is the one of the second route. -/
theorem runsSimple_of_two (hr : nfa.IsRoute s r) (hr' : nfa.IsRoute r.target r') :
    RunsSimple (r.transitions ++ r'.transitions) := by
  intro before opening run closing after heq ho hrun hc
  have heq' : r.run ++ r.edge :: (r'.run ++ r'.edge :: []) =
      before ++ opening :: (run ++ closing :: after) := by
    rw [← heq]
    simp [Route.transitions]
  rcases eq_or_exists_of_append_cons hr.consumes_run ho heq' with
    ⟨-, rfl, htail⟩ | ⟨between, -, htail⟩
  · obtain ⟨rfl, -⟩ :=
      append_cons_inj_of_first hrun hr'.consumes_run hc hr'.consumes_edge htail
    exact hr'.simple
  · -- nothing is consumed behind the second route
    rcases eq_or_exists_of_append_cons hr'.consumes_run ho htail with
      ⟨-, -, hnil⟩ | ⟨_, -, hnil⟩
    · simp at hnil
    · simp at hnil

theorem Journey.runsSimple (h : nfa.Journey s rs q) : RunsSimple (legs rs) := by
  induction h with
  | nil =>
      intro before opening run closing after heq
      simp at heq
  | @cons s q r rs hr rest ih =>
      cases rest with
      | nil =>
          simpa [legs] using hr.runsSimple
      | @cons _ _ r' rs hr' rest =>
          have hword := (Journey.cons hr' (.nil _)).consumedWord_legs
          rw [legs, List.flatMap_singleton] at hword
          have h := RunsSimple.append_of_overlap (hword ▸ List.cons_ne_nil _ _)
            (runsSimple_of_two hr hr') ih
          rw [List.append_assoc] at h
          exact h

/-- Where the walks of two journeys agree, the journeys do. -/
theorem Journey.eq_of_legs_eq {q' : StateId}
    (h : nfa.Journey s rs q) (h' : nfa.Journey s rs' q') (heq : legs rs = legs rs') :
    rs = rs' := by
  induction h generalizing rs' with
  | nil =>
      cases rs' with
      | nil =>
          rfl
      | cons r' rs' =>
          simp [legs_cons] at heq
  | @cons s q r rs hr _ ih =>
      cases rs' with
      | nil =>
          simp [legs_cons] at heq
      | cons r' rs' =>
          obtain ⟨hr', rest'⟩ := journey_cons_iff.mp h'
          rw [legs_cons, legs_cons] at heq
          obtain ⟨hrun, hedge, htail⟩ := append_cons_inj_of_first hr.consumes_run
            hr'.consumes_run hr.consumes_edge hr'.consumes_edge heq
          obtain rfl : r = r' := by
            have hl := hr.letter
            rw [hedge, hr'.letter] at hl
            cases r
            cases r'
            simp_all
          rw [ih rest' htail]

/-- Behind a consumed character, a walk that ends with one and whose runs are simple is
the walk of a journey. -/
theorem exists_journey_of_walk
    {opening : Transition} {ts : List Transition}
    (hwalk : nfa.Walk opening.target ts q) (hfree : AnchorFree ts)
    (ho : opening.consumes = true) (hsimple : RunsSimple (opening :: ts))
    (hlast : ∀ t ∈ ts.getLast?, t.consumes = true) :
    ∃ rs, nfa.Journey opening.target rs q ∧ legs rs = ts := by
  induction hw : consumedWord ts generalizing opening ts with
  | nil =>
      cases ts using List.reverseRecOn with
      | nil =>
          exact ⟨[], walk_nil_iff.mp hwalk ▸ .nil _, rfl⟩
      | append_singleton ts t =>
          have hcons := hlast t (by simp)
          have hnone := (consumedWord_eq_nil_iff _).mp hw t (by simp)
          exact absurd (hcons.symm.trans hnone) Bool.noConfusion
  | cons a word ih =>
      obtain ⟨run, edge, rest, rfl, hrun, hedge⟩ :=
        exists_first_split (exists_consumes_of_consumedWord_ne_nil (hw ▸ List.cons_ne_nil _ _))
      obtain ⟨letter, hletter⟩ := label_eq_char_of_consumes hedge
      obtain ⟨m, hto, hfrom⟩ := walk_append_iff.mp hwalk
      obtain ⟨rfl, harc, hfrom⟩ := walk_cons_iff.mp hfrom
      have hroute : nfa.IsRoute opening.target ⟨run, edge, letter⟩ := by
        refine ⟨hto, harc, fun t ht => ?_, hletter, ?_⟩
        · exact label_eq_epsilon_of_anchorFree hfree (List.mem_append_left _ ht) (hrun t ht)
        · exact hsimple [] opening run edge rest rfl ho hrun hedge
      obtain ⟨rs, hrs, rfl⟩ := ih hfrom
        (fun t ht => hfree t (List.mem_append_right _ (List.mem_cons_of_mem _ ht))) hedge
        (RunsSimple.of_append_append (opening :: run) [] (by simpa using hsimple))
        (fun t ht => hlast t (by simp_all [List.getLast?_append, List.getLast?_cons]))
        (by
          rw [consumedWord_append, consumedWord_cons,
            (consumedWord_eq_nil_iff _).mpr hrun] at hw
          rw [consumedWord_of_label_eq_char hletter] at hw
          exact (List.cons.inj hw).2)
      exact ⟨⟨run, edge, letter⟩ :: rs, .cons hroute hrs, legs_cons _ _⟩

end Nfa

end Backtracking
