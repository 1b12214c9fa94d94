import Backtracking.Proofs.Polynomial

/-!
# Reading a word without anchors

Where no edge is an anchor, the text around a word does not matter: the automaton accepts
a word if some walk from the start to the finish consumes it.

**Journeys.**  A walk may go round in silent edges.  What it consumes is consumed by a
journey too, since loops can be left out of its runs, and the walk goes on silently from
the end of the journey (`Nfa.Walk.exists_journey`).

**Results.**
* `Nfa.accepts_iff_exists_walk`: acceptance is a walk from the start to the finish.
* `Nfa.Walk.exists_simple_run`: a silent walk can do without coming back.
* `Nfa.Walk.exists_journey_concat`: a walk that ends with a consumed character is followed
  by a journey to the same state.
-/

namespace Backtracking

open Relation

/-- What is consumed in two parts is consumed by two parts. -/
theorem exists_append_of_consumedWord_eq_append
    {ts : List Transition} {u v : List Char} (h : consumedWord ts = u ++ v) :
    ∃ us vs, ts = us ++ vs ∧ consumedWord us = u ∧ consumedWord vs = v := by
  obtain ⟨us, vs, rfl, hu, hv⟩ := List.filterMap_eq_append_iff.mp h
  exact ⟨us, vs, rfl, hu, hv⟩

theorem consumedWord_append_of_not_consumes
    (us : List Transition) {vs : List Transition} (h : ∀ t ∈ vs, t.consumes = false) :
    consumedWord (us ++ vs) = consumedWord us := by
  rw [consumedWord_append, (consumedWord_eq_nil_iff vs).mpr h, List.append_nil]

theorem consumedWord_append_of_not_consumes_left
    {us : List Transition} (h : ∀ t ∈ us, t.consumes = false) (vs : List Transition) :
    consumedWord (us ++ vs) = consumedWord vs := by
  rw [consumedWord_append, (consumedWord_eq_nil_iff us).mpr h, List.nil_append]

namespace Nfa

variable {nfa : Nfa} {s q z : StateId} {ts : List Transition}

/-- No edge of the automaton is an anchor. -/
def Anchorless (nfa : Nfa) : Prop :=
  ∀ {s l t}, nfa.Arc s l t → l ≠ .startAnchor ∧ l ≠ .endAnchor

theorem Walk.anchorFree (h : nfa.Walk s ts q) (hfree : nfa.Anchorless) : AnchorFree ts :=
  fun t ht => hfree (h.arc t ht)

theorem Walk.silent (h : nfa.Walk s ts q) (hfree : nfa.Anchorless)
    (hnone : ∀ t ∈ ts, t.consumes = false) : ∀ t ∈ ts, t.label = .epsilon :=
  fun t ht => label_eq_epsilon_of_anchorFree (h.anchorFree hfree) ht (hnone t ht)

/-- A walk is a walk of every automaton that has its edges. -/
theorem Walk.of_arcs {part : Nfa} (h : nfa.Walk s ts q)
    (harc : ∀ t ∈ ts, part.Arc t.source t.label t.target) : part.Walk s ts q := by
  induction h with
  | nil =>
      exact .nil _
  | cons _ _ ih =>
      obtain ⟨ht, hrest⟩ := List.forall_mem_cons.mp harc
      exact .cons ht (ih hrest)

/-- Edges of a part are edges of the whole. -/
theorem Walk.of_arc_imp {part : Nfa} (harc : ∀ {s l t}, part.Arc s l t → nfa.Arc s l t)
    (h : part.Walk s ts q) : nfa.Walk s ts q :=
  h.of_arcs fun t ht => harc (h.arc t ht)

theorem Walk.target_eq {e : Transition} (h : nfa.Walk s (ts ++ [e]) q) : q = e.target := by
  obtain ⟨m, -, hedge⟩ := walk_append_iff.mp h
  exact (walk_singleton_iff.mp hedge).2.2

/-- A visited state cuts a walk in two. -/
theorem Walk.exists_split (h : nfa.Walk s ts q) (hz : z ∈ s :: ts.map Transition.target) :
    ∃ us vs, ts = us ++ vs ∧ nfa.Walk s us z ∧ nfa.Walk z vs q := by
  induction h with
  | nil =>
      obtain rfl := List.mem_singleton.mp hz
      exact ⟨[], [], rfl, .nil _, .nil _⟩
  | @cons t ts q ht rest ih =>
      rcases List.mem_cons.mp hz with rfl | hz
      · exact ⟨[], t :: ts, rfl, .nil _, .cons ht rest⟩
      · obtain ⟨us, vs, rfl, hus, hvs⟩ := ih hz
        exact ⟨t :: us, vs, rfl, .cons ht hus, hvs⟩

theorem Walk.slides (h : nfa.Walk s ts q) (hsilent : ∀ t ∈ ts, t.label = .epsilon) :
    nfa.Slides s q := by
  induction h with
  | nil =>
      exact .refl
  | cons ht _ ih =>
      obtain ⟨hl, hsilent⟩ := List.forall_mem_cons.mp hsilent
      exact .head (hl ▸ ht) (ih hsilent)

theorem Slides.exists_walk (h : nfa.Slides s q) :
    ∃ ts, nfa.Walk s ts q ∧ ∀ t ∈ ts, t.label = .epsilon := by
  induction h with
  | refl =>
      exact ⟨[], .nil s, fun t ht => absurd ht List.not_mem_nil⟩
  | @tail m q _ harc ih =>
      obtain ⟨ts, hts, hsilent⟩ := ih
      refine ⟨ts ++ [⟨m, .epsilon, q⟩],
        hts.append (walk_singleton_iff.mpr ⟨rfl, harc, rfl⟩), fun t ht => ?_⟩
      rcases List.mem_append.mp ht with ht | ht
      · exact hsilent t ht
      · rw [List.mem_singleton.mp ht]

/-- Without anchors a word is accepted if a walk from the start to the finish consumes it. -/
theorem accepts_iff_exists_walk (hfree : nfa.Anchorless) (word : List Char) :
    nfa.accepts word = true ↔
      ∃ ts, nfa.Walk nfa.start ts nfa.finish ∧ consumedWord ts = word := by
  rw [accepts_iff, Traverses, leads_iff_exists_course]
  constructor
  · rintro ⟨ts, hcourse, hend⟩
    have hwalk := hcourse.walk
    rw [hend] at hwalk
    have hlen := congrArg Configuration.offset hend
    rw [Configuration.offset_along, Nat.zero_add] at hlen
    exact ⟨ts, hwalk, hcourse.consumedWord_prefix.eq_of_length hlen⟩
  · rintro ⟨ts, hwalk, rfl⟩
    have hcourse := hwalk.course (hwalk.anchorFree hfree) [] []
    rw [List.nil_append, List.append_nil] at hcourse
    exact ⟨ts, hcourse, (hwalk.along_eq 0).trans (by rw [Nat.zero_add])⟩

/-- A silent walk can do without coming back to a state. -/
theorem Walk.exists_simple_run (h : nfa.Walk s ts q)
    (hsilent : ∀ t ∈ ts, t.label = .epsilon) :
    ∃ run, run ⊆ ts ∧ nfa.Walk s run q ∧ (s :: run.map Transition.target).Nodup := by
  have hcourse := h.course (fun t ht => by simp [hsilent t ht]) [] []
  obtain ⟨run, hsub, hrun, hend, hsimple⟩ := exists_simple_course hcourse
  have hwalk := hrun.walk
  rw [hend, h.along_eq] at hwalk
  have hnone : ∀ t ∈ run, t.consumes = false :=
    fun t ht => not_consumes_of_label_eq (hsilent t (hsub ht)) rfl
  exact ⟨run, hsub, hwalk, (Configuration.simple_iff_of_not_consumes hnone _).mp hsimple⟩

/-- A character behind silent edges is consumed by a route. -/
theorem Walk.exists_route {e : Transition} (h : nfa.Walk s (ts ++ [e]) q)
    (hsilent : ∀ t ∈ ts, t.label = .epsilon) (he : e.consumes = true) :
    ∃ r, nfa.IsRoute s r ∧ r.run ⊆ ts ∧ r.edge = e ∧ consumedWord [e] = [r.letter] := by
  obtain ⟨letter, hletter⟩ := label_eq_char_of_consumes he
  obtain ⟨m, hts, hedge⟩ := walk_append_iff.mp h
  obtain ⟨rfl, harc, -⟩ := walk_singleton_iff.mp hedge
  obtain ⟨run, hsub, hrun, hsimple⟩ := hts.exists_simple_run hsilent
  exact ⟨⟨run, e, letter⟩, ⟨hrun, harc, fun t ht => hsilent t (hsub ht), hletter, hsimple⟩,
    hsub, rfl, consumedWord_of_label_eq_char hletter⟩

/-- What a walk consumes is consumed by a journey, from which it goes on silently. -/
theorem Walk.exists_journey (h : nfa.Walk s ts q) (hfree : nfa.Anchorless) :
    ∃ ρ t, nfa.Journey s ρ t ∧ ρ.map Route.letter = consumedWord ts ∧ nfa.Slides t q := by
  induction hw : consumedWord ts generalizing s ts with
  | nil =>
      have hsilent := h.silent hfree ((consumedWord_eq_nil_iff ts).mp hw)
      exact ⟨[], s, .nil s, rfl, h.slides hsilent⟩
  | cons a word ih =>
      obtain ⟨run, e, rest, rfl, hrun, he⟩ :=
        exists_first_split (exists_consumes_of_consumedWord_ne_nil (hw ▸ List.cons_ne_nil _ _))
      obtain ⟨m, hto, hfrom⟩ := walk_append_iff.mp h
      obtain ⟨rfl, harc, hrest⟩ := walk_cons_iff.mp hfrom
      have hfirst : nfa.Walk s (run ++ [e]) e.target :=
        hto.append (walk_singleton_iff.mpr ⟨rfl, harc, rfl⟩)
      obtain ⟨r, hr, -, rfl, hletter⟩ := hfirst.exists_route (hto.silent hfree hrun) he
      rw [consumedWord_append_of_not_consumes_left hrun, consumedWord_cons, hletter] at hw
      obtain ⟨rfl, hword⟩ := List.cons.inj hw
      obtain ⟨ρ, t, hρ, hletters, hslide⟩ := ih hrest hword
      exact ⟨r :: ρ, t, .cons hr hρ, by rw [List.map_cons, hletters], hslide⟩

/-- A walk that ends with a consumed character is followed by a journey to its end. -/
theorem Walk.exists_journey_concat {e : Transition} (h : nfa.Walk s (ts ++ [e]) q)
    (hfree : nfa.Anchorless) (he : e.consumes = true) :
    ∃ ρ, nfa.Journey s ρ q ∧ ρ.map Route.letter = consumedWord (ts ++ [e]) := by
  obtain ⟨m, hts, hedge⟩ := walk_append_iff.mp h
  obtain ⟨ρ, t, hρ, hletters, hslide⟩ := hts.exists_journey hfree
  obtain ⟨run, hrun, hsilent⟩ := hslide.exists_walk
  obtain ⟨r, hr, -, rfl, hletter⟩ := (hrun.append hedge).exists_route hsilent he
  obtain ⟨-, -, rfl⟩ := walk_singleton_iff.mp hedge
  refine ⟨ρ ++ [r], journey_concat_iff.mpr ⟨t, hρ, hr, rfl⟩, ?_⟩
  rw [List.map_append, hletters, consumedWord_append, hletter, List.map_singleton]

/-- A journey that takes a route ends in a state that a check looks at. -/
theorem Journey.mem_entered_of_reaches {r : Route} {ρ : List Route}
    (h : nfa.Journey s (r :: ρ) q) (hs : nfa.Reaches nfa.start s) : q ∈ nfa.entered := by
  obtain ⟨hr, hρ⟩ := journey_cons_iff.mp h
  exact hρ.mem_entered (hr.target_mem_entered hs)

end Nfa

end Backtracking
