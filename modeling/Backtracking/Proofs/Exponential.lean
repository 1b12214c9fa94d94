import Backtracking.Proofs.Literals
import Backtracking.Proofs.Reports
import Backtracking.Proofs.Verdict

/-!
# A witness doubles the number of paths

Where a check finds a witness, the pruned search of a text that leads to the state of the
witness and then repeats its word sees twice as many paths with every repetition.

**Ways.**  Each of `k` repetitions takes one of two journeys of the same length
(`choices`), which makes `2 ^ k` different journeys.  Put behind a simple course to the
state they are simple trails: only the edge of a character leads into the state, so what
lies before it is left behind (`Nfa.simple_append_of_consumes`).

**Results.**
* `Nfa.two_pow_le_count`: the number of paths, for every way to the state.
* `Compiler.two_pow_le_ambiguity_of_check`: the same for compiled trees, where a way to
  the state exists if the tree has no anchors.
-/

namespace Backtracking

section Choices

variable {α : Type}

/-- The lists made of `k` parts, each of which is one of two. -/
def choices (a b : List α) : (k : Nat) → List (List α)
  | 0 => [[]]
  | k + 1 => (choices a b k).map (a ++ ·) ++ (choices a b k).map (b ++ ·)

theorem length_choices (a b : List α) (k : Nat) : (choices a b k).length = 2 ^ k := by
  induction k with
  | zero =>
      rfl
  | succ k ih =>
      rw [choices, List.length_append, List.length_map, List.length_map, ih, Nat.pow_succ]
      omega

/-- No two of them are the same if the parts differ but are of one length. -/
theorem nodup_choices
    {a b : List α} (hlen : a.length = b.length) (hne : a ≠ b) (k : Nat) :
    (choices a b k).Nodup := by
  induction k with
  | zero =>
      exact List.nodup_singleton _
  | succ k ih =>
      refine List.nodup_append'.mpr ⟨ih.map fun x y h => ?_, ih.map fun x y h => ?_, ?_⟩
      · exact List.append_cancel_left h
      · exact List.append_cancel_left h
      · intro x hx hx'
        obtain ⟨y, -, rfl⟩ := List.mem_map.mp hx
        obtain ⟨z, -, hz⟩ := List.mem_map.mp hx'
        exact hne (List.append_inj_left hz hlen.symm).symm

end Choices

namespace Nfa

/-- Two different journeys over the word lead from the state back to it. -/
def Doubles (nfa : Nfa) (q : StateId) (w : List Char) : Prop :=
  ∃ ρ σ : List Route, ρ ≠ σ ∧ nfa.Journey q ρ q ∧ nfa.Journey q σ q ∧
    ρ.map Route.letter = w ∧ σ.map Route.letter = w

variable {nfa : Nfa} {lo hi : StateId} {q : StateId} {w : List Char} {ρ σ : List Route}

theorem Doubles.ne_nil (h : nfa.Doubles q w) : w ≠ [] := by
  rintro rfl
  obtain ⟨ρ, σ, hne, -, -, hρ, hσ⟩ := h
  exact hne ((List.map_eq_nil_iff.mp hρ).trans (List.map_eq_nil_iff.mp hσ).symm)

/-- A witness is a state that a character enters, with a word that doubles. -/
theorem doubles_of_check (hn : nfa.Shaped lo hi) {limits : CheckLimits} {v : Witness}
    (h : nfa.check limits = .ok (some v)) :
    v.state ∈ nfa.entered ∧ nfa.Doubles v.state v.word := by
  obtain ⟨hent, -, ρ, σ, -, -, hne, hρ, hσ, hρw, hσw⟩ := exists_journeys_of_check hn h
  exact ⟨hent, ρ, σ, hne, hρ, hσ, hρw, hσw⟩

/-- Repetitions of two journeys over a word are journeys over its repetitions. -/
theorem journey_of_mem_choices
    (hρ : nfa.Journey q ρ q) (hσ : nfa.Journey q σ q)
    (hρw : ρ.map Route.letter = w) (hσw : σ.map Route.letter = w) (k : Nat) :
    ∀ τ ∈ choices ρ σ k, nfa.Journey q τ q ∧
      τ.map Route.letter = (List.replicate k w).flatten := by
  induction k with
  | zero =>
      intro τ hτ
      rw [List.mem_singleton.mp hτ]
      exact ⟨.nil q, rfl⟩
  | succ k ih =>
      intro τ hτ
      rw [List.replicate_succ, List.flatten_cons]
      rcases List.mem_append.mp hτ with hτ | hτ
      · obtain ⟨υ, hυ, rfl⟩ := List.mem_map.mp hτ
        obtain ⟨hjourney, hword⟩ := ih υ hυ
        exact ⟨hρ.append hjourney, by rw [List.map_append, hρw, hword]⟩
      · obtain ⟨υ, hυ, rfl⟩ := List.mem_map.mp hτ
        obtain ⟨hjourney, hword⟩ := ih υ hυ
        exact ⟨hσ.append hjourney, by rw [List.map_append, hσw, hword]⟩

/-- Behind the edge of a character that ends a simple course, another one may begin. -/
theorem simple_append_of_consumes
    {c : Configuration} {us ts : List Transition} (hus : c.Simple us)
    (hlast : ∃ before t, us = before ++ [t] ∧ t.consumes = true)
    (hts : (c.along us).Simple ts) : c.Simple (us ++ ts) := by
  rcases hlast with ⟨before, t, rfl, ht⟩
  rw [Configuration.along_append] at hts
  rw [List.append_assoc, List.singleton_append, Configuration.simple_append_cons_iff ht]
  exact ⟨hus.of_append_left, hts⟩

/-- A course from the start to a state that the edge of a character enters ends with the
edge of a character. -/
theorem Course.exists_last (hn : nfa.Shaped lo hi) {word : List Char} {c : Configuration}
    {us : List Transition} (hus : nfa.Course word c us) (hstart : c.state = nfa.start)
    (hq : (c.along us).state ∈ nfa.entered) :
    ∃ before t, us = before ++ [t] ∧ t.consumes = true := by
  obtain ⟨-, s, a, ha⟩ := (mem_entered_iff nfa _).mp hq
  rcases List.eq_nil_or_concat us with rfl | ⟨before, t, rfl⟩
  · rw [Configuration.along_nil, hstart] at ha
    exact absurd ha hn.no_arc_into_start
  · rw [List.concat_eq_append] at hus ha ⊢
    obtain ⟨-, -, ht, -⟩ := course_concat_iff.mp hus
    rw [Configuration.along_append] at ha
    exact ⟨before, t, rfl, consumes_of_label_eq_char (hn.entry ha ht).2⟩

/-- If two different journeys over a word lead from the end of a course back to it, the
number of paths doubles with every repetition of the word, whatever text stands behind. -/
theorem two_pow_le_count
    (hn : nfa.Shaped lo hi) (hq : q ∈ nfa.entered) (hdoubles : nfa.Doubles q w)
    {u : List Char} {ts : List Transition}
    (hts : nfa.Course u { state := nfa.start, offset := 0 } ts)
    (hend : ({ state := nfa.start, offset := 0 } : Configuration).along ts =
      { state := q, offset := u.length })
    (hanchor : ∀ t ∈ ts, t.label ≠ .endAnchor) (k : Nat) (more : List Char) :
    ∃ report, nfa.search (u ++ (List.replicate k w).flatten ++ more)
        { maxRounds := none, maxPaths := none } = .ok report ∧
      2 ^ k ≤ report.census.count
        { origin := 0, state := q, offset := u.length + k * w.length } := by
  obtain ⟨ρ, σ, hne, hρ, hσ, hρw, hσw⟩ := hdoubles
  obtain ⟨us, hsub, hus, husend, hsimple⟩ := exists_simple_course hts
  rw [hend] at husend
  obtain ⟨m, hm, hsearch⟩ := exists_search_eq_ok hn (u ++ (List.replicate k w).flatten ++ more)
  refine ⟨_, hsearch, ?_⟩
  have hlast := hus.exists_last hn rfl (by rwa [husend])
  have hτ := journey_of_mem_choices hρ hσ hρw hσw k
  let trail : List Route → Trail := fun τ => { origin := 0, edges := us ++ legs τ }
  have hnd : ((choices ρ σ k).map trail).Nodup := by
    have hlen := congrArg List.length (hρw.trans hσw.symm)
    rw [List.length_map, List.length_map] at hlen
    refine (nodup_choices hlen hne k).map_on fun τ hτ₁ υ hυ h => ?_
    have hlegs := List.append_cancel_left (congrArg Trail.edges h)
    exact (hτ τ hτ₁).1.eq_of_legs_eq (hτ υ hυ).1 hlegs
  have hlength : (List.replicate k w).flatten.length = k * w.length := by
    rw [List.length_flatten, List.map_replicate, List.sum_replicate, smul_eq_mul]
  have hcount := length_le_count hn.filed hm hnd
    { origin := 0, state := q, offset := u.length + k * w.length } ?_
  · rwa [List.length_map, length_choices] at hcount
  · intro T hT
    obtain ⟨τ, hmem, rfl⟩ := List.mem_map.mp hT
    obtain ⟨hjourney, hword⟩ := hτ τ hmem
    refine ⟨⟨Nat.zero_le _, ?_⟩, ?_, ?_, ?_⟩
    · change nfa.Course _ { state := nfa.start, offset := 0 } (us ++ legs τ)
      rw [course_append_iff, husend]
      have hcourse := hjourney.course u more
      rw [hword] at hcourse
      refine ⟨?_, hcourse⟩
      rw [List.append_assoc]
      exact hus.append_text (fun t ht => hanchor t (hsub ht)) _
    · refine simple_append_of_consumes hsimple hlast ?_
      change ((Configuration.mk nfa.start 0).along us).Simple (legs τ)
      rw [husend]
      exact hjourney.simple u.length
    · rcases hlast with ⟨before, t, rfl, -⟩
      simp [trail]
    · rw [Trail.destination_eq]
      change ({ origin := 0
                state := ((Configuration.mk nfa.start 0).along (us ++ legs τ)).state
                offset := ((Configuration.mk nfa.start 0).along (us ++ legs τ)).offset } :
        Destination) = _
      rw [Configuration.along_append, husend, hjourney.walk.along_eq,
        hjourney.consumedWord_legs, hword, hlength]

end Nfa

/-- If a compiled tree is found vulnerable, the number of paths is exponential: whatever
text leads to the state of the witness, repeating the word behind it doubles the number
of paths every time.  If the tree has no anchors, some text leads there. -/
theorem Compiler.two_pow_le_ambiguity_of_check
    {c c' : Compiler} {p : Pattern} {nfa : Nfa} (hok : c.compileTree p = .ok (nfa, c'))
    {limits : CheckLimits} {w : Witness} (hcheck : nfa.check limits = .ok (some w)) :
    (∀ (u : List Char) (ts : List Transition),
      nfa.Course u { state := nfa.start, offset := 0 } ts →
      ({ state := nfa.start, offset := 0 } : Configuration).along ts =
        { state := w.state, offset := u.length } →
      (∀ t ∈ ts, t.label ≠ .endAnchor) →
      ∀ k, ∃ report, nfa.search (u ++ (List.replicate k w.word).flatten)
          { maxRounds := none, maxPaths := none } = .ok report ∧
        2 ^ k ≤ report.ambiguity) ∧
    (p.AnchorFree → ∃ (u : List Char) (ts : List Transition),
      nfa.Course u { state := nfa.start, offset := 0 } ts ∧
      ({ state := nfa.start, offset := 0 } : Configuration).along ts =
        { state := w.state, offset := u.length } ∧
      ∀ t ∈ ts, t.label ≠ .endAnchor) := by
  have hn := Compiler.shaped_of_compileTree hok
  obtain ⟨hent, hdoubles⟩ := Nfa.doubles_of_check hn hcheck
  constructor
  · intro u ts hts hend hanchor k
    obtain ⟨report, hsearch, hcount⟩ :=
      Nfa.two_pow_le_count hn hent hdoubles hts hend hanchor k []
    rw [List.append_nil] at hsearch
    exact ⟨report, hsearch, hcount.trans (Nfa.count_le_ambiguity_of_search hn hsearch _)⟩
  · intro hfree
    obtain ⟨ts, hts⟩ := Nfa.exists_walk_of_reaches ((Nfa.mem_entered_iff nfa _).mp hent).1
    have hlabels : AnchorFree ts := fun t ht =>
      hfree.label_ne (Compiler.build_of_compileTree hok) (hts.arc t ht)
    refine ⟨consumedWord ts, ts, ?_, ?_, fun t ht => (hlabels t ht).2⟩
    · simpa using hts.course hlabels [] []
    · rw [hts.along_eq, Nat.zero_add]

/-- The paths of `(a|a)*` over a text of one character double with every character. -/
theorem Compiler.two_pow_le_ambiguity_of_same_alternatives :
    ∃ nfa c' w, Compiler.compileTree {} (.star (.either (.literal 'a') (.literal 'a'))) =
        .ok (nfa, c') ∧
      nfa.check { maxSteps := none } = .ok (some w) ∧
      ∃ u : List Char, ∀ k, ∃ report, nfa.search (u ++ (List.replicate k w.word).flatten)
          { maxRounds := none, maxPaths := none } = .ok report ∧
        2 ^ k ≤ report.ambiguity := by
  obtain ⟨nfa, c', v, hok, hcheck, hfound⟩ := Compiler.exists_check_of_decide
    (Compiler.compileTree {} (.star (.either (.literal 'a') (.literal 'a'))))
    { maxSteps := none } (fun _ v => v.isSome = true) (by decide +kernel)
  obtain ⟨w, rfl⟩ := Option.isSome_iff_exists.mp hfound
  obtain ⟨hgrow, hway⟩ := Compiler.two_pow_le_ambiguity_of_check hok hcheck
  obtain ⟨u, ts, hts, hend, hanchor⟩ := hway (by simp [Pattern.AnchorFree, Pattern.literals])
  exact ⟨nfa, c', w, hok, hcheck, u, hgrow u ts hts hend hanchor⟩

end Backtracking
