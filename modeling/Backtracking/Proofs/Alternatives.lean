import Backtracking.Proofs.Nesting

/-!
# Overlapping alternatives

A repetition of two alternatives that match a common word is vulnerable.

**Laps.**  A lap through an alternative consumes the word and ends behind its last character,
inside the alternative (`Nfa.Laps`).  From there both alternatives can be entered again, so a lap
through either of them may follow.  The way round the repetition may meet itself where the
alternatives match the empty word; then a loop is left out, and the lap still ends in its own
alternative.

**Two ways.**  The common word is read twice, by two laps on the left, or by one on the right and
then one on the left.  Behind the first lap the two are in different alternatives.

**Results.**
* `Nfa.Laps.pumps`: two laps over one word to different states double a word.
* `Compiler.check_repetition_of_overlap`: every repetition of overlapping alternatives is found
  vulnerable.
-/

namespace Backtracking
namespace Nfa

variable {nfa left right body : Nfa} {lo mid hi : StateId} {s q q' : StateId}
variable {w : List Char} {ρ : List Route}

/-- The routes of a journey decide where it ends. -/
theorem Journey.end_eq (h : nfa.Journey s ρ q) (h' : nfa.Journey s ρ q') : q = q' := by
  induction h with
  | nil =>
      exact journey_nil_iff.mp h'
  | cons _ _ ih =>
      exact ih (journey_cons_iff.mp h').2

/-- Two laps over a word end in different states, and behind both the first part can be entered,
and behind the first one the second part too: then reading the word twice can be done in two
ways. -/
theorem Laps.pumps (hl : nfa.Laps left w q) (hr : nfa.Laps right w q') (hne : q ≠ q')
    (hll : nfa.Slides q left.start) (hlr : nfa.Slides q right.start)
    (hrl : nfa.Slides q' left.start) : nfa.Pumps := by
  obtain ⟨ρ, hρ, hρw⟩ := hl.exists_journey q hll
  obtain ⟨σ, hσ, hσw⟩ := hr.exists_journey q hlr
  obtain ⟨τ, hτ, hτw⟩ := hl.exists_journey q' hrl
  refine ⟨q, w ++ w, ρ ++ ρ, σ ++ τ, fun heq => hne ?_, hρ.append hρ, hσ.append hτ, ?_, ?_⟩
  · -- behind the first lap the journeys have come to different states
    have hlen : ρ.length = σ.length := by
      rw [← List.length_map Route.letter, hρw, ← hσw, List.length_map]
    obtain ⟨rfl, -⟩ := List.append_inj heq hlen
    exact hρ.end_eq hσ
  · rw [List.map_append, hρw]
  · rw [List.map_append, hσw, hτw]

/-- From one alternative of a repeated body either alternative is come to silently. -/
theorem Repeats.slides_branch (h : nfa.Repeats body) (hl : left.Shaped lo mid)
    (hr : right.Shaped mid hi) (hok : left.branch right hi = .ok body)
    {part next : Nfa} (hpart : part ∈ [left, right]) (hnext : next ∈ [left, right])
    (hs : nfa.Slides s part.finish) : nfa.Slides s next.start := by
  obtain ⟨hstart, hfinish, -, harc⟩ := hl.branch_eq_ok hr hok
  have hleave : nfa.Arc part.finish .epsilon body.finish := by
    rw [hfinish]
    refine h.inner (harc.mpr (Or.inr (Or.inr ⟨rfl, Or.inr ⟨?_, rfl⟩⟩)))
    exact (List.mem_pair.mp hpart).imp (congrArg Nfa.finish) (congrArg Nfa.finish)
  have henter : nfa.Arc body.start .epsilon next.start := by
    rw [hstart]
    refine h.inner (harc.mpr (Or.inr (Or.inr ⟨rfl, Or.inl ⟨rfl, ?_⟩⟩)))
    exact (List.mem_pair.mp hnext).imp (congrArg Nfa.start) (congrArg Nfa.start)
  exact ((hs.tail hleave).tail h.again).tail henter

/-- If both alternatives of a repeated body accept a word, some word doubles. -/
theorem Repeats.pumps_of_overlap (h : nfa.Repeats body) (hfree : nfa.Anchorless)
    (hl : left.Shaped lo mid) (hr : right.Shaped mid hi) (hok : left.branch right hi = .ok body)
    (hne : w ≠ []) (hleft : left.accepts w = true) (hright : right.accepts w = true) :
    nfa.Pumps := by
  obtain ⟨-, -, -, harc⟩ := hl.branch_eq_ok hr hok
  have hfirst : ∀ {s l t}, left.Arc s l t → nfa.Arc s l t :=
    fun h' => h.inner (harc.mpr (Or.inl h'))
  have hsecond : ∀ {s l t}, right.Arc s l t → nfa.Arc s l t :=
    fun h' => h.inner (harc.mpr (Or.inr (Or.inl h')))
  obtain ⟨q, hlaps⟩ := exists_laps hfirst hfree hleft hne
  obtain ⟨q', hlaps'⟩ := exists_laps hsecond hfree hright hne
  have hapart : q ≠ q' := by
    rintro rfl
    obtain ⟨s, a, hs⟩ := hlaps.entered
    obtain ⟨s', a', hs'⟩ := hlaps'.entered
    exact hl.apart hr (hl.inside hs).2 (hr.inside hs').2
  have hll := h.slides_branch hl hr hok (by simp) (List.mem_pair.mpr (Or.inl rfl)) hlaps.slides
  have hlr := h.slides_branch hl hr hok (by simp) (List.mem_pair.mpr (Or.inr rfl)) hlaps.slides
  have hrl := h.slides_branch hl hr hok (by simp) (List.mem_pair.mpr (Or.inl rfl)) hlaps'.slides
  exact hlaps.pumps hlaps' hapart hll hlr hrl

theorem Anchorless.branch (hlfree : left.Anchorless) (hrfree : right.Anchorless)
    (hl : left.Shaped lo mid) (hr : right.Shaped mid hi) (hok : left.branch right hi = .ok body) :
    body.Anchorless := by
  obtain ⟨-, -, -, harc⟩ := hl.branch_eq_ok hr hok
  intro s l t h
  rcases harc.mp h with h | h | ⟨rfl, -⟩
  · exact hlfree h
  · exact hrfree h
  · simp

end Nfa

namespace Pattern

open Nfa

variable {left right q : Pattern} {word : List Char}

/-- A repetition of two alternatives is vulnerable if both match some word, with any groups
around the alternatives. -/
theorem vulnerable_of_overlap (hleft : left.AnchorFree) (hright : right.AnchorFree)
    (hne : word ≠ []) (hlword : left.Matches word 0 word.length)
    (hrword : right.Matches word 0 word.length) {k : Nat}
    (hq : q = star (group^[k] (either left right)) ∨ q = plus (group^[k] (either left right))) :
    q.Vulnerable := by
  obtain ⟨skip, hframe⟩ := exists_frames hq
  obtain ⟨mid, l, hl⟩ := exists_built left 0
  obtain ⟨_, r, hr⟩ := exists_built right mid
  obtain ⟨body, hbranch, hbody⟩ := hl.exists_either hr
  obtain ⟨nfa, hwrap, hnfa⟩ := (hbody.iterate_group k).exists_frame hframe
  have hlfree : l.Anchorless := hleft.label_ne hl.build_eq_ok
  have hrfree : r.Anchorless := hright.label_ne hr.build_eq_ok
  have hbfree : body.Anchorless := hlfree.branch hrfree hl.shaped hr.shaped hbranch
  have hfree : nfa.Anchorless := hbfree.wrap hbody.shaped hwrap
  rw [hnfa.vulnerable_iff]
  exact (repeats_of_wrap hbody.shaped hwrap).pumps_of_overlap hfree hl.shaped hr.shaped hbranch
    hne ((accepts_iff_matches hl.build_eq_ok word).mpr hlword)
    ((accepts_iff_matches hr.build_eq_ok word).mpr hrword)

end Pattern

namespace Compiler

/-- Every repetition of two alternatives is found vulnerable, if the alternatives have no anchors
and the automata of both accept some word that is not empty.  Groups may stand around the
alternatives. -/
theorem check_repetition_of_overlap
    {left right q : Pattern} (hleft : left.AnchorFree) (hright : right.AnchorFree)
    {cl cl' cr cr' : Compiler} {l r : Nfa} (hl : cl.compileTree left = .ok (l, cl'))
    (hr : cr.compileTree right = .ok (r, cr')) {word : List Char} (hne : word ≠ [])
    (hlword : l.accepts word = true) (hrword : r.accepts word = true) {k : Nat}
    (hq : q = .star (Pattern.group^[k] (.either left right)) ∨
      q = .plus (Pattern.group^[k] (.either left right))) (c : Compiler) :
    ∃ nfa c', c.compileTree q = .ok (nfa, c') ∧
      ∃ w, nfa.check { maxSteps := none } = .ok (some w) := by
  have hlmatches := (Pattern.accepts_iff_matches (build_of_compileTree hl) word).mp hlword
  have hrmatches := (Pattern.accepts_iff_matches (build_of_compileTree hr) word).mp hrword
  exact exists_check_of_vulnerable
    (Pattern.vulnerable_of_overlap hleft hright hne hlmatches hrmatches hq) c

/-- `(a?b?|b+)*` is vulnerable: both alternatives match `b`, and the first one can be passed
silently. -/
theorem check_repetition_of_optionals_or_plus :
    ∃ nfa c', Compiler.compileTree {} (.star (.group (.either
        (.sequence [.optional (.literal 'a'), .optional (.literal 'b')])
        (.plus (.literal 'b'))))) = .ok (nfa, c') ∧
      ∃ w, nfa.check { maxSteps := none } = .ok (some w) := by
  obtain ⟨l, cl', hl, -⟩ := exists_compileTree {}
    (.sequence [.optional (.literal 'a'), .optional (.literal 'b')])
  obtain ⟨r, cr', hr, -⟩ := exists_compileTree {} (.plus (.literal 'b'))
  have hwords : (Compiler.compileTree {} (.sequence
      [.optional (.literal 'a'), .optional (.literal 'b')])).toOption.map
        (fun x => x.1.accepts ['b']) = some true ∧
      (Compiler.compileTree {} (.plus (.literal 'b'))).toOption.map
        (fun x => x.1.accepts ['b']) = some true := by
    decide +kernel
  rw [hl, hr] at hwords
  obtain ⟨hlword, hrword⟩ : l.accepts ['b'] = true ∧ r.accepts ['b'] = true := by
    simpa [Except.toOption] using hwords
  exact check_repetition_of_overlap (by decide) (by decide) hl hr (List.cons_ne_nil _ _)
    hlword hrword (k := 1) (Or.inl rfl) {}

end Compiler

end Backtracking
