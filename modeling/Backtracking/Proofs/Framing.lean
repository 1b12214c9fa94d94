import Backtracking.Proofs.Enumeration
import Backtracking.Proofs.Nesting
import Mathlib.Data.Set.Card

/-!
# A frame hides no work

An automaton in a frame is searched with all the work that it is searched with on its own.

**Trails.**  The frame is entered and left silently along states of its own.  So a simple trail of
the body becomes one of the frame if it is entered from the frame's start, and one that finishes
goes on to the frame's finish (`Nfa.Encloses.enter_mem`, `Nfa.Encloses.leave_mem`).  Different
trails become different ones.

**Repetitions.**  A repetition of a repetition matches what the repetition matches, since both are
closures.  It has one more frame, and so at least as many matches and ways to a configuration.

**Results.**
* `Nfa.Encloses.size_accepted_le`, `Nfa.Encloses.ambiguity_le`: the numbers do not fall.
* `Compiler.exists_search_repeated_twice`: a repetition of a repetition.
-/

namespace Backtracking

namespace Trail

/-- The trail, entered from the start of a frame. -/
def enter (frame part : Nfa) (T : Trail) : Trail :=
  { T with edges := .silent frame.start part.start :: T.edges }

/-- The trail, left to the finish of a frame. -/
def leave (frame part : Nfa) (T : Trail) : Trail :=
  T.extend (.silent part.finish frame.finish)

variable {frame part : Nfa}

theorem enter_injective (frame part : Nfa) : Function.Injective (enter frame part) := by
  rintro ⟨i, ts⟩ ⟨j, us⟩ h
  obtain ⟨rfl, hedges⟩ := mk.inj h
  exact congrArg (mk i) (List.cons.inj hedges).2

theorem leave_injective (frame part : Nfa) : Function.Injective (leave frame part) :=
  fun _ _ h => (extend_inj.mp h).1

end Trail

namespace Nfa

variable {frame part body : Nfa} {word : List Char} {lo hi : StateId}
variable {report report' : Report} {T : Trail}

/-- An automaton stands in a frame that it can be entered from and left to. -/
structure Encloses (frame part : Nfa) : Prop where
  inner : ∀ {s l t}, part.Arc s l t → frame.Arc s l t
  enter : frame.Arc frame.start .epsilon part.start
  leave : frame.Arc part.finish .epsilon frame.finish
  start_new : ¬ part.Owns frame.start
  finish_new : ¬ part.Owns frame.finish
  start_ne_finish : frame.start ≠ frame.finish

theorem encloses_of_wrap {skip again : Bool} (hb : body.Shaped lo hi)
    (hok : body.wrap hi skip again = .ok frame) : frame.Encloses body := by
  obtain ⟨hstart, hfinish, -, harc⟩ := hb.wrap_eq_ok hok
  obtain ⟨hn, hn'⟩ := hb.not_owns_frame
  refine ⟨fun h => harc.mpr (Or.inl h), ?_, ?_, hstart ▸ hn, hfinish ▸ hn', ?_⟩
  · exact harc.mpr (Or.inr ⟨rfl, Or.inl ⟨hstart, Or.inl rfl⟩⟩)
  · exact harc.mpr (Or.inr ⟨rfl, Or.inr ⟨rfl, Or.inl hfinish⟩⟩)
  · exact (hb.wrap hok).start_ne_finish

/-- A simple trail goes through states that the automaton owns. -/
theorem owns_of_mem_configurations (hn : part.Shaped lo hi) (hT : T ∈ part.simpleTrails word) :
    ∀ d ∈ T.configurations part, part.Owns d.state :=
  fun d hd => (hT.1.2.mem_visits hn hn.start_owned hT.1.1 d hd).1

/-- Entered from the frame, a simple trail is a simple trail of the frame. -/
theorem Encloses.enter_mem (h : frame.Encloses part) (hn : part.Shaped lo hi)
    (hT : T ∈ part.simpleTrails word) : T.enter frame part ∈ frame.simpleTrails word := by
  refine ⟨⟨hT.1.1, rfl, h.enter, Transition.passes_of_epsilon rfl, hT.1.2.of_arc_imp h.inner⟩, ?_⟩
  refine List.nodup_cons.mpr ⟨fun hback => ?_, hT.2⟩
  exact h.start_new (owns_of_mem_configurations hn hT _ hback)

/-- A trail that finishes in the body goes on to the finish of the frame. -/
theorem Encloses.leave_mem (h : frame.Encloses part) (hn : part.Shaped lo hi)
    (hT : T ∈ part.simpleTrails word) (hfinish : T.Finishes part) :
    (T.enter frame part).leave frame part ∈ frame.simpleTrails word ∧
      ((T.enter frame part).leave frame part).Finishes frame := by
  obtain ⟨hruns, hsimple⟩ := h.enter_mem hn hT
  have hend : (((T.enter frame part).root frame).along (T.enter frame part).edges).state =
      part.finish := hfinish
  refine ⟨⟨⟨hruns.1, course_concat_iff.mpr
    ⟨hruns.2, hend, h.leave, Transition.passes_of_epsilon rfl⟩⟩, ?_⟩, ?_⟩
  · refine (Configuration.simple_concat_iff _ _ _).mpr ⟨hsimple, fun hback => ?_⟩
    -- the finish of the frame is neither its start nor a state of the body
    rcases List.mem_cons.mp hback with heq | hback
    · exact h.start_ne_finish (congrArg Configuration.state heq).symm
    · exact h.finish_new (owns_of_mem_configurations hn hT _ hback)
  · rw [Trail.Finishes, Trail.leave, Trail.extend, Configuration.along_append]
    rfl

/-- A search records as many matches as there are simple trails to the finish. -/
theorem Enumerated.size_accepted (h : part.Enumerated word report) :
    report.accepted.size = {T ∈ part.simpleTrails word | T.Finishes part}.ncard := by
  obtain ⟨trails, hmem, hnodup, -, haccepted⟩ := h.accepted
  rw [← Array.length_toList, haccepted, List.length_map]
  exact (ncard_eq_length hnodup fun T => (hmem T).symm).symm

/-- A frame has at least as many matches as its body. -/
theorem Encloses.size_accepted_le (h : frame.Encloses part) (hn : part.Shaped lo hi)
    (hpart : part.Enumerated word report) (hframe : frame.Enumerated word report') :
    report.accepted.size ≤ report'.accepted.size := by
  rw [hpart.size_accepted, hframe.size_accepted]
  refine Set.ncard_le_ncard_of_injOn (fun T => (T.enter frame part).leave frame part)
    (fun T hT => h.leave_mem hn hT.1 hT.2) ?_ (hframe.finite.subset (Set.sep_subset _ _))
  exact ((Trail.leave_injective frame part).comp (Trail.enter_injective frame part)).injOn

/-- A frame is at least as ambiguous as its body. -/
theorem Encloses.ambiguity_le (h : frame.Encloses part) (hn : part.Shaped lo hi)
    (hpart : part.Enumerated word report) (hframe : frame.Enumerated word report') :
    report.ambiguity ≤ report'.ambiguity := by
  obtain ⟨i, q, o, hmost⟩ := hpart.ambiguity.1
  rw [hmost]
  refine le_trans ?_ (hframe.ambiguity.2 ⟨i, q, o, rfl⟩)
  refine Set.ncard_le_ncard_of_injOn (Trail.enter frame part) ?_
    (Trail.enter_injective frame part).injOn (hframe.finite.subset (Set.sep_subset _ _))
  rintro T ⟨hT, -, horigin, hend⟩
  exact ⟨h.enter_mem hn hT, List.cons_ne_nil _ _, horigin, hend⟩

end Nfa

namespace Pattern

/-- A repetition of a repetition matches what the repetition matches. -/
theorem matches_repeated_twice {Q : Pattern → Pattern} (hQ : Q = star ∨ Q = plus) (r : Pattern)
    (word : List Char) : (Q (Q r)).Matches word = (Q r).Matches word := by
  rcases hQ with rfl | rfl
  · exact Relation.reflTransGen_eq_self (r := Relation.ReflTransGen (r.Matches word))
  · exact Relation.transGen_eq_self (r := Relation.TransGen (r.Matches word))

end Pattern

namespace Compiler

/-- One more repetition keeps the spans and hides no work: on every text a repetition of a
repetition has the spans of the repetition, and a search for it records at least as many matches
and finds at least as many ways to some configuration. -/
theorem exists_search_repeated_twice (c : Compiler) (r : Pattern) {Q : Pattern → Pattern}
    (hQ : Q = .star ∨ Q = .plus) :
    ∃ once c' twice c'', c.compileTree (Q r) = .ok (once, c') ∧
      c.compileTree (Q (Q r)) = .ok (twice, c'') ∧
      ∀ word : List Char, ∃ report report',
        once.search word { maxRounds := none, maxPaths := none } = .ok report ∧
        twice.search word { maxRounds := none, maxPaths := none } = .ok report' ∧
        report'.spans = report.spans ∧
        report.accepted.size ≤ report'.accepted.size ∧
        report.ambiguity ≤ report'.ambiguity := by
  have hrepetition : Q (Q r) = .star (Q r) ∨ Q (Q r) = .plus (Q r) :=
    hQ.imp (fun h => congrFun h _) fun h => congrFun h _
  obtain ⟨skip, hframe⟩ := Pattern.exists_frames hrepetition
  obtain ⟨_, once, honce⟩ := Pattern.exists_built (Q r) c.numbering.next
  obtain ⟨twice, hwrap, htwice⟩ := honce.exists_frame hframe
  have hn := honce.shaped
  have hencloses := Nfa.encloses_of_wrap hn hwrap
  refine ⟨once, _, twice, _, compileTree_eq_ok honce, compileTree_eq_ok htwice, fun word => ?_⟩
  obtain ⟨report, hsearch, henumerated⟩ := Nfa.exists_enumerated hn word
  obtain ⟨report', hsearch', henumerated'⟩ := Nfa.exists_enumerated htwice.shaped word
  refine ⟨report, report', hsearch, hsearch', Std.ExtTreeSet.ext_mem fun s => ?_,
    hencloses.size_accepted_le hn henumerated henumerated',
    hencloses.ambiguity_le hn henumerated henumerated'⟩
  rw [Nfa.mem_spans_iff hn hsearch, Nfa.mem_spans_iff htwice.shaped hsearch',
    honce.traverses_eq, htwice.traverses_eq, Pattern.matches_repeated_twice hQ]

/-- In `((a|^)*)*` over `aa` a repetition of a repetition hides no work. -/
theorem exists_search_repeated_twice_of_anchor :
    ∃ once c' twice c'', compileTree {} (.star (.either (.literal 'a') (.literal '^'))) =
        .ok (once, c') ∧
      compileTree {} (.star (.star (.either (.literal 'a') (.literal '^')))) =
        .ok (twice, c'') ∧
      ∃ report report',
        once.search ['a', 'a'] { maxRounds := none, maxPaths := none } = .ok report ∧
        twice.search ['a', 'a'] { maxRounds := none, maxPaths := none } = .ok report' ∧
        report'.spans = report.spans ∧
        report.accepted.size ≤ report'.accepted.size ∧
        report.ambiguity ≤ report'.ambiguity := by
  obtain ⟨once, c', twice, c'', honce, htwice, hsearch⟩ := exists_search_repeated_twice {}
    (.either (.literal 'a') (.literal '^')) (Q := .star) (Or.inl rfl)
  exact ⟨once, c', twice, c'', honce, htwice, hsearch ['a', 'a']⟩

/-- The second star adds matches and ways to a configuration. -/
example : ([Pattern.star, Pattern.star ∘ Pattern.star].map fun Q =>
    (compileTree {} (Q (.either (.literal 'a') (.literal '^')))).toOption.bind fun r =>
      (r.1.search ['a', 'a'] { maxRounds := none, maxPaths := none }).toOption.map fun report =>
        (report.accepted.size, report.ambiguity)) = [some (7, 2), some (11, 4)] := by
  decide +kernel

end Compiler

end Backtracking
