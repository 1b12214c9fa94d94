import Backtracking.Proofs.Composition
import Backtracking.Proofs.Pruning

/-!
# Where a search can loop

A search without limits reports a loop on some text exactly if the tree has a repetition whose
body matches the empty string.

**Idle cycles.**  A loop consumes nothing, so it is a closed walk of edges that consume nothing.
The automaton of a tree has such a walk if the automaton of a part has, or if it leads back
from the end of a body to its beginning and the body can be crossed without consuming
(`Nfa.idles_wrap_iff`).

**A text for every cycle.**  Every state is on a way from the start.  Where no edge is an anchor,
what this way consumes is a text on which the search comes to the cycle and goes round it
(`Nfa.exists_firstRevisit_iff`).

**Results.**
* `Pattern.idles_iff`: which automata have an idle cycle.
* `Compiler.exists_search_loops_iff`: which trees have a text with loops.
-/

namespace Backtracking

open Relation

/-- A course that comes back is not simple. -/
theorem Configuration.not_simple_of_along_eq {c : Configuration} {ts : List Transition}
    (h : c.along ts = c) (hne : ts ≠ []) : ¬ c.Simple ts := by
  rcases List.eq_nil_or_concat ts with rfl | ⟨us, t, rfl⟩
  · exact absurd rfl hne
  · rw [List.concat_eq_append] at h ⊢
    rw [simple_concat_iff]
    rintro ⟨-, hnew⟩
    refine hnew ?_
    rw [show (c.along us).after t = c from (along_append c us [t]).symm.trans h]
    exact List.mem_cons_self

namespace Nfa

variable {nfa part first second left right body : Nfa} {lo mid hi next : StateId}
variable {s q : StateId} {ts : List Transition} {word : List Char}

/-- Some state can be come back to without consuming a character. -/
def Idles (nfa : Nfa) : Prop :=
  ∃ q ts, ts ≠ [] ∧ nfa.Walk q ts q ∧ consumedWord ts = []

/-- The finish can be come to without consuming a character. -/
def Skips (nfa : Nfa) : Prop :=
  ∃ ts, nfa.Walk nfa.start ts nfa.finish ∧ consumedWord ts = []

theorem Idles.of_arc_imp (harc : ∀ {s l t}, part.Arc s l t → nfa.Arc s l t)
    (h : part.Idles) : nfa.Idles := by
  obtain ⟨q, ts, hne, hwalk, hsilent⟩ := h
  exact ⟨q, ts, hne, hwalk.of_arc_imp harc, hsilent⟩

theorem Idles.exists_arc (h : nfa.Idles) : ∃ s l t, nfa.Arc s l t := by
  obtain ⟨q, ts, hne, hwalk, -⟩ := h
  obtain ⟨t, ht⟩ := List.exists_mem_of_ne_nil ts hne
  exact ⟨t.source, t.label, t.target, hwalk.arc t ht⟩

/-- An idle cycle lies inside a part. -/
theorem Levelled.idles_iff {level : StateId → Nat} {parts : Nat → Nfa}
    (h : nfa.Levelled level parts) : nfa.Idles ↔ ∃ k, (parts k).Idles := by
  constructor
  · rintro ⟨q, ts, hne, hwalk, hsilent⟩
    exact ⟨level q, q, ts, hne, hwalk.of_arcs (h.arc_of_closed hwalk), hsilent⟩
  · rintro ⟨k, hpart⟩
    exact hpart.of_arc_imp (h.arc_of_part k)

theorem not_idles_atom {label : Label} (hok : atom label next = .ok nfa) : ¬ nfa.Idles := by
  rw [(levelled_atom hok).idles_iff]
  rintro ⟨-, h⟩
  obtain ⟨s, l, t, harc⟩ := h.exists_arc
  exact not_arc_frame harc

theorem idles_chain_iff (hf : first.Shaped lo mid) (hs : second.Shaped mid hi)
    (hok : first.chain second = .ok nfa) : nfa.Idles ↔ first.Idles ∨ second.Idles := by
  rw [(hf.levelled_chain hs hok).idles_iff, exists_ite_iff]

theorem idles_branch_iff (hl : left.Shaped lo mid) (hr : right.Shaped mid hi)
    (hok : left.branch right hi = .ok nfa) : nfa.Idles ↔ left.Idles ∨ right.Idles := by
  rw [(hl.levelled_branch hr hok).idles_iff, exists_ite_iff]

section Wrap

variable {skip again : Bool}

/-- The transition that leads from the end of a body back to its beginning. -/
def backEdge (body : Nfa) : Transition :=
  { source := body.finish, label := .epsilon, target := body.start }

/-- In a frame a closed walk stays in the body, up to the edge that leads back. -/
theorem Shaped.arc_or_backEdge_of_closed (hb : body.Shaped lo hi)
    (hok : body.wrap hi skip again = .ok nfa) (hwalk : nfa.Walk q ts q) :
    ∀ t ∈ ts, body.Arc t.source t.label t.target ∨ again = true ∧ t = body.backEdge := by
  have hedge := fun {s l t} => hb.wrap_edge (s := s) (l := l) (t := t) hok
  have hup : ∀ {s l t}, nfa.Arc s l t → frameLevel hi hi s ≤ frameLevel hi hi t :=
    fun harc => (hedge harc).elim Nat.le_of_lt fun hstays => Nat.le_of_eq hstays.1
  intro t ht
  obtain ⟨hsource, htarget⟩ := hwalk.level_eq hup le_rfl t ht
  rcases hedge (hwalk.arc t ht) with hlt | ⟨-, harc | ⟨hagain, hs, hl, ht⟩⟩
  · lia
  · exact Or.inl harc
  · refine Or.inr ⟨hagain, ?_⟩
    cases t
    simp_all [backEdge]

/-- Where a closed walk leads back from the end of the body, it has crossed the body since it
last did. -/
theorem exists_walk_of_backEdge_mem (hwalk : nfa.Walk q ts q) (hback : body.backEdge ∈ ts) :
    ∃ us, us ⊆ ts ∧ body.backEdge ∉ us ∧ nfa.Walk body.start us body.finish := by
  obtain ⟨as, bs, rfl⟩ := List.append_of_mem hback
  obtain ⟨m, has, hbs⟩ := walk_append_iff.mp hwalk
  obtain ⟨rfl, harc, hbs⟩ := walk_cons_iff.mp hbs
  -- the walk is read from behind the edge on, once round
  have hround : nfa.Walk body.start (bs ++ as ++ [body.backEdge]) body.start :=
    (hbs.append has).append (walk_singleton_iff.mpr ⟨rfl, harc, rfl⟩)
  obtain ⟨us, vs, hcut, hnot⟩ := List.eq_append_cons_of_mem
    (List.mem_append_right (bs ++ as) (List.mem_singleton_self body.backEdge))
  rw [hcut] at hround
  obtain ⟨m, hus, hrest⟩ := walk_append_iff.mp hround
  obtain ⟨rfl, -, -⟩ := walk_cons_iff.mp hrest
  refine ⟨us, fun t ht => ?_, hnot, hus⟩
  have hmem : t ∈ bs ++ as ++ [body.backEdge] := hcut ▸ List.mem_append_left _ ht
  simp only [List.mem_append, List.mem_cons] at hmem ⊢
  tauto

/-- An idle cycle of a frame is one of the body, or goes through the whole body. -/
theorem idles_wrap_iff (hb : body.Shaped lo hi) (hok : body.wrap hi skip again = .ok nfa) :
    nfa.Idles ↔ body.Idles ∨ again = true ∧ body.Skips := by
  obtain ⟨-, -, -, harc⟩ := hb.wrap_eq_ok hok
  have hinside : ∀ {s l t}, body.Arc s l t → nfa.Arc s l t := fun h => harc.mpr (Or.inl h)
  constructor
  · rintro ⟨q, ts, hne, hwalk, hsilent⟩
    have hedges := hb.arc_or_backEdge_of_closed hok hwalk
    by_cases hback : body.backEdge ∈ ts
    · have hagain : again = true := (hedges _ hback).elim
        (fun harc => absurd harc hb.no_arc_from_finish) And.left
      obtain ⟨us, hsub, hnot, hus⟩ := exists_walk_of_backEdge_mem hwalk hback
      have hbody : body.Walk body.start us body.finish := hus.of_arcs fun t ht =>
        (hedges t (hsub ht)).resolve_right fun ⟨_, heq⟩ => hnot (heq ▸ ht)
      refine Or.inr ⟨hagain, us, hbody, (consumedWord_eq_nil_iff us).mpr fun t ht => ?_⟩
      exact (consumedWord_eq_nil_iff ts).mp hsilent t (hsub ht)
    · exact Or.inl ⟨q, ts, hne, hwalk.of_arcs fun t ht =>
        (hedges t ht).resolve_right fun ⟨_, heq⟩ => hback (heq ▸ ht), hsilent⟩
  · rintro (h | ⟨hagain, us, hus, hsilent⟩)
    · exact h.of_arc_imp hinside
    · have hback : nfa.Walk body.finish [body.backEdge] body.start :=
        walk_singleton_iff.mpr ⟨rfl, harc.mpr (Or.inr ⟨rfl, Or.inr ⟨rfl, Or.inr ⟨hagain, rfl⟩⟩⟩),
          rfl⟩
      refine ⟨body.start, us ++ [body.backEdge], by simp,
        (hus.of_arc_imp hinside).append hback, ?_⟩
      rw [consumedWord_append, hsilent]
      rfl

end Wrap

/-- What consumes nothing can be taken over the empty text. -/
theorem Walk.course_nil (h : nfa.Walk s ts q) (hsilent : consumedWord ts = []) :
    nfa.Course [] { state := s, offset := 0 } ts := by
  rw [consumedWord_eq_nil_iff] at hsilent
  induction h with
  | nil =>
      trivial
  | @cons t ts q harc _ ih =>
      obtain ⟨ht, hrest⟩ := List.forall_mem_cons.mp hsilent
      have hwidth : t.width = 0 := Transition.width_of_not_consumes ht
      refine ⟨rfl, harc, ?_, ?_⟩
      · cases hl : t.label with
        | char a =>
            exact absurd ((consumes_of_label_eq_char hl).symm.trans ht) Bool.noConfusion
        | epsilon =>
            exact Transition.passes_of_epsilon hl
        | startAnchor =>
            exact (Transition.passes_startAnchor_iff hl).mpr rfl
        | endAnchor =>
            exact (Transition.passes_endAnchor_iff hl).mpr rfl
      · rw [Configuration.after, hwidth]
        exact ih hrest

theorem skips_iff_traverses (nfa : Nfa) : nfa.Skips ↔ nfa.Traverses [] 0 0 := by
  rw [Traverses, leads_iff_exists_course]
  refine exists_congr fun ts => ?_
  constructor
  · rintro ⟨hwalk, hsilent⟩
    refine ⟨hwalk.course_nil hsilent, ?_⟩
    rw [hwalk.along_eq, hsilent]
    rfl
  · rintro ⟨hcourse, hend⟩
    have hwalk := hcourse.walk
    have hoffset := congrArg Configuration.offset hend
    rw [hend] at hwalk
    rw [Configuration.offset_along] at hoffset
    exact ⟨hwalk, List.length_eq_zero_iff.mp (by simpa using hoffset)⟩

/-- What a trail does between the two visits of its last configuration is an idle cycle. -/
theorem Idles.of_firstRevisit {T : Trail} (h : T.FirstRevisit nfa word) : nfa.Idles := by
  have hrecord := h.recordedAs
  obtain ⟨before, loop, hsplit, hne, hbefore⟩ := hrecord.earlier
  have hsilent := hrecord.idle before loop hsplit hbefore
  have hcourse := h.runs.2
  rw [Trail.here_path] at hbefore
  rw [hsplit, course_append_iff] at hcourse
  have hwalk := hcourse.2.walk
  rw [← Configuration.along_append, ← hsplit, hbefore] at hwalk
  exact ⟨_, loop, hne, hwalk, hsilent⟩

/-- The way to an idle cycle consumes a text on which the search comes back. -/
theorem Idles.exists_firstRevisit (h : nfa.Idles) (hn : nfa.Shaped lo hi) (htrim : nfa.Trim)
    (hfree : nfa.Anchorless) : ∃ (word : List Char) (T : Trail), T.FirstRevisit nfa word := by
  obtain ⟨q, ts, hne, hwalk, hsilent⟩ := h
  obtain ⟨us, hus⟩ := exists_walk_of_reaches (htrim q (hwalk.owns_source hn hne)).1
  have hway := hus.append hwalk
  have hcourse := hway.course (hway.anchorFree hfree) [] []
  have hback : (Configuration.along ⟨q, (consumedWord us).length⟩ ts) =
      ⟨q, (consumedWord us).length⟩ := by
    rw [hwalk.along_eq, hsilent]
    rfl
  refine ⟨_, Trail.exists_firstRevisit (T := ⟨0, us ++ ts⟩) ⟨Nat.zero_le _, hcourse⟩ ?_⟩
  intro hsimple
  have hloop := Configuration.Simple.of_append_right hsimple
  rw [Trail.root, hus.along_eq, Nat.zero_add] at hloop
  exact Configuration.not_simple_of_along_eq hback hne hloop

theorem Fragment.exists_firstRevisit_iff (h : Fragment lo hi nfa) (hfree : nfa.Anchorless) :
    (∃ (word : List Char) (T : Trail), T.FirstRevisit nfa word) ↔ nfa.Idles :=
  ⟨fun ⟨_, _, hT⟩ => .of_firstRevisit hT,
    fun hidles => hidles.exists_firstRevisit h.shaped h.trim hfree⟩

/-- Some search without limits reports a loop exactly if there is an idle cycle. -/
theorem Fragment.exists_loops_iff (h : Fragment lo hi nfa) (hfree : nfa.Anchorless) :
    (∃ word report, nfa.search word { maxRounds := none, maxPaths := none } = .ok report ∧
      report.loops ≠ #[]) ↔ nfa.Idles := by
  rw [← h.exists_firstRevisit_iff hfree]
  refine exists_congr fun word => ?_
  obtain ⟨m, -, hsearch⟩ := exists_search_eq_ok h.shaped word
  have hloops := loops_eq_empty_iff h.shaped rfl hsearch
  constructor
  · rintro ⟨report, hreport, hne⟩
    obtain rfl := Except.ok.inj (hsearch.symm.trans hreport)
    rw [Ne, hloops, not_forall] at hne
    exact hne.imp fun T hT => not_not.mp hT
  · rintro ⟨T, hT⟩
    exact ⟨_, hsearch, fun hnone => hloops.mp hnone T hT⟩

end Nfa

namespace Pattern

open Nfa

variable {p q body : Pattern} {lo hi : StateId} {nfa : Nfa}

/-- The tree is a repetition whose body matches the empty string. -/
def IsEmptyRepetition : Pattern → Prop
  | star body | plus body => body.Matches [] 0 0
  | _ => False

/-- Some part of the tree is a repetition whose body matches the empty string. -/
def RepeatsEmpty (p : Pattern) : Prop :=
  ∃ q : Pattern, q.OccursIn p ∧ q.IsEmptyRepetition

theorem repeatsEmpty_iff (p : Pattern) :
    p.RepeatsEmpty ↔
      ∃ body, ((star body).OccursIn p ∨ (plus body).OccursIn p) ∧ body.Matches [] 0 0 := by
  constructor
  · rintro ⟨q, h, hq⟩
    cases q with
    | star body =>
        exact ⟨body, Or.inl h, hq⟩
    | plus body =>
        exact ⟨body, Or.inr h, hq⟩
    | _ =>
        exact False.elim hq
  · rintro ⟨body, h | h, hempty⟩
    · exact ⟨star body, h, hempty⟩
    · exact ⟨plus body, h, hempty⟩

theorem not_repeatsEmpty_empty : ¬ empty.RepeatsEmpty := by
  rintro ⟨q, ⟨⟩, hq⟩
  exact hq

theorem not_repeatsEmpty_literal (c : Char) : ¬ (literal c).RepeatsEmpty := by
  rintro ⟨q, ⟨⟩, hq⟩
  exact hq

theorem not_repeatsEmpty_oneOf (members : List Char) : ¬ (oneOf members).RepeatsEmpty := by
  rintro ⟨q, ⟨⟩, hq⟩
  exact hq

theorem repeatsEmpty_sequence_iff (items : List Pattern) :
    (sequence items).RepeatsEmpty ↔ ∃ item ∈ items, item.RepeatsEmpty := by
  constructor
  · rintro ⟨q, h, hq⟩
    cases h with
    | refl =>
        exact False.elim hq
    | item hitem h =>
        exact ⟨_, hitem, q, h, hq⟩
  · rintro ⟨item, hitem, q, h, hq⟩
    exact ⟨q, .item hitem h, hq⟩

theorem repeatsEmpty_either_iff (left right : Pattern) :
    (either left right).RepeatsEmpty ↔ left.RepeatsEmpty ∨ right.RepeatsEmpty := by
  constructor
  · rintro ⟨q, h, hq⟩
    cases h with
    | refl =>
        exact False.elim hq
    | left h =>
        exact Or.inl ⟨q, h, hq⟩
    | right h =>
        exact Or.inr ⟨q, h, hq⟩
  · rintro (⟨q, h, hq⟩ | ⟨q, h, hq⟩)
    · exact ⟨q, .left h, hq⟩
    · exact ⟨q, .right h, hq⟩

theorem repeatsEmpty_star_iff (body : Pattern) :
    (star body).RepeatsEmpty ↔ body.RepeatsEmpty ∨ body.Matches [] 0 0 := by
  constructor
  · rintro ⟨q, h, hq⟩
    cases h with
    | refl =>
        exact Or.inr hq
    | star h =>
        exact Or.inl ⟨q, h, hq⟩
  · rintro (⟨q, h, hq⟩ | hempty)
    · exact ⟨q, .star h, hq⟩
    · exact ⟨star body, .refl, hempty⟩

theorem repeatsEmpty_plus_iff (body : Pattern) :
    (plus body).RepeatsEmpty ↔ body.RepeatsEmpty ∨ body.Matches [] 0 0 := by
  constructor
  · rintro ⟨q, h, hq⟩
    cases h with
    | refl =>
        exact Or.inr hq
    | plus h =>
        exact Or.inl ⟨q, h, hq⟩
  · rintro (⟨q, h, hq⟩ | hempty)
    · exact ⟨q, .plus h, hq⟩
    · exact ⟨plus body, .refl, hempty⟩

theorem repeatsEmpty_optional_iff (body : Pattern) :
    (optional body).RepeatsEmpty ↔ body.RepeatsEmpty := by
  constructor
  · rintro ⟨q, h, hq⟩
    cases h with
    | refl =>
        exact False.elim hq
    | optional h =>
        exact ⟨q, h, hq⟩
  · rintro ⟨q, h, hq⟩
    exact ⟨q, .optional h, hq⟩

theorem repeatsEmpty_group_iff (body : Pattern) :
    (group body).RepeatsEmpty ↔ body.RepeatsEmpty := by
  constructor
  · rintro ⟨q, h, hq⟩
    cases h with
    | refl =>
        exact False.elim hq
    | group h =>
        exact ⟨q, h, hq⟩
  · rintro ⟨q, h, hq⟩
    exact ⟨q, .group h, hq⟩

theorem BuiltAs.repeatsEmpty_iff (h : p.BuiltAs q) : p.RepeatsEmpty ↔ q.RepeatsEmpty := by
  cases h with
  | noMember =>
      exact iff_of_false (not_repeatsEmpty_oneOf []) not_repeatsEmpty_empty
  | member c =>
      exact iff_of_false (not_repeatsEmpty_oneOf [c]) (not_repeatsEmpty_literal c)
  | members _ c =>
      rw [repeatsEmpty_either_iff]
      exact iff_of_false (not_repeatsEmpty_oneOf _)
        (not_or.mpr ⟨not_repeatsEmpty_oneOf _, not_repeatsEmpty_literal c⟩)
  | noItem =>
      simp [repeatsEmpty_sequence_iff, not_repeatsEmpty_empty]
  | item _ =>
      simp [repeatsEmpty_sequence_iff]
  | group _ =>
      exact repeatsEmpty_group_iff q

/-- A body that is entered again repeats what it matches. -/
theorem Frames.repeatsEmpty_iff {skip again : Bool} (h : p.Frames body skip again) :
    p.RepeatsEmpty ↔ body.RepeatsEmpty ∨ again = true ∧ body.Matches [] 0 0 := by
  cases h with
  | star body =>
      rw [repeatsEmpty_star_iff, eq_self_iff_true, true_and]
  | plus body =>
      rw [repeatsEmpty_plus_iff, eq_self_iff_true, true_and]
  | optional body =>
      rw [repeatsEmpty_optional_iff, Bool.false_eq_true, false_and, or_false]

/-- Every idle cycle of the automaton of a tree comes from a repetition of what matches the
empty string. -/
theorem Built.idles_iff (h : p.Built lo hi nfa) : nfa.Idles ↔ p.RepeatsEmpty := by
  induction h with
  | empty hok =>
      exact iff_of_false (not_idles_atom hok) not_repeatsEmpty_empty
  | literal hok =>
      exact iff_of_false (not_idles_atom hok) (not_repeatsEmpty_literal _)
  | same hsame _ ih =>
      rw [ih, hsame.repeatsEmpty_iff]
  | items _ hitems hp hok ihitems ihp =>
      rw [idles_chain_iff hitems.shaped hp.shaped hok, ihitems, ihp, repeatsEmpty_sequence_iff,
        repeatsEmpty_sequence_iff]
      simp [or_and_right, exists_or]
  | either hp hq hok ihp ihq =>
      rw [idles_branch_iff hp.shaped hq.shaped hok, ihp, ihq, repeatsEmpty_either_iff]
  | frame hframe hbody hok ih =>
      rw [idles_wrap_iff hbody.shaped hok, skips_iff_traverses, hbody.traverses_eq, ih,
        hframe.repeatsEmpty_iff]

end Pattern

/-- A tree without anchors has a text on which the pruned search without limits reports a loop
exactly if some repetition of the tree has a body that matches the empty string. -/
theorem Compiler.exists_search_loops_iff {p : Pattern} (hp : p.AnchorFree) (c : Compiler) :
    ∃ nfa c', c.compileTree p = .ok (nfa, c') ∧
      ((∃ word report, nfa.search word { maxRounds := none, maxPaths := none } = .ok report ∧
          report.loops ≠ #[]) ↔
        ∃ body, ((Pattern.star body).OccursIn p ∨ (Pattern.plus body).OccursIn p) ∧
          body.Matches [] 0 0) := by
  obtain ⟨nfa, c', hok, hfrag⟩ := c.exists_compileTree p
  have hbuild := build_of_compileTree hok
  refine ⟨nfa, c', hok, ?_⟩
  rw [hfrag.exists_loops_iff (hp.label_ne hbuild), (Pattern.built_iff.mpr hbuild).idles_iff,
    Pattern.repeatsEmpty_iff]

/-- On some text the search of `x(a|b?)+` reports a loop, since `a|b?` matches the empty
string. -/
theorem Compiler.exists_search_loops_of_optional_in_plus :
    ∃ nfa c', Compiler.compileTree {} (.sequence [.literal 'x',
        .plus (.group (.either (.literal 'a') (.optional (.literal 'b'))))]) = .ok (nfa, c') ∧
      ∃ word report, nfa.search word { maxRounds := none, maxPaths := none } = .ok report ∧
        report.loops ≠ #[] := by
  obtain ⟨nfa, c', hok, hiff⟩ := Compiler.exists_search_loops_iff (p := .sequence [.literal 'x',
    .plus (.group (.either (.literal 'a') (.optional (.literal 'b'))))]) (by decide) {}
  have hempty : (Pattern.group (.either (.literal 'a') (.optional (.literal 'b')))).Matches
      [] 0 0 := Or.inr .refl
  exact ⟨nfa, c', hok, hiff.mpr ⟨_, Or.inr (.item (by simp) .refl), hempty⟩⟩

end Backtracking
