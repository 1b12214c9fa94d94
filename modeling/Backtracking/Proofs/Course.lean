import Backtracking.Proofs.Journey
import Backtracking.Proofs.Language
import Backtracking.Search.Path

/-!
# Walks over a text

A course is a walk that is taken over a text from a configuration on: every edge can be
crossed where it stands.  The transitions alone say which configurations are visited.

**Simple courses.**  A course is simple if it visits no configuration twice.  Offsets
never fall, so what lies before a consumed character and what lies behind it have no
configuration in common, and only the runs in between matter (`simple_append_cons_iff`).

**Anchors.**  With more text behind it, a walk can be taken if it crosses no end anchor and
start anchors only at offset 0 (`AnchorsInFront`), and only then.

**Results.**
* `Nfa.leads_iff_exists_course`: the paths over a text are those of the courses.
* `Nfa.exists_simple_course`: loops can be left out of a course.
* `Nfa.Course.length_lt`: a simple course is shorter than the number of configurations.
* `Nfa.Walk.course_of_anchorsInFront`, `Nfa.Course.anchorsInFront`: where anchors stand.
* `Nfa.Journey.course`, `Nfa.Journey.simple`: a journey is a simple course over its word.
-/

namespace Backtracking

namespace Transition

/-- How many characters crossing the transition consumes. -/
def width (t : Transition) : Nat :=
  if t.consumes then 1 else 0

/-- The transition can be crossed at an offset of a text. -/
def Passes (word : List Char) (offset : Nat) (t : Transition) : Prop :=
  t.label.cross? word offset = some (offset + t.width)

instance (word : List Char) (offset : Nat) (t : Transition) :
    Decidable (t.Passes word offset) :=
  inferInstanceAs (Decidable (_ = _))

variable {word : List Char} {o : Nat} {t : Transition} {a : Char}

theorem width_eq_length (t : Transition) : t.width = (consumedWord [t]).length := by
  rw [width, consumes, consumedWord, List.filterMap_cons]
  cases t.label.consumed? <;> rfl

theorem width_of_consumes (h : t.consumes = true) : t.width = 1 := by
  rw [width, if_pos h]

theorem width_of_not_consumes (h : t.consumes = false) : t.width = 0 := by
  rw [width, h]
  rfl

theorem passes_char_iff (h : t.label = .char a) : t.Passes word o ↔ word[o]? = some a := by
  rw [Passes, width_of_consumes (consumes_of_label_eq_char h), h, Label.cross?_char_iff]
  simp

theorem passes_of_epsilon (h : t.label = .epsilon) : t.Passes word o := by
  rw [Passes, width_of_not_consumes (not_consumes_of_label_eq h rfl), h,
    Label.cross?_epsilon_iff, Nat.add_zero]

theorem passes_startAnchor_iff (h : t.label = .startAnchor) : t.Passes word o ↔ o = 0 := by
  rw [Passes, width_of_not_consumes (not_consumes_of_label_eq h rfl), h,
    Label.cross?_startAnchor_iff]
  simp

theorem passes_endAnchor_iff (h : t.label = .endAnchor) :
    t.Passes word o ↔ o = word.length := by
  rw [Passes, width_of_not_consumes (not_consumes_of_label_eq h rfl), h,
    Label.cross?_endAnchor_iff]
  simp

/-- What consumes nothing can be crossed unless it is an anchor that does not hold. -/
theorem passes_of_not_consumes (h : t.consumes = false) (hend : t.label ≠ .endAnchor)
    (hstart : t.label = .startAnchor → o = 0) : t.Passes word o := by
  cases hl : t.label with
  | char a =>
      exact absurd ((consumes_of_label_eq_char hl).symm.trans h) Bool.noConfusion
  | epsilon =>
      exact passes_of_epsilon hl
  | startAnchor =>
      exact (passes_startAnchor_iff hl).mpr (hstart hl)
  | endAnchor =>
      exact absurd hl hend

/-- Crossing moves the offset by the width. -/
theorem cross?_eq_some_iff {o' : Nat} :
    t.label.cross? word o = some o' ↔ t.Passes word o ∧ o' = o + t.width := by
  constructor
  · intro h
    have hw : o' = o + t.width := by
      cases hl : t.label with
      | char a =>
          rw [hl, Label.cross?_char_iff] at h
          rw [width_of_consumes (consumes_of_label_eq_char hl), h.2]
      | epsilon =>
          rw [hl, Label.cross?_epsilon_iff] at h
          rw [width_of_not_consumes (not_consumes_of_label_eq hl rfl), h, Nat.add_zero]
      | startAnchor =>
          rw [hl, Label.cross?_startAnchor_iff] at h
          rw [width_of_not_consumes (not_consumes_of_label_eq hl rfl), h.1, h.2]
      | endAnchor =>
          rw [hl, Label.cross?_endAnchor_iff] at h
          rw [width_of_not_consumes (not_consumes_of_label_eq hl rfl), h.1, h.2, Nat.add_zero]
    exact ⟨by rw [Passes, h, hw], hw⟩
  · rintro ⟨h, rfl⟩
    exact h

/-- Text behind does not matter where no end anchor is crossed. -/
theorem Passes.append
    (h : t.Passes word o) (hend : t.label ≠ .endAnchor) (more : List Char) :
    t.Passes (word ++ more) o := by
  cases hl : t.label with
  | char a =>
      rw [passes_char_iff hl] at h ⊢
      obtain ⟨hlt, -⟩ := List.getElem?_eq_some_iff.mp h
      rwa [List.getElem?_append_left hlt]
  | epsilon =>
      exact passes_of_epsilon hl
  | startAnchor =>
      rw [passes_startAnchor_iff hl] at h ⊢
      exact h
  | endAnchor =>
      exact absurd hl hend

/-- No edge leads out of the text. -/
theorem Passes.le_length (h : t.Passes word o) (ho : o ≤ word.length) :
    o + t.width ≤ word.length := by
  cases hc : t.consumes with
  | false =>
      rwa [width_of_not_consumes hc]
  | true =>
      obtain ⟨a, ha⟩ := label_eq_char_of_consumes hc
      obtain ⟨hlt, -⟩ := List.getElem?_eq_some_iff.mp ((passes_char_iff ha).mp h)
      rw [width_of_consumes hc]
      omega

end Transition

namespace Configuration

/-- The configuration behind a transition. -/
def after (c : Configuration) (t : Transition) : Configuration :=
  { state := t.target, offset := c.offset + t.width }

/-- The configuration behind some transitions. -/
def along (c : Configuration) (ts : List Transition) : Configuration :=
  ts.foldl after c

/-- The configurations that are visited along some transitions. -/
def visits : Configuration → List Transition → List Configuration
  | _, [] => []
  | c, t :: ts => c.after t :: visits (c.after t) ts

/-- No configuration is visited twice. -/
def Simple (c : Configuration) (ts : List Transition) : Prop :=
  (c :: c.visits ts).Nodup

@[simp] theorem offset_after (c : Configuration) (t : Transition) :
    (c.after t).offset = c.offset + t.width := rfl

@[simp] theorem along_nil (c : Configuration) : c.along [] = c := rfl

@[simp] theorem along_cons (c : Configuration) (t : Transition) (ts : List Transition) :
    c.along (t :: ts) = (c.after t).along ts := rfl

@[simp] theorem along_append (c : Configuration) (ts us : List Transition) :
    c.along (ts ++ us) = (c.along ts).along us :=
  List.foldl_append

theorem visits_append (c : Configuration) (ts us : List Transition) :
    c.visits (ts ++ us) = c.visits ts ++ (c.along ts).visits us := by
  induction ts generalizing c with
  | nil =>
      rfl
  | cons t ts ih =>
      rw [List.cons_append, visits, visits, ih]
      rfl

theorem length_visits (c : Configuration) (ts : List Transition) :
    (c.visits ts).length = ts.length := by
  induction ts generalizing c with
  | nil =>
      rfl
  | cons t ts ih =>
      rw [visits, List.length_cons, ih, List.length_cons]

theorem offset_along (c : Configuration) (ts : List Transition) :
    (c.along ts).offset = c.offset + (consumedWord ts).length := by
  induction ts generalizing c with
  | nil =>
      rfl
  | cons t ts ih =>
      rw [along_cons, ih, consumedWord_cons, List.length_append, ← t.width_eq_length, offset_after]
      omega

/-- A visited configuration cuts the transitions in two. -/
theorem exists_split_of_mem_visits
    {c d : Configuration} {ts : List Transition} (h : d ∈ c :: c.visits ts) :
    ∃ us vs, ts = us ++ vs ∧ c.along us = d := by
  induction ts generalizing c with
  | nil =>
      exact ⟨[], [], rfl, (List.mem_singleton.mp h).symm⟩
  | cons t ts ih =>
      rcases List.mem_cons.mp h with rfl | h
      · exact ⟨[], t :: ts, rfl, rfl⟩
      · obtain ⟨us, vs, rfl, hd⟩ := ih h
        exact ⟨t :: us, vs, rfl, hd⟩

/-- Offsets never fall. -/
theorem offset_le_of_mem_visits
    {c d : Configuration} {ts : List Transition} (h : d ∈ c :: c.visits ts) :
    c.offset ≤ d.offset ∧ d.offset ≤ (c.along ts).offset := by
  obtain ⟨us, vs, rfl, rfl⟩ := exists_split_of_mem_visits h
  rw [along_append, offset_along, offset_along, offset_along]
  omega

/-- Along edges that consume nothing only the state changes. -/
theorem visits_of_not_consumes
    {ts : List Transition} (h : ∀ t ∈ ts, t.consumes = false) (c : Configuration) :
    c.visits ts = ts.map fun t => { state := t.target, offset := c.offset } := by
  induction ts generalizing c with
  | nil =>
      rfl
  | cons t ts ih =>
      obtain ⟨ht, hts⟩ := List.forall_mem_cons.mp h
      have hoff : (c.after t).offset = c.offset := by
        rw [offset_after, Transition.width_of_not_consumes ht, Nat.add_zero]
      rw [visits, ih hts, List.map_cons, hoff, ← hoff]
      rfl

theorem simple_nil (c : Configuration) : c.Simple [] :=
  List.nodup_singleton c

/-- A course that consumes nothing is simple if no state comes twice. -/
theorem simple_iff_of_not_consumes
    {ts : List Transition} (h : ∀ t ∈ ts, t.consumes = false) (c : Configuration) :
    c.Simple ts ↔ (c.state :: ts.map Transition.target).Nodup := by
  have hinj : Function.Injective fun s : StateId =>
      ({ state := s, offset := c.offset } : Configuration) :=
    fun _ _ hs => congrArg Configuration.state hs
  have hmap : c :: c.visits ts =
      (c.state :: ts.map Transition.target).map fun s => ⟨s, c.offset⟩ := by
    rw [visits_of_not_consumes h, List.map_cons, List.map_map]
    rfl
  rw [Simple, hmap, List.nodup_map_iff hinj]

theorem Simple.of_append_left
    {c : Configuration} {ts us : List Transition} (h : c.Simple (ts ++ us)) : c.Simple ts := by
  rw [Simple, visits_append] at h
  exact h.sublist ((List.sublist_append_left _ _).cons_cons c)

theorem Simple.of_append_right
    {c : Configuration} {ts us : List Transition} (h : c.Simple (ts ++ us)) :
    (c.along ts).Simple us := by
  induction ts generalizing c with
  | nil =>
      exact h
  | cons t ts ih =>
      exact ih (List.nodup_cons.mp h).2

/-- Nothing that lies before a consumed character comes again behind it. -/
theorem simple_append_cons_iff
    {t : Transition} (ht : t.consumes = true) (c : Configuration) (ts us : List Transition) :
    c.Simple (ts ++ t :: us) ↔ c.Simple ts ∧ ((c.along ts).after t).Simple us := by
  constructor
  · intro h
    refine ⟨h.of_append_left, ?_⟩
    have h' := h.of_append_right
    exact (List.nodup_cons.mp h').2
  · rintro ⟨hts, hus⟩
    rw [Simple, visits_append, ← List.cons_append, visits]
    refine List.nodup_append'.mpr ⟨hts, hus, fun d hd hd' => ?_⟩
    have hle := (offset_le_of_mem_visits hd).2
    have hle' := (offset_le_of_mem_visits hd').1
    rw [offset_after, Transition.width_of_consumes ht] at hle'
    omega

/-- One more edge keeps a course simple if it leads to a new configuration. -/
theorem simple_concat_iff (c : Configuration) (ts : List Transition) (t : Transition) :
    c.Simple (ts ++ [t]) ↔
      c.Simple ts ∧ (c.along ts).after t ∉ c :: c.visits ts := by
  rw [Simple, visits_append, ← List.cons_append]
  change (_ ++ [(c.along ts).after t]).Nodup ↔ _
  rw [List.nodup_append', List.disjoint_singleton]
  simp [Simple]

end Configuration

/-- No end anchor is crossed and start anchors only at offset 0, if the transitions are
taken from an offset on. -/
def AnchorsInFront : (offset : Nat) → List Transition → Prop
  | _, [] => True
  | o, t :: ts =>
      t.label ≠ .endAnchor ∧ (t.label = .startAnchor → o = 0) ∧ AnchorsInFront (o + t.width) ts

namespace AnchorsInFront

variable {o : Nat} {ts : List Transition}

/-- What is in front from some offset on is in front from an earlier one on. -/
theorem mono {o' : Nat} (h : AnchorsInFront o ts) (hle : o' ≤ o) : AnchorsInFront o' ts := by
  induction ts generalizing o o' with
  | nil =>
      trivial
  | cons t ts ih =>
      obtain ⟨hend, hstart, hts⟩ := h
      refine ⟨hend, fun hl => ?_, ih hts (Nat.add_le_add_right hle _)⟩
      have ho := hstart hl
      omega

theorem label_ne_endAnchor (h : AnchorsInFront o ts) : ∀ t ∈ ts, t.label ≠ .endAnchor := by
  induction ts generalizing o with
  | nil =>
      simp
  | cons t ts ih =>
      exact List.forall_mem_cons.mpr ⟨h.1, ih h.2.2⟩

end AnchorsInFront

theorem AnchorFree.anchorsInFront {ts : List Transition} (h : AnchorFree ts) (o : Nat) :
    AnchorsInFront o ts := by
  induction ts generalizing o with
  | nil =>
      trivial
  | cons t ts ih =>
      obtain ⟨ht, hts⟩ := List.forall_mem_cons.mp h
      exact ⟨ht.2, fun hl => absurd hl ht.1, ih hts _⟩

namespace Nfa

open Relation

/-- The transitions can be crossed one after another over a text. -/
def Course (nfa : Nfa) (word : List Char) : Configuration → List Transition → Prop
  | _, [] => True
  | c, t :: ts =>
      c.state = t.source ∧ nfa.Arc t.source t.label t.target ∧ t.Passes word c.offset ∧
        nfa.Course word (c.after t) ts

variable {nfa : Nfa} {lo hi : StateId} {word : List Char} {c : Configuration}
variable {s q : StateId} {ts us : List Transition} {rs : List Route}

theorem course_append_iff :
    nfa.Course word c (ts ++ us) ↔
      nfa.Course word c ts ∧ nfa.Course word (c.along ts) us := by
  induction ts generalizing c with
  | nil =>
      simp [Course]
  | cons t ts ih =>
      simp only [List.cons_append, Course, ih, Configuration.along_cons, and_assoc]

theorem course_concat_iff {t : Transition} :
    nfa.Course word c (ts ++ [t]) ↔
      nfa.Course word c ts ∧ (c.along ts).state = t.source ∧
        nfa.Arc t.source t.label t.target ∧ t.Passes word (c.along ts).offset := by
  rw [course_append_iff]
  simp only [Course, and_true]

theorem Course.walk (h : nfa.Course word c ts) : nfa.Walk c.state ts (c.along ts).state := by
  induction ts generalizing c with
  | nil =>
      exact .nil _
  | cons t ts ih =>
      rcases h with ⟨hs, ht, -, hts⟩
      exact walk_cons_iff.mpr ⟨hs, ht, ih hts⟩

/-- A step crosses a transition. -/
theorem step_iff_exists_passes (c d : Configuration) :
    nfa.Step word c d ↔
      ∃ t : Transition, c.state = t.source ∧ nfa.Arc t.source t.label t.target ∧
        t.Passes word c.offset ∧ c.after t = d := by
  constructor
  · rintro ⟨l, harc, hcross⟩
    obtain ⟨hpass, hoff⟩ :=
      (Transition.cross?_eq_some_iff (t := ⟨c.state, l, d.state⟩)).mp hcross
    refine ⟨⟨c.state, l, d.state⟩, rfl, harc, hpass, ?_⟩
    rw [Configuration.after, ← hoff]
  · rintro ⟨t, hs, harc, hpass, rfl⟩
    exact ⟨t.label, hs ▸ harc, hpass⟩

/-- The paths over a text are those of the courses. -/
theorem leads_iff_exists_course (c d : Configuration) :
    ReflTransGen (nfa.Step word) c d ↔ ∃ ts, nfa.Course word c ts ∧ c.along ts = d := by
  constructor
  · intro path
    induction path with
    | refl =>
        exact ⟨[], trivial, rfl⟩
    | tail _ hstep ih =>
        obtain ⟨ts, hts, rfl⟩ := ih
        obtain ⟨t, hs, harc, hpass, rfl⟩ := (step_iff_exists_passes _ _).mp hstep
        exact ⟨ts ++ [t], course_concat_iff.mpr ⟨hts, hs, harc, hpass⟩, by simp⟩
  · rintro ⟨ts, hts, rfl⟩
    induction ts generalizing c with
    | nil =>
        exact .refl
    | cons t ts ih =>
        rcases hts with ⟨hs, harc, hpass, hts⟩
        exact .head ((step_iff_exists_passes _ _).mpr ⟨t, hs, harc, hpass, rfl⟩) (ih _ hts)

/-- Paths do not leave the text. -/
theorem offset_le_length_of_leads {c d : Configuration}
    (path : ReflTransGen (nfa.Step word) c d) (hc : c.offset ≤ word.length) :
    d.offset ≤ word.length := by
  induction path with
  | refl =>
      exact hc
  | tail _ hstep ih =>
      obtain ⟨t, -, -, hpass, rfl⟩ := (step_iff_exists_passes _ _).mp hstep
      exact hpass.le_length ih

/-- A walk leads to its end, as far behind as it consumes. -/
theorem Walk.along_eq (h : nfa.Walk s ts q) (o : Nat) :
    ({ state := s, offset := o } : Configuration).along ts =
      { state := q, offset := o + (consumedWord ts).length } := by
  induction h generalizing o with
  | nil =>
      rfl
  | @cons t ts q _ _ ih =>
      rw [Configuration.along_cons, Configuration.after, ih, consumedWord_cons,
        List.length_append, ← t.width_eq_length, Nat.add_assoc]

theorem Course.append_text
    (h : nfa.Course word c ts) (hend : ∀ t ∈ ts, t.label ≠ .endAnchor) (more : List Char) :
    nfa.Course (word ++ more) c ts := by
  induction ts generalizing c with
  | nil =>
      trivial
  | cons t ts ih =>
      rcases h with ⟨hs, ht, hp, hts⟩
      obtain ⟨hend, hends⟩ := List.forall_mem_cons.mp hend
      exact ⟨hs, ht, hp.append hend more, ih hts hends⟩

/-- A course is a course of every automaton that has its edges. -/
theorem Course.of_arc_imp {part : Nfa} (h : part.Course word c ts)
    (harc : ∀ {s l t}, part.Arc s l t → nfa.Arc s l t) : nfa.Course word c ts := by
  induction ts generalizing c with
  | nil =>
      trivial
  | cons t ts ih =>
      rcases h with ⟨hs, ht, hp, hts⟩
      exact ⟨hs, harc ht, hp, ih hts⟩

/-- Loops can be left out. -/
theorem exists_simple_course (h : nfa.Course word c ts) :
    ∃ us, us ⊆ ts ∧ nfa.Course word c us ∧ c.along us = c.along ts ∧ c.Simple us := by
  induction ts generalizing c with
  | nil =>
      exact ⟨[], List.nil_subset _, h, rfl, c.simple_nil⟩
  | cons t ts ih =>
      rcases h with ⟨hs, ht, hp, hts⟩
      obtain ⟨us, hsub, hus, hend, hsimple⟩ := ih hts
      by_cases hback : c ∈ c.after t :: (c.after t).visits us
      · obtain ⟨xs, ys, rfl, hc⟩ := Configuration.exists_split_of_mem_visits hback
        rw [course_append_iff, hc] at hus
        rw [Configuration.along_append, hc] at hend
        refine ⟨ys, fun y hy => ?_, hus.2, hend, hc ▸ hsimple.of_append_right⟩
        exact List.mem_cons_of_mem t (hsub (List.mem_append_right xs hy))
      · refine ⟨t :: us, List.cons_subset_cons t hsub, ⟨hs, ht, hp, hus⟩, hend, ?_⟩
        exact List.nodup_cons.mpr ⟨hback, hsimple⟩

/-- A course stays in the automaton and in the text. -/
theorem Course.mem_visits (hn : nfa.Shaped lo hi) (h : nfa.Course word c ts)
    (hstate : nfa.Owns c.state) (hoff : c.offset ≤ word.length) :
    ∀ d ∈ c :: c.visits ts, nfa.Owns d.state ∧ d.offset ≤ word.length := by
  induction ts generalizing c with
  | nil =>
      intro d hd
      rw [List.mem_singleton.mp hd]
      exact ⟨hstate, hoff⟩
  | cons t ts ih =>
      rcases h with ⟨-, ht, hp, hts⟩
      exact List.forall_mem_cons.mpr
        ⟨⟨hstate, hoff⟩, ih hts (hn.inside ht).2 (hp.le_length hoff)⟩

/-- A course visits no more configurations than there are. -/
theorem Course.card_visits_le (hn : nfa.Shaped lo hi) (h : nfa.Course word c ts)
    (hstate : nfa.Owns c.state) (hoff : c.offset ≤ word.length) :
    (c :: c.visits ts).toFinset.card ≤ nfa.graph.states.length * (word.length + 1) := by
  have hsub : (c :: c.visits ts).toFinset ⊆
      ((nfa.graph.states ×ˢ List.range (word.length + 1)).map
        fun p => ({ state := p.1, offset := p.2 } : Configuration)).toFinset := by
    intro d hd
    obtain ⟨howns, hle⟩ := h.mem_visits hn hstate hoff d (List.mem_toFinset.mp hd)
    refine List.mem_toFinset.mpr (List.mem_map.mpr ⟨(d.state, d.offset), ?_, rfl⟩)
    rw [List.mem_product, Graph.mem_states, List.mem_range]
    exact ⟨howns, Nat.lt_succ_of_le hle⟩
  refine (Finset.card_le_card hsub).trans ((List.toFinset_card_le _).trans ?_)
  rw [List.length_map, List.length_product, List.length_range]

/-- A simple course is shorter than the number of configurations. -/
theorem Course.length_lt (hn : nfa.Shaped lo hi) (h : nfa.Course word c ts)
    (hstate : nfa.Owns c.state) (hoff : c.offset ≤ word.length) (hsimple : c.Simple ts) :
    ts.length < nfa.graph.states.length * (word.length + 1) := by
  have hcard := h.card_visits_le hn hstate hoff
  rw [List.toFinset_card_of_nodup hsimple, List.length_cons,
    Configuration.length_visits] at hcard
  exact hcard

/-- The runs of a simple course are simple. -/
theorem runsSimple_of_simple (hsimple : c.Simple ts) : RunsSimple ts := by
  rintro before opening run closing after rfl ho hrun -
  obtain ⟨-, hrest⟩ := (Configuration.simple_append_cons_iff ho c before _).mp hsimple
  exact (Configuration.simple_iff_of_not_consumes hrun _).mp hrest.of_append_left

/-- A walk whose anchors are in front can be taken where the word that it consumes stands. -/
theorem Walk.course_of_anchorsInFront (h : nfa.Walk s ts q) (before after : List Char)
    (hfront : AnchorsInFront before.length ts) :
    nfa.Course (before ++ consumedWord ts ++ after) { state := s, offset := before.length }
      ts := by
  induction h generalizing before with
  | nil =>
      trivial
  | @cons t ts q ht _ ih =>
      obtain ⟨hend, hstart, hts⟩ := hfront
      rw [consumedWord_cons]
      cases hc : t.consumes with
      | true =>
          obtain ⟨a, hl⟩ := label_eq_char_of_consumes hc
          rw [Transition.width_of_consumes hc] at hts
          have h := ih (before ++ [a]) (by rwa [List.length_append, List.length_singleton])
          rw [List.length_append, List.length_singleton] at h
          rw [consumedWord_of_label_eq_char hl, ← List.append_assoc before]
          refine ⟨rfl, ht, ?_, ?_⟩
          · rw [Transition.passes_char_iff hl]
            simp
          · rwa [Configuration.after, Transition.width_of_consumes hc]
      | false =>
          rw [Transition.width_of_not_consumes hc] at hts
          rw [consumedWord_of_not_consumes hc, List.nil_append]
          refine ⟨rfl, ht, Transition.passes_of_not_consumes hc hend hstart, ?_⟩
          rw [Configuration.after, Transition.width_of_not_consumes hc, Nat.add_zero]
          exact ih before hts

/-- A walk without anchors can be taken anywhere where its word stands. -/
theorem Walk.course (h : nfa.Walk s ts q) (hfree : AnchorFree ts) (before after : List Char) :
    nfa.Course (before ++ consumedWord ts ++ after) { state := s, offset := before.length }
      ts :=
  h.course_of_anchorsInFront before after (hfree.anchorsInFront _)

/-- Anchors are in front along a course that ends before the text does. -/
theorem Course.anchorsInFront (h : nfa.Course word c ts)
    (hlt : (c.along ts).offset < word.length) : AnchorsInFront c.offset ts := by
  induction ts generalizing c with
  | nil =>
      trivial
  | cons t ts ih =>
      rcases h with ⟨-, -, hp, hts⟩
      refine ⟨fun hl => ?_, fun hl => (Transition.passes_startAnchor_iff hl).mp hp, ih hts hlt⟩
      have hoff := (Transition.passes_endAnchor_iff hl).mp hp
      rw [Configuration.offset_along] at hlt
      omega

/-- A journey can be taken where its word stands. -/
theorem Journey.course (h : nfa.Journey s rs q) (before after : List Char) :
    nfa.Course (before ++ rs.map Route.letter ++ after)
      { state := s, offset := before.length } (legs rs) :=
  h.consumedWord_legs ▸ h.walk.course h.anchorFree before after

/-- And it is simple wherever it is taken. -/
theorem Journey.simple (h : nfa.Journey s rs q) (o : Nat) :
    ({ state := s, offset := o } : Configuration).Simple (legs rs) := by
  induction h generalizing o with
  | nil =>
      exact Configuration.simple_nil _
  | @cons s q r rs hr _ ih =>
      rw [legs_cons, Configuration.simple_append_cons_iff hr.consumes_edge]
      exact ⟨(Configuration.simple_iff_of_not_consumes hr.consumes_run _).mpr hr.simple, ih _⟩

end Nfa

end Backtracking
