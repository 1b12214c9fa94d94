import Backtracking.Proofs.Components
import Backtracking.Proofs.Literals
import Backtracking.Proofs.Reading

/-!
# A repeated body that can be read in two ways

If a word can be cut into words of the body in two ways, a repetition of the body goes
through the word in two ways: at a cut that only one of them has, that one takes the edge
from the finish of the body back to its start, and the other stays in the body.

**Cuts.**  A check leaves loops out of silent runs.  So the edge back counts only if the
run behind one word and the run before the next one have no state in common
(`Nfa.Severs`); otherwise the two words are also read as one, past the edge back, and the
body can be passed silently (`Nfa.severs_of_not_accepts`).

**Results.**
* `Nfa.Repeats.exists_toursVia`: a repetition goes through a word with a given route.
* `Compiler.check_repetition_of_factors`: two factorisations that differ in a cut that
  severs its neighbours make a repetition vulnerable.
-/

namespace Backtracking

open Relation

/-- Words that an automaton accepts, none of them empty, which make up a text. -/
structure Nfa.Factors (nfa : Nfa) (text : List Char) (us : List (List Char)) : Prop where
  flatten_eq : us.flatten = text
  word : ∀ u ∈ us, u ≠ [] ∧ nfa.accepts u = true

/-- One of the words ends at the offset, and another one begins there. -/
def CutsAt (us : List (List Char)) (i : Nat) : Prop :=
  ∃ before after, us = before ++ after ∧ before ≠ [] ∧ after ≠ [] ∧ before.flatten.length = i

theorem CutsAt.cons {us : List (List Char)} {i : Nat} (h : CutsAt us i) (u : List Char) :
    CutsAt (u :: us) (u.length + i) := by
  obtain ⟨before, after, rfl, -, hafter, rfl⟩ := h
  exact ⟨u :: before, after, rfl, List.cons_ne_nil _ _, hafter, by simp⟩

/-- One word has no cut. -/
theorem not_cutsAt_singleton (u : List Char) (i : Nat) : ¬ CutsAt [u] i := by
  rintro ⟨before, after, heq, hbefore, hafter, -⟩
  have hlength := congrArg List.length heq
  rw [List.length_singleton, List.length_append] at hlength
  have hpos := List.length_pos_iff.mpr hbefore
  have hpos' := List.length_pos_iff.mpr hafter
  omega

/-- An offset of the text at which there is no cut lies inside a word. -/
theorem exists_straddling
    {us : List (List Char)} {i : Nat} (h : ¬ CutsAt us i) (hpos : 0 < i)
    (hlt : i < us.flatten.length) :
    ∃ before u v after, us = before ++ (u ++ v) :: after ∧ u ≠ [] ∧ v ≠ [] ∧
      before.flatten.length + u.length = i := by
  induction us generalizing i with
  | nil =>
      exact absurd hlt (Nat.not_lt_zero i)
  | cons w us ih =>
      rw [List.flatten_cons, List.length_append] at hlt
      rcases Nat.lt_trichotomy i w.length with hi | rfl | hi
      · refine ⟨[], w.take i, w.drop i, us, by simp, ?_, ?_, by simp; omega⟩
        · exact List.length_pos_iff.mp (by simp; omega)
        · exact List.length_pos_iff.mp (by simp; omega)
      · refine absurd ⟨[w], us, rfl, List.cons_ne_nil _ _, ?_, by simp⟩ h
        rintro rfl
        simp at hlt
      · obtain ⟨j, rfl⟩ := Nat.exists_eq_add_of_lt hi
        have hcut : ¬ CutsAt us (j + 1) := fun hcut => h (hcut.cons w)
        obtain ⟨before, u, v, after, rfl, hu, hv, hlen⟩ :=
          ih hcut (Nat.succ_pos j) (by omega)
        refine ⟨w :: before, u, v, after, rfl, hu, hv, ?_⟩
        rw [List.flatten_cons, List.length_append]
        omega

namespace Nfa

variable {nfa body : Nfa} {lo hi : StateId} {x y : List Char}

/-- Some walk through the automaton consumes the word, and behind the last character it
visits these states. -/
def LeavesThrough (nfa : Nfa) (word : List Char) (states : List StateId) : Prop :=
  ∃ (a : List Transition) (e : Transition) (trailing : List Transition),
    nfa.Walk nfa.start (a ++ e :: trailing) nfa.finish ∧
      consumedWord (a ++ e :: trailing) = word ∧ e.consumes = true ∧
      (∀ t ∈ trailing, t.consumes = false) ∧
      states = e.target :: trailing.map Transition.target

/-- Some walk through the automaton consumes the word, and before the first character it
visits these states. -/
def EntersThrough (nfa : Nfa) (word : List Char) (states : List StateId) : Prop :=
  ∃ (leading : List Transition) (f : Transition) (b : List Transition),
    nfa.Walk nfa.start (leading ++ f :: b) nfa.finish ∧
      consumedWord (leading ++ f :: b) = word ∧ (∀ t ∈ leading, t.consumes = false) ∧
      f.consumes = true ∧ states = nfa.start :: leading.map Transition.target

/-- Two words can be read one after the other in such a way that the silent run behind the
first one and the silent run before the second one have no state in common. -/
def Severs (nfa : Nfa) (x y : List Char) : Prop :=
  ∃ behind before, nfa.LeavesThrough x behind ∧ nfa.EntersThrough y before ∧
    behind.Disjoint before

/-- Two accepted words are severed, unless the empty word is accepted and the two are
accepted as one word. -/
theorem severs_of_not_accepts (hfree : nfa.Anchorless)
    (hx : nfa.accepts x = true) (hxne : x ≠ []) (hy : nfa.accepts y = true) (hyne : y ≠ [])
    (h : nfa.accepts [] = false ∨ nfa.accepts (x ++ y) = false) : nfa.Severs x y := by
  obtain ⟨ts, hts, rfl⟩ := (accepts_iff_exists_walk hfree x).mp hx
  obtain ⟨us, hus, rfl⟩ := (accepts_iff_exists_walk hfree y).mp hy
  obtain ⟨a, e, trailing, rfl, he, htrailing⟩ :=
    exists_last_split (exists_consumes_of_consumedWord_ne_nil hxne)
  obtain ⟨leading, f, b, rfl, hleading, hf⟩ :=
    exists_first_split (exists_consumes_of_consumedWord_ne_nil hyne)
  refine ⟨_, _, ⟨a, e, trailing, hts, rfl, he, htrailing, rfl⟩,
    ⟨leading, f, b, hus, rfl, hleading, hf, rfl⟩, fun z hz hz' => ?_⟩
  obtain ⟨m, ha, htail⟩ := walk_append_iff.mp hts
  obtain ⟨rfl, harc, htail⟩ := walk_cons_iff.mp htail
  obtain ⟨m', hhead, hb⟩ := walk_append_iff.mp hus
  -- a common state leads past the edge back, and silently through the automaton
  obtain ⟨t₁, t₂, rfl, ht₁, ht₂⟩ := htail.exists_split hz
  obtain ⟨l₁, l₂, rfl, hl₁, hl₂⟩ := hhead.exists_split hz'
  have hempty : nfa.accepts [] = true := by
    refine (accepts_iff_exists_walk hfree []).mpr ⟨l₁ ++ t₂, hl₁.append ht₂, ?_⟩
    refine (consumedWord_eq_nil_iff _).mpr fun t ht => ?_
    rcases List.mem_append.mp ht with ht | ht
    · exact hleading t (List.mem_append_left _ ht)
    · exact htrailing t (List.mem_append_right _ ht)
  have hjoined : nfa.accepts
      (consumedWord (a ++ e :: (t₁ ++ t₂)) ++ consumedWord (l₁ ++ l₂ ++ f :: b)) = true := by
    refine (accepts_iff_exists_walk hfree _).mpr ⟨(a ++ e :: t₁) ++ (l₂ ++ f :: b),
      (ha.append (.cons harc ht₁)).append (hl₂.append hb), ?_⟩
    rw [← List.cons_append, ← List.append_assoc a,
      consumedWord_append_of_not_consumes _
        fun t ht => htrailing t (List.mem_append_right t₁ ht),
      List.append_assoc l₁,
      consumedWord_append_of_not_consumes_left
        (fun t ht => hleading t (List.mem_append_left l₂ ht)), consumedWord_append]
  rcases h with h | h
  · exact Bool.noConfusion (h.symm.trans hempty)
  · exact Bool.noConfusion (h.symm.trans hjoined)

/-- The automaton goes through the body, and from its finish back to its start. -/
structure Repeats (nfa body : Nfa) : Prop where
  inner : ∀ {s l t}, body.Arc s l t → nfa.Arc s l t
  enter : nfa.Slides nfa.start body.start
  again : nfa.Arc body.finish .epsilon body.start

theorem repeats_of_wrap {skip : Bool} (hb : body.Shaped lo hi)
    (hok : body.wrap hi skip true = .ok nfa) : nfa.Repeats body := by
  obtain ⟨hstart, -, -, harc⟩ := hb.wrap_eq_ok hok
  refine ⟨fun h => harc.mpr (Or.inl h), .single ?_, ?_⟩
  · exact harc.mpr (Or.inr ⟨rfl, Or.inl ⟨hstart, Or.inl rfl⟩⟩)
  · exact harc.mpr (Or.inr ⟨rfl, Or.inr ⟨rfl, Or.inr ⟨rfl, rfl⟩⟩⟩)

/-- From wherever the part can be entered next, some journey leads through the word to the
state `q`, which a character of the part enters and from which its finish is come to silently. -/
structure Laps (nfa part : Nfa) (w : List Char) (q : StateId) : Prop where
  entered : ∃ s a, part.Arc s (.char a) q
  slides : nfa.Slides q part.finish
  exists_journey : ∀ s, nfa.Slides s part.start →
    ∃ ρ, nfa.Journey s ρ q ∧ ρ.map Route.letter = w

/-- From wherever the body can be entered next, some journey leads through the word to
the state `t`, from where it can be entered again. -/
structure Tours (nfa body : Nfa) (w : List Char) (t : StateId) : Prop where
  slides : nfa.Slides t body.start
  exists_journey : ∀ s, nfa.Slides s body.start →
    ∃ ρ, nfa.Journey s ρ t ∧ ρ.map Route.letter = w

/-- And the journey takes the route `r` at the offset `i` of the word. -/
structure ToursVia
    (nfa body : Nfa) (w : List Char) (i : Nat) (r : Route) (t : StateId) : Prop where
  slides : nfa.Slides t body.start
  exists_journey : ∀ s, nfa.Slides s body.start →
    ∃ ρ, nfa.Journey s ρ t ∧ ρ.map Route.letter = w ∧ ρ[i]? = some r

variable {u v : List Char} {i : Nat} {r : Route} {s t t' q : StateId}

theorem ToursVia.append (h : nfa.ToursVia body u i r t) (h' : nfa.Tours body v t') :
    nfa.ToursVia body (u ++ v) i r t' := by
  refine ⟨h'.slides, fun s hs => ?_⟩
  obtain ⟨ρ, hρ, rfl, hr⟩ := h.exists_journey s hs
  obtain ⟨σ, hσ, rfl⟩ := h'.exists_journey t h.slides
  refine ⟨ρ ++ σ, hρ.append hσ, List.map_append, ?_⟩
  obtain ⟨hlt, -⟩ := List.getElem?_eq_some_iff.mp hr
  rw [List.getElem?_append_left hlt, hr]

theorem Tours.append_via (h : nfa.Tours body u t) (h' : nfa.ToursVia body v i r t') :
    nfa.ToursVia body (u ++ v) (u.length + i) r t' := by
  refine ⟨h'.slides, fun s hs => ?_⟩
  obtain ⟨ρ, hρ, rfl⟩ := h.exists_journey s hs
  obtain ⟨σ, hσ, rfl, hr⟩ := h'.exists_journey t h.slides
  refine ⟨ρ ++ σ, hρ.append hσ, List.map_append, ?_⟩
  rw [List.length_map, List.getElem?_append_right (Nat.le_add_right _ _),
    Nat.add_sub_cancel_left, hr]

/-- A walk through the start of the body is followed by a journey from wherever the body
can be entered next. -/
theorem exists_journey_from {a : List Transition} {e : Transition}
    (hfree : nfa.Anchorless) (ha : nfa.Walk body.start (a ++ [e]) q)
    (he : e.consumes = true) (hs : nfa.Slides s body.start) :
    ∃ ρ, nfa.Journey s ρ q ∧ ρ.map Route.letter = consumedWord (a ++ [e]) := by
  obtain ⟨entry, hentry, hsilent⟩ := hs.exists_walk
  have hwalk := hentry.append ha
  rw [← List.append_assoc] at hwalk
  obtain ⟨ρ, hρ, hletters⟩ := hwalk.exists_journey_concat hfree he
  refine ⟨ρ, hρ, ?_⟩
  rw [hletters, List.append_assoc, consumedWord_append_of_not_consumes_left
    fun t ht => not_consumes_of_label_eq (hsilent t ht) rfl]

/-- A word of a part is consumed by a lap, which ends behind its last character. -/
theorem exists_laps {part : Nfa} (harc : ∀ {s l t}, part.Arc s l t → nfa.Arc s l t)
    (hfree : nfa.Anchorless) (hu : part.accepts u = true) (hne : u ≠ []) :
    ∃ q, nfa.Laps part u q := by
  obtain ⟨ts, hts, rfl⟩ := (accepts_iff_exists_walk (fun h => hfree (harc h)) u).mp hu
  obtain ⟨a, e, trailing, rfl, he, hnone⟩ :=
    exists_last_split (exists_consumes_of_consumedWord_ne_nil hne)
  obtain ⟨letter, hletter⟩ := label_eq_char_of_consumes he
  have hinto := hts.arc e (by simp)
  rw [List.append_cons] at hts
  obtain ⟨q, ha, htrail⟩ := walk_append_iff.mp hts
  obtain rfl := ha.target_eq
  have htrail := htrail.of_arc_imp harc
  refine ⟨e.target, ⟨e.source, letter, hletter ▸ hinto⟩,
    htrail.slides (htrail.silent hfree hnone), fun s hs => ?_⟩
  obtain ⟨ρ, hρ, hletters⟩ := exists_journey_from hfree (ha.of_arc_imp harc) he hs
  refine ⟨ρ, hρ, ?_⟩
  rw [hletters, List.append_cons a e trailing, consumedWord_append_of_not_consumes _ hnone]

namespace Repeats

/-- Behind the finish of the body it can be entered again. -/
theorem slides_start (h : nfa.Repeats body) (ht : nfa.Slides t body.finish) :
    nfa.Slides t body.start :=
  ReflTransGen.tail ht h.again

/-- A word of the body is toured. -/
theorem exists_tours (h : nfa.Repeats body) (hfree : nfa.Anchorless)
    (hu : body.accepts u = true) (hne : u ≠ []) : ∃ t, nfa.Tours body u t := by
  obtain ⟨q, hlaps⟩ := exists_laps h.inner hfree hu hne
  exact ⟨q, h.slides_start hlaps.slides, hlaps.exists_journey⟩

/-- A walk into the body, a route, and a walk to the finish of the body.  Silent edges
behind the first walk and before the character of the route do not change the words. -/
theorem exists_toursVia (h : nfa.Repeats body) (hfree : nfa.Anchorless)
    {a b trailing leading : List Transition} {e : Transition}
    (ha : nfa.Walk body.start (a ++ [e]) q) (he : e.consumes = true)
    (htrailing : ∀ t ∈ trailing, t.consumes = false)
    (hleading : ∀ t ∈ leading, t.consumes = false)
    (hr : nfa.IsRoute q r) (hb : nfa.Walk r.target b body.finish) :
    ∃ t, nfa.ToursVia body
      (consumedWord (a ++ e :: trailing) ++ consumedWord (leading ++ r.edge :: b))
      (consumedWord (a ++ e :: trailing)).length r t := by
  obtain ⟨σ, t, hσ, hletters, hslide⟩ := hb.exists_journey hfree
  rw [List.append_cons a, consumedWord_append_of_not_consumes _ htrailing,
    consumedWord_append_of_not_consumes_left hleading, consumedWord_cons r.edge,
    consumedWord_of_label_eq_char hr.letter]
  refine ⟨t, h.slides_start hslide, fun s hs => ?_⟩
  obtain ⟨ρ, hρ, hword⟩ := exists_journey_from hfree ha he hs
  refine ⟨ρ ++ r :: σ, hρ.append (.cons hr hσ), ?_, ?_⟩
  · rw [List.map_append, List.map_cons, hword, hletters]
    rfl
  · rw [← hword, List.length_map, List.getElem?_append_right le_rfl, Nat.sub_self,
      List.getElem?_cons_zero]

/-- Words before and behind do not matter. -/
theorem exists_toursVia_of_factors (h : nfa.Repeats body) (hfree : nfa.Anchorless)
    (before after : List (List Char))
    (hword : ∀ u ∈ before ++ after, u ≠ [] ∧ body.accepts u = true)
    (hvia : ∃ t, nfa.ToursVia body v i r t) :
    ∃ t, nfa.ToursVia body (before.flatten ++ v ++ after.flatten)
      (before.flatten.length + i) r t := by
  induction before with
  | nil =>
      rw [List.flatten_nil, List.nil_append, List.length_nil, Nat.zero_add]
      induction after generalizing v with
      | nil =>
          rwa [List.flatten_nil, List.append_nil]
      | cons w after ih =>
          obtain ⟨⟨hne, hw⟩, hafter⟩ := List.forall_mem_cons.mp hword
          obtain ⟨t, hvia⟩ := hvia
          obtain ⟨t', htours⟩ := h.exists_tours hfree hw hne
          rw [List.flatten_cons, ← List.append_assoc]
          exact ih ⟨t', hvia.append htours⟩ hafter
  | cons w before ih =>
      obtain ⟨⟨hne, hw⟩, hbefore⟩ := List.forall_mem_cons.mp hword
      obtain ⟨t, htours⟩ := h.exists_tours hfree hw hne
      obtain ⟨t', hvia⟩ := ih hbefore
      rw [List.flatten_cons, List.append_assoc w, List.append_assoc w, List.length_append,
        Nat.add_assoc]
      exact ⟨t', htours.append_via hvia⟩

/-- Silent runs without a common state are joined by the edge back to the run of a route, which
has no other edges than these. -/
theorem exists_route_back (h : nfa.Repeats body) (hfree : nfa.Anchorless)
    {trailing leading : List Transition} {f : Transition} {p : StateId}
    (htrail : nfa.Walk q trailing body.finish) (htrailing : ∀ t ∈ trailing, t.consumes = false)
    (hhead : nfa.Walk body.start (leading ++ [f]) p)
    (hleading : ∀ t ∈ leading, t.consumes = false) (hf : f.consumes = true)
    (hdisjoint : List.Disjoint (q :: trailing.map Transition.target)
      (body.start :: leading.map Transition.target)) :
    ∃ r, nfa.IsRoute q r ∧ r.edge = f ∧ ⟨body.finish, .epsilon, body.start⟩ ∈ r.run ∧
      r.run ⊆ trailing ++ ⟨body.finish, .epsilon, body.start⟩ :: leading := by
  obtain ⟨m, hlead, hedge⟩ := walk_append_iff.mp hhead
  obtain ⟨rfl, harc, -⟩ := walk_singleton_iff.mp hedge
  obtain ⟨letter, hletter⟩ := label_eq_char_of_consumes hf
  obtain ⟨run, hsub, hrun, hsimple⟩ :=
    htrail.exists_simple_run (htrail.silent hfree htrailing)
  obtain ⟨run', hsub', hrun', hsimple'⟩ :=
    hlead.exists_simple_run (hlead.silent hfree hleading)
  have hback : nfa.Walk body.finish (⟨body.finish, .epsilon, body.start⟩ :: run') f.source :=
    walk_cons_iff.mpr ⟨rfl, h.again, hrun'⟩
  refine ⟨⟨run ++ ⟨body.finish, .epsilon, body.start⟩ :: run', f, letter⟩,
    ⟨hrun.append hback, harc, fun t ht => ?_, hletter, ?_⟩, rfl,
    List.mem_append_right _ List.mem_cons_self,
    List.append_subset.mpr ⟨List.subset_append_of_subset_left _ hsub,
      List.subset_append_of_subset_right _ (List.cons_subset_cons _ hsub')⟩⟩
  · rcases List.mem_append.mp ht with ht | ht
    · exact htrail.silent hfree htrailing t (hsub ht)
    · rcases List.mem_cons.mp ht with rfl | ht
      · rfl
      · exact hlead.silent hfree hleading t (hsub' ht)
  · rw [List.map_append, List.map_cons, ← List.cons_append]
    refine List.nodup_append'.mpr ⟨hsimple, hsimple', fun z hz hz' => ?_⟩
    exact hdisjoint (List.cons_subset_cons _ (List.map_subset _ hsub) hz)
      (List.cons_subset_cons _ (List.map_subset _ hsub') hz')

/-- Severed words are toured with a route along the edge back. -/
theorem exists_toursVia_of_severs (h : nfa.Repeats body) (hfree : nfa.Anchorless)
    (hsevers : body.Severs x y) :
    ∃ r t, nfa.ToursVia body (x ++ y) x.length r t ∧
      ⟨body.finish, .epsilon, body.start⟩ ∈ r.run := by
  obtain ⟨_, _, ⟨a, e, trailing, hx, rfl, he, htrailing, rfl⟩,
    ⟨leading, f, b, hy, rfl, hleading, hf, rfl⟩, hdisjoint⟩ := hsevers
  have hx := hx.of_arc_imp h.inner
  have hy := hy.of_arc_imp h.inner
  rw [List.append_cons] at hx hy
  obtain ⟨q, ha, htrail⟩ := walk_append_iff.mp hx
  obtain ⟨p, hhead, hb⟩ := walk_append_iff.mp hy
  obtain rfl : q = e.target := ha.target_eq
  obtain rfl : p = f.target := hhead.target_eq
  obtain ⟨r, hr, rfl, hback, -⟩ :=
    h.exists_route_back hfree htrail htrailing hhead hleading hf hdisjoint
  obtain ⟨t, hvia⟩ := h.exists_toursVia hfree ha he htrailing hleading hr hb
  exact ⟨r, t, hvia, hback⟩

/-- One word is toured with a route inside the body at every offset within. -/
theorem exists_toursVia_of_accepts (h : nfa.Repeats body) (hfree : nfa.Anchorless)
    (hb : body.Shaped lo hi) (hbody : body.Anchorless) (hx : x ≠ []) (hy : y ≠ [])
    (hxy : body.accepts (x ++ y) = true) :
    ∃ r t, nfa.ToursVia body (x ++ y) x.length r t ∧
      ⟨body.finish, .epsilon, body.start⟩ ∉ r.run := by
  obtain ⟨ts, hts, hword⟩ := (accepts_iff_exists_walk hbody _).mp hxy
  obtain ⟨us, vs, rfl, rfl, rfl⟩ := exists_append_of_consumedWord_eq_append hword
  obtain ⟨a, e, trailing, rfl, he, htrailing⟩ :=
    exists_last_split (exists_consumes_of_consumedWord_ne_nil hx)
  obtain ⟨leading, f, b, rfl, hleading, hf⟩ :=
    exists_first_split (exists_consumes_of_consumedWord_ne_nil hy)
  obtain ⟨m, hus, hvs⟩ := walk_append_iff.mp hts
  rw [List.append_cons] at hus hvs
  obtain ⟨q, ha, htrail⟩ := walk_append_iff.mp hus
  obtain ⟨p, hhead, hrest⟩ := walk_append_iff.mp hvs
  obtain rfl : p = f.target := hhead.target_eq
  have hwalk := htrail.append hhead
  rw [← List.append_assoc] at hwalk
  have hsilent : ∀ t ∈ trailing ++ leading, t.label = .epsilon := fun t ht =>
    label_eq_epsilon_of_anchorFree (hwalk.anchorFree hbody) (List.mem_append_left _ ht)
      ((List.mem_append.mp ht).elim (htrailing t) (hleading t))
  obtain ⟨r, hr, hsub, rfl, -⟩ := (hwalk.of_arc_imp h.inner).exists_route hsilent hf
  obtain ⟨t, hvia⟩ := h.exists_toursVia hfree (ha.of_arc_imp h.inner) he htrailing hleading hr
    (hrest.of_arc_imp h.inner)
  refine ⟨r, t, hvia, fun hmem => ?_⟩
  exact hb.no_arc_from_finish (hwalk.arc _ (List.mem_append_left _ (hsub hmem)))

/-- Two tours of one word with different routes at one offset make a check vulnerable. -/
theorem exists_check_eq_ok_some (h : nfa.Repeats body) (hn : nfa.Shaped lo hi)
    {r' : Route} (hvia : nfa.ToursVia body u i r t) (hvia' : nfa.ToursVia body u i r' t')
    (hne : r ≠ r') : ∃ w, nfa.check { maxSteps := none } = .ok (some w) := by
  obtain ⟨verdict, hverdict⟩ := nfa.exists_check_eq_ok
  cases verdict with
  | some w =>
      exact ⟨w, hverdict⟩
  | none =>
      obtain ⟨α, hα, -, hαr⟩ := hvia.exists_journey nfa.start h.enter
      obtain ⟨ρ, hρ, hletters, hρr⟩ := hvia.exists_journey t hvia.slides
      obtain ⟨σ, hσ, hletters', hσr⟩ := hvia'.exists_journey t hvia.slides
      obtain ⟨τ, hτ, hletters'', -⟩ := hvia.exists_journey t' hvia'.slides
      have hent : t ∈ nfa.entered := by
        cases α with
        | nil =>
            cases hαr
        | cons r₀ α =>
            exact hα.mem_entered_of_reaches .refl
      have hstrand : nfa.CanStrand t := by
        cases ρ with
        | nil =>
            cases hρr
        | cons r₀ ρ =>
            exact (journey_cons_iff.mp hρ).1.canStrand hn
      -- the second journey ends elsewhere, and both return along the first tour
      refine absurd hstrand (not_canStrand_of_check hn hverdict hent (hρ.append hρ)
        (hσ.append hτ) ?_ fun heq => hne ?_)
      · rw [List.map_append, List.map_append, hletters, hletters', hletters'']
      · have hlength := congrArg List.length (hletters.trans hletters'.symm)
        rw [List.length_map, List.length_map] at hlength
        obtain ⟨rfl, -⟩ := List.append_inj heq hlength
        exact Option.some.inj (hρr.symm.trans hσr)

end Repeats

/-- Two factorisations of a text differ in a cut that severs its neighbours: then a
repetition of the body is vulnerable. -/
theorem Repeats.exists_check_of_factors (h : nfa.Repeats body) (hn : nfa.Shaped lo hi)
    (hfree : nfa.Anchorless) {lo' hi' : StateId} (hb : body.Shaped lo' hi')
    (hbody : body.Anchorless) {text : List Char}
    {before after vs : List (List Char)} (hus : body.Factors text (before ++ x :: y :: after))
    (hvs : body.Factors text vs) (hcut : ¬ CutsAt vs (before.flatten.length + x.length))
    (hsevers : body.Severs x y) : ∃ w, nfa.check { maxSteps := none } = .ok (some w) := by
  have hx := List.length_pos_iff.mpr (hus.word x (by simp)).1
  have hy := List.length_pos_iff.mpr (hus.word y (by simp)).1
  have htext : before.flatten ++ (x ++ y) ++ after.flatten = text := by
    rw [← hus.flatten_eq]
    simp
  have hlength : before.flatten.length + x.length < vs.flatten.length := by
    rw [hvs.flatten_eq, ← htext]
    simp only [List.length_append]
    omega
  obtain ⟨before', u, v, after', rfl, hu, hv, hoffset⟩ :=
    exists_straddling hcut (by omega) hlength
  have htext' : before'.flatten ++ (u ++ v) ++ after'.flatten = text := by
    rw [← hvs.flatten_eq]
    simp
  obtain ⟨r, t, hvia, hback⟩ := h.exists_toursVia_of_severs hfree hsevers
  obtain ⟨r', t', hvia', hinside⟩ :=
    h.exists_toursVia_of_accepts hfree hb hbody hu hv (hvs.word _ (by simp)).2
  obtain ⟨t, hvia⟩ := h.exists_toursVia_of_factors hfree before after
    (fun w hw => hus.word w (by simp only [List.mem_append, List.mem_cons] at hw ⊢; tauto))
    ⟨t, hvia⟩
  obtain ⟨t', hvia'⟩ := h.exists_toursVia_of_factors hfree before' after'
    (fun w hw => hvs.word w (by simp only [List.mem_append, List.mem_cons] at hw ⊢; tauto))
    ⟨t', hvia'⟩
  rw [htext] at hvia
  rw [htext', hoffset] at hvia'
  refine h.exists_check_eq_ok_some hn hvia hvia' ?_
  rintro rfl
  exact hinside hback

end Nfa

namespace Compiler

/-- The automaton of a repetition goes back in the automaton of its body. -/
theorem repeats_of_compileTree
    {c c₁ : Compiler} {p q : Pattern} {body : Nfa} (hbody : c.compileTree p = .ok (body, c₁))
    (hq : q = .star p ∨ q = .plus p) :
    ∃ nfa c', c.compileTree q = .ok (nfa, c') ∧ nfa.Repeats body := by
  have hb := built_of_compileTree hbody
  obtain ⟨skip, hframe⟩ := Pattern.exists_frames hq
  obtain ⟨nfa, hwrap, hnfa⟩ := hb.exists_frame hframe
  exact ⟨nfa, _, compileTree_eq_ok hnfa, Nfa.repeats_of_wrap hb.shaped hwrap⟩

/-- A repetition of a tree without anchors is vulnerable if a text has two factorisations
into words of the tree, and one of them has a cut that the other one lacks and at which
the neighbouring words are severed.  They are, unless the tree matches both the empty word
and the two words as one. -/
theorem check_repetition_of_factors
    {c c₁ : Compiler} {p q : Pattern} {body : Nfa} (hp : p.AnchorFree)
    (hbody : c.compileTree p = .ok (body, c₁)) (hq : q = .star p ∨ q = .plus p)
    {text x y : List Char} {before after vs : List (List Char)}
    (hus : body.Factors text (before ++ x :: y :: after)) (hvs : body.Factors text vs)
    (hcut : ¬ CutsAt vs (before.flatten.length + x.length))
    (hsevers : body.accepts [] = false ∨ body.accepts (x ++ y) = false ∨ body.Severs x y) :
    ∃ nfa c', c.compileTree q = .ok (nfa, c') ∧
      ∃ w, nfa.check { maxSteps := none } = .ok (some w) := by
  obtain ⟨nfa, c', hok, hrep⟩ := repeats_of_compileTree hbody hq
  have hqfree : q.AnchorFree := by
    rcases hq with rfl | rfl <;> exact hp
  have hpart : body.Anchorless := hp.label_ne (build_of_compileTree hbody)
  have hwhole : nfa.Anchorless := hqfree.label_ne (build_of_compileTree hok)
  have hcuts : body.Severs x y := by
    obtain ⟨hxne, hx⟩ := hus.word x (by simp)
    obtain ⟨hyne, hy⟩ := hus.word y (by simp)
    rcases hsevers with h | h | h
    · exact Nfa.severs_of_not_accepts hpart hx hxne hy hyne (Or.inl h)
    · exact Nfa.severs_of_not_accepts hpart hx hxne hy hyne (Or.inr h)
    · exact h
  exact ⟨nfa, c', hok, hrep.exists_check_of_factors (shaped_of_compileTree hok) hwhole
    (shaped_of_compileTree hbody) hpart hus hvs hcut hcuts⟩

/-- `aa` is read as one word or as two in `(a|aa)*`. -/
theorem check_repetition_of_one_or_two_letters :
    ∃ nfa c', Compiler.compileTree {} (.star (.group (.either (.literal 'a')
        (.sequence [.literal 'a', .literal 'a'])))) = .ok (nfa, c') ∧
      ∃ w, nfa.check { maxSteps := none } = .ok (some w) := by
  obtain ⟨body, c₁, hbody, -⟩ := exists_compileTree {} (.group (.either (.literal 'a')
    (.sequence [.literal 'a', .literal 'a'])))
  have hwords : ((Compiler.compileTree {} (.group (.either (.literal 'a')
      (.sequence [.literal 'a', .literal 'a'])))).toOption.map fun r =>
        (r.1.accepts [], r.1.accepts ['a'], r.1.accepts ['a', 'a'])) =
      some (false, true, true) := by
    decide +kernel
  rw [hbody] at hwords
  obtain ⟨hempty, hone, htwo⟩ : body.accepts [] = false ∧ body.accepts ['a'] = true ∧
      body.accepts ['a', 'a'] = true := by
    simpa [Except.toOption] using hwords
  have hus : body.Factors ['a', 'a'] ([] ++ ['a'] :: ['a'] :: []) :=
    ⟨rfl, by simp [hone]⟩
  have hvs : body.Factors ['a', 'a'] [['a', 'a']] :=
    ⟨rfl, by simp [htwo]⟩
  exact check_repetition_of_factors (by decide) hbody (Or.inl rfl) hus hvs
    (not_cutsAt_singleton _ _) (Or.inl hempty)

/-- The condition on the cut is needed: `bc` is read as one word or as two in `(b?c?)*`,
which is found not to be vulnerable. -/
theorem not_forall_check_repetition :
    ¬ ∀ (c c₁ : Compiler) (p q : Pattern) (body : Nfa), p.AnchorFree →
      c.compileTree p = .ok (body, c₁) → (q = .star p ∨ q = .plus p) →
      ∀ (text : List Char) (us vs : List (List Char)),
        body.Factors text us → body.Factors text vs → (∃ i, ¬ (CutsAt us i ↔ CutsAt vs i)) →
        ∃ nfa c', c.compileTree q = .ok (nfa, c') ∧
          ∃ w, nfa.check { maxSteps := none } = .ok (some w) := by
  intro hall
  obtain ⟨body, c₁, hbody, -⟩ := exists_compileTree {} (.group (.sequence
    [.optional (.literal 'b'), .optional (.literal 'c')]))
  have hwords : ((Compiler.compileTree {} (.group (.sequence
      [.optional (.literal 'b'), .optional (.literal 'c')]))).toOption.map fun r =>
        (r.1.accepts ['b'], r.1.accepts ['c'], r.1.accepts ['b', 'c'])) =
      some (true, true, true) := by
    decide +kernel
  have hclear : ((Compiler.compileTree {} (.star (.group (.sequence
      [.optional (.literal 'b'), .optional (.literal 'c')])))).toOption.map fun r =>
        (r.1.check { maxSteps := none }).toOption) = some (some none) := by
    decide +kernel
  rw [hbody] at hwords
  obtain ⟨hb, hc, hbc⟩ : body.accepts ['b'] = true ∧ body.accepts ['c'] = true ∧
      body.accepts ['b', 'c'] = true := by
    simpa [Except.toOption] using hwords
  have hcut : ¬ (CutsAt [['b'], ['c']] 1 ↔ CutsAt [['b', 'c']] 1) := fun h =>
    not_cutsAt_singleton _ _
      (h.mp ⟨[['b']], [['c']], rfl, List.cons_ne_nil _ _, List.cons_ne_nil _ _, rfl⟩)
  obtain ⟨nfa, c', hok, w, hw⟩ := hall {} c₁ _ _ body (by decide) hbody (Or.inl rfl)
    ['b', 'c'] [['b'], ['c']] [['b', 'c']] ⟨rfl, by simp [hb, hc]⟩ ⟨rfl, by simp [hbc]⟩ ⟨1, hcut⟩
  rw [hok] at hclear
  simp [Except.toOption, hw] at hclear

end Compiler

end Backtracking
