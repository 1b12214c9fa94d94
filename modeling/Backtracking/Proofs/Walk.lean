import Backtracking.Proofs.Closure
import Backtracking.Proofs.Fragment

/-!
# Walks

A walk is a list of transitions of an automaton, each of which goes on where the one
before it ends.  Nothing is said about a text yet: a walk says which characters it
consumes, not where they stand.

**Runs.**  Between two consecutive consumed characters a walk crosses a run of edges that
consume nothing.  `RunsSimple` says that no state is visited twice in such a run.  Two
overlapping walks whose runs are simple make a longer one, if something is consumed where
they overlap (`RunsSimple.append_of_overlap`).
-/

namespace Backtracking

open Relation

/-- Whether crossing the transition consumes a character. -/
def Transition.consumes (t : Transition) : Bool :=
  t.label.consumed?.isSome

@[simp] theorem consumedWord_nil : consumedWord [] = [] := rfl

@[simp] theorem consumedWord_append (ts us : List Transition) :
    consumedWord (ts ++ us) = consumedWord ts ++ consumedWord us :=
  List.filterMap_append

theorem consumedWord_cons (t : Transition) (ts : List Transition) :
    consumedWord (t :: ts) = consumedWord [t] ++ consumedWord ts :=
  consumedWord_append [t] ts

theorem consumedWord_eq_nil_iff (ts : List Transition) :
    consumedWord ts = [] ↔ ∀ t ∈ ts, t.consumes = false := by
  simp [consumedWord, Transition.consumes]

theorem exists_consumes_of_consumedWord_ne_nil
    {ts : List Transition} (h : consumedWord ts ≠ []) :
    ∃ t ∈ ts, t.consumes = true := by
  rw [Ne, consumedWord_eq_nil_iff] at h
  simpa using h

theorem label_eq_char_of_consumes
    {t : Transition} (h : t.consumes = true) : ∃ a, t.label = .char a := by
  rw [Transition.consumes] at h
  cases hl : t.label with
  | char a =>
      exact ⟨a, rfl⟩
  | _ =>
      simp [hl, Label.consumed?] at h

theorem consumes_of_label_eq_char
    {t : Transition} {a : Char} (h : t.label = .char a) : t.consumes = true := by
  rw [Transition.consumes, h]
  rfl

theorem not_consumes_of_label_eq
    {t : Transition} {l : Label} (h : t.label = l) (hl : l.consumed? = none) :
    t.consumes = false := by
  rw [Transition.consumes, h, hl]
  rfl

theorem consumedWord_of_label_eq_char
    {t : Transition} {a : Char} (h : t.label = .char a) : consumedWord [t] = [a] := by
  simp [consumedWord, h, Label.consumed?]

theorem consumedWord_of_not_consumes
    {t : Transition} (h : t.consumes = false) : consumedWord [t] = [] :=
  (consumedWord_eq_nil_iff [t]).mpr (by simpa using h)

namespace Nfa

/-- The transitions lead from one state to another. -/
inductive Walk (nfa : Nfa) : StateId → List Transition → StateId → Prop
  | nil (s : StateId) : nfa.Walk s [] s
  | cons
      {t : Transition} {ts : List Transition} {q : StateId}
      (ht : nfa.Arc t.source t.label t.target) (rest : nfa.Walk t.target ts q) :
      nfa.Walk t.source (t :: ts) q

theorem walk_nil_iff {nfa : Nfa} {s q : StateId} : nfa.Walk s [] q ↔ s = q := by
  constructor
  · rintro ⟨⟩
    rfl
  · rintro rfl
    exact .nil s

theorem walk_cons_iff
    {nfa : Nfa} {s q : StateId} {t : Transition} {ts : List Transition} :
    nfa.Walk s (t :: ts) q ↔
      s = t.source ∧ nfa.Arc t.source t.label t.target ∧ nfa.Walk t.target ts q := by
  constructor
  · rintro (_ | ⟨ht, rest⟩)
    exact ⟨rfl, ht, rest⟩
  · rintro ⟨rfl, ht, rest⟩
    exact .cons ht rest

theorem walk_append_iff
    {nfa : Nfa} {s q : StateId} {ts us : List Transition} :
    nfa.Walk s (ts ++ us) q ↔ ∃ m, nfa.Walk s ts m ∧ nfa.Walk m us q := by
  induction ts generalizing s with
  | nil =>
      simp [walk_nil_iff]
  | cons t ts ih =>
      rw [List.cons_append, walk_cons_iff, ih]
      simp only [walk_cons_iff]
      constructor
      · rintro ⟨rfl, ht, m, h, h'⟩
        exact ⟨m, ⟨rfl, ht, h⟩, h'⟩
      · rintro ⟨m, ⟨rfl, ht, h⟩, h'⟩
        exact ⟨rfl, ht, m, h, h'⟩

theorem Walk.append
    {nfa : Nfa} {s m q : StateId} {ts us : List Transition}
    (h : nfa.Walk s ts m) (h' : nfa.Walk m us q) : nfa.Walk s (ts ++ us) q :=
  walk_append_iff.mpr ⟨m, h, h'⟩

theorem walk_singleton_iff
    {nfa : Nfa} {s q : StateId} {t : Transition} :
    nfa.Walk s [t] q ↔ s = t.source ∧ nfa.Arc t.source t.label t.target ∧ q = t.target := by
  rw [walk_cons_iff, walk_nil_iff, eq_comm (a := t.target)]

theorem Walk.arc
    {nfa : Nfa} {s q : StateId} {ts : List Transition} (h : nfa.Walk s ts q) :
    ∀ t ∈ ts, nfa.Arc t.source t.label t.target := by
  induction h with
  | nil =>
      simp
  | cons ht _ ih =>
      exact List.forall_mem_cons.mpr ⟨ht, ih⟩

/-- A walk with edges begins in the automaton. -/
theorem Walk.owns_source
    {nfa : Nfa} {lo hi : StateId} (hn : nfa.Shaped lo hi) {s q : StateId}
    {ts : List Transition} (h : nfa.Walk s ts q) (hne : ts ≠ []) : nfa.Owns s := by
  cases h with
  | nil =>
      exact absurd rfl hne
  | cons ht _ =>
      exact (hn.inside ht).1

/-- Walks do not leave the automaton. -/
theorem Walk.owns
    {nfa : Nfa} {lo hi : StateId} (hn : nfa.Shaped lo hi) {s q : StateId}
    {ts : List Transition} (h : nfa.Walk s ts q) (hs : nfa.Owns s) : nfa.Owns q := by
  induction h with
  | nil =>
      exact hs
  | cons ht _ ih =>
      exact ih (hn.inside ht).2

/-- The state `t` can be reached from `s` along any edges. -/
def Reaches (nfa : Nfa) (s t : StateId) : Prop :=
  ReflTransGen (fun a b => ∃ l, nfa.Arc a l b) s t

/-- The state `t` can be reached from `s` along epsilon edges. -/
def Slides (nfa : Nfa) (s t : StateId) : Prop :=
  ReflTransGen (fun a b => nfa.Arc a .epsilon b) s t

theorem Walk.reaches
    {nfa : Nfa} {s q : StateId} {ts : List Transition} (h : nfa.Walk s ts q) :
    nfa.Reaches s q := by
  induction h with
  | nil =>
      exact .refl
  | cons ht _ ih =>
      exact .head ⟨_, ht⟩ ih

theorem exists_walk_of_reaches
    {nfa : Nfa} {s q : StateId} (h : nfa.Reaches s q) : ∃ ts, nfa.Walk s ts q := by
  induction h with
  | refl =>
      exact ⟨[], .nil s⟩
  | @tail m q _ hstep ih =>
      rcases ih with ⟨ts, hts⟩
      rcases hstep with ⟨l, hl⟩
      exact ⟨ts ++ [⟨m, l, q⟩], hts.append (walk_singleton_iff.mpr ⟨rfl, hl, rfl⟩)⟩

theorem mem_reachable_iff_reaches (nfa : Nfa) (s t : StateId) :
    t ∈ nfa.reachable s ↔ nfa.Reaches s t := by
  rw [mem_reachable_iff, Reaches]
  congr! 3 with a b
  constructor
  · rintro ⟨e, he, -, rfl⟩
    exact ⟨e.label, he⟩
  · rintro ⟨l, hl⟩
    exact ⟨_, hl, rfl, rfl⟩

theorem link_epsilon_iff (nfa : Nfa) (s t : StateId) :
    nfa.graph.Link (fun l => l == .epsilon) s t ↔ nfa.Arc s .epsilon t := by
  constructor
  · rintro ⟨⟨l, r⟩, he, hl, rfl⟩
    exact eq_of_beq hl ▸ he
  · intro h
    exact ⟨_, h, rfl, rfl⟩

theorem mem_epsilonReachable_iff_slides (nfa : Nfa) (states : List StateId) (t : StateId) :
    t ∈ nfa.epsilonReachable states ↔ ∃ s ∈ states, nfa.Slides s t := by
  have hlink : (nfa.graph.Link fun l => l == .epsilon) = fun a b => nfa.Arc a .epsilon b :=
    funext₂ fun a b => propext (nfa.link_epsilon_iff a b)
  rw [mem_epsilonReachable_iff, hlink]
  rfl

theorem mem_epsilonReachable_singleton_iff (nfa : Nfa) (s t : StateId) :
    t ∈ nfa.epsilonReachable [s] ↔ nfa.Slides s t := by
  rw [mem_epsilonReachable_iff_slides]
  simp only [List.mem_singleton, exists_eq_left]

/-- Epsilon edges do not leave the automaton. -/
theorem Slides.owns
    {nfa : Nfa} {lo hi : StateId} (hn : nfa.Shaped lo hi) {s t : StateId}
    (h : nfa.Slides s t) (hs : nfa.Owns s) : nfa.Owns t := by
  induction h with
  | refl =>
      exact hs
  | tail _ harc _ =>
      exact (hn.inside harc).2

end Nfa

section Runs

/-- Where a list is cut at the first element that passes a test, it is cut in one way. -/
theorem append_cons_inj_of_first
    {α : Type} {p : α → Bool} {a a' b b' : List α} {x x' : α}
    (ha : ∀ y ∈ a, p y = false) (ha' : ∀ y ∈ a', p y = false)
    (hx : p x = true) (hx' : p x' = true)
    (h : a ++ x :: b = a' ++ x' :: b') : a = a' ∧ x = x' ∧ b = b' := by
  induction a generalizing a' with
  | nil =>
      cases a' with
      | nil =>
          obtain ⟨rfl, rfl⟩ := List.cons.inj h
          exact ⟨rfl, rfl, rfl⟩
      | cons y a' =>
          obtain ⟨rfl, -⟩ := List.cons.inj h
          exact absurd ((ha' x List.mem_cons_self).symm.trans hx) Bool.noConfusion
  | cons z a ih =>
      cases a' with
      | nil =>
          obtain ⟨rfl, -⟩ := List.cons.inj h
          exact absurd ((ha z List.mem_cons_self).symm.trans hx') Bool.noConfusion
      | cons y a' =>
          rw [List.cons_append, List.cons_append, List.cons.injEq] at h
          rcases h with ⟨rfl, h⟩
          obtain ⟨rfl, rest⟩ := ih (fun y hy => ha y (List.mem_cons_of_mem _ hy))
            (fun y hy => ha' y (List.mem_cons_of_mem _ hy)) h
          exact ⟨rfl, rest⟩

/-- An element that passes the test is the first one that does, or stands behind it. -/
theorem eq_or_exists_of_append_cons
    {α : Type} {p : α → Bool} {a b before after : List α} {x y : α}
    (ha : ∀ z ∈ a, p z = false) (hy : p y = true)
    (h : a ++ x :: b = before ++ y :: after) :
    (before = a ∧ y = x ∧ after = b) ∨
      ∃ between, before = a ++ x :: between ∧ b = between ++ y :: after := by
  induction a generalizing before with
  | nil =>
      cases before with
      | nil =>
          obtain ⟨rfl, rfl⟩ := List.cons.inj h
          exact Or.inl ⟨rfl, rfl, rfl⟩
      | cons z before =>
          obtain ⟨rfl, rfl⟩ := List.cons.inj h
          exact Or.inr ⟨before, rfl, rfl⟩
  | cons w a ih =>
      cases before with
      | nil =>
          obtain ⟨rfl, -⟩ := List.cons.inj h
          exact absurd ((ha w List.mem_cons_self).symm.trans hy) Bool.noConfusion
      | cons z before =>
          rw [List.cons_append, List.cons_append, List.cons.injEq] at h
          rcases h with ⟨rfl, h⟩
          rcases ih (fun z hz => ha z (List.mem_cons_of_mem _ hz)) h with
            ⟨rfl, rest⟩ | ⟨between, rfl, rest⟩
          · exact Or.inl ⟨rfl, rest⟩
          · exact Or.inr ⟨between, rfl, rest⟩

/-- A list with an element that passes a test is cut at the first one. -/
theorem exists_first_split
    {α : Type} {p : α → Bool} {l : List α} (h : ∃ x ∈ l, p x = true) :
    ∃ a x b, l = a ++ x :: b ∧ (∀ y ∈ a, p y = false) ∧ p x = true := by
  obtain ⟨x, a, b, ha, hx, hl, -⟩ := List.exists_of_eraseP h.choose_spec.1 h.choose_spec.2
  exact ⟨a, x, b, hl, fun y hy => Bool.not_eq_true _ ▸ ha y hy, hx⟩

/-- A list with an element that passes a test is cut at the last one. -/
theorem exists_last_split
    {α : Type} {p : α → Bool} {l : List α} (h : ∃ x ∈ l, p x = true) :
    ∃ a x b, l = a ++ x :: b ∧ p x = true ∧ ∀ y ∈ b, p y = false := by
  obtain ⟨a, x, b, hl, ha, hx⟩ := exists_first_split (p := p) (l := l.reverse)
    (h.imp fun x hx => ⟨List.mem_reverse.mpr hx.1, hx.2⟩)
  refine ⟨b.reverse, x, a.reverse, ?_, hx, fun y hy => ha y (List.mem_reverse.mp hy)⟩
  rw [← List.reverse_reverse l, hl]
  simp

/-- No state is visited twice between two consecutive consumed characters. -/
def RunsSimple (ts : List Transition) : Prop :=
  ∀ before opening run closing after,
    ts = before ++ opening :: (run ++ closing :: after) →
    opening.consumes = true → (∀ t ∈ run, t.consumes = false) → closing.consumes = true →
    (opening.target :: run.map Transition.target).Nodup

theorem RunsSimple.of_append_append
    (us : List Transition) {ts : List Transition} (vs : List Transition)
    (h : RunsSimple (us ++ ts ++ vs)) : RunsSimple ts := by
  rintro before opening run closing after rfl ho hrun hc
  refine h (us ++ before) opening run closing (after ++ vs) ?_ ho hrun hc
  simp

/-- Walks whose runs are simple fit together where they overlap in a consumed character:
no run reaches across it. -/
theorem RunsSimple.append_of_overlap
    {us ts vs : List Transition} (hover : consumedWord ts ≠ [])
    (hleft : RunsSimple (us ++ ts)) (hright : RunsSimple (ts ++ vs)) :
    RunsSimple (us ++ ts ++ vs) := by
  intro before opening run closing after heq ho hrun hc
  obtain ⟨z, hz, hzc⟩ := exists_consumes_of_consumedWord_ne_nil hover
  obtain ⟨ts₁, ts₂, rfl⟩ := List.append_of_mem hz
  have heq' : (us ++ ts₁) ++ z :: (ts₂ ++ vs) =
      before ++ opening :: (run ++ closing :: after) := by
    rw [← heq]
    simp
  rcases List.append_eq_append_iff.mp heq' with ⟨rest, rfl, hrest⟩ | ⟨rest, hrest, htail⟩
  · -- the run opens at the consumed character of the overlap or behind it
    refine hright (ts₁ ++ rest) opening run closing after ?_ ho hrun hc
    rw [List.append_assoc ts₁ rest, ← hrest]
    simp
  · cases rest with
    | nil =>
        refine hright ts₁ opening run closing after ?_ ho hrun hc
        rw [List.nil_append] at htail
        rw [htail]
        simp
    | cons o rest =>
        rw [List.cons_append, List.cons.injEq] at htail
        rcases htail with ⟨rfl, htail⟩
        -- it opens before it, and so it closes there or earlier
        rcases eq_or_exists_of_append_cons hrun hzc htail with
          ⟨rfl, rfl, hafter⟩ | ⟨between, rfl, hafter⟩
        · refine hleft before opening rest z ts₂ ?_ ho hrun hc
          rw [← List.append_assoc, hrest]
          simp
        · refine hleft before opening run closing (between ++ z :: ts₂) ?_ ho hrun hc
          rw [← List.append_assoc, hrest]
          simp

end Runs

end Backtracking
