import Backtracking.Proofs.Closure
import Backtracking.Proofs.Construction
import Backtracking.Search.Path

/-!
# What a pattern matches

`Pattern.Matches` says between which offsets of a word a pattern matches, without any
automaton: characters consume one position, anchors hold at the two ends, a sequence is
a composition of relations and the repetitions are closures.

**Paths.**  `Nfa.Step` is one edge of an automaton crossed over a word.  Each combinator
of the construction is understood by what a path from its start can look like at any of
its states; the invariant is kept by every step.

**Results.**
* `Pattern.traverses_iff_matches`: the paths from the start to the finish of the automaton
  of a pattern are its matches.
* `Nfa.accepts_iff`: carrying a set of states through the word finds the same paths.
* `Compiler.accepts_compileTree_iff`: a compiled tree accepts what the tree matches.
-/

namespace Backtracking

open Relation

namespace Label

theorem cross?_char_iff (c : Char) (word : List Char) (i j : Nat) :
    (char c).cross? word i = some j ↔ word[i]? = some c ∧ j = i + 1 := by
  simp only [cross?]
  split_ifs with h <;> simp [h, eq_comm]

theorem cross?_epsilon_iff (word : List Char) (i j : Nat) :
    epsilon.cross? word i = some j ↔ j = i := by
  simp [cross?, passableAt, eq_comm]

theorem cross?_startAnchor_iff (word : List Char) (i j : Nat) :
    startAnchor.cross? word i = some j ↔ i = 0 ∧ j = 0 := by
  simp only [cross?, passableAt, anchorHolds, beq_iff_eq]
  split_ifs with h
  · simp [h, eq_comm]
  · simp [h]

theorem cross?_endAnchor_iff (word : List Char) (i j : Nat) :
    endAnchor.cross? word i = some j ↔ i = word.length ∧ j = word.length := by
  simp only [cross?, passableAt, anchorHolds, beq_iff_eq]
  split_ifs with h
  · simp [h, eq_comm]
  · simp [h]

end Label

namespace Pattern

/-- Where a literal matches: `^` and `$` hold at one end, any other character is the
character that it consumes. -/
def MatchesLiteral (word : List Char) (c : Char) (i j : Nat) : Prop :=
  if c = '^' then i = 0 ∧ j = 0
  else if c = '$' then i = word.length ∧ j = word.length
  else word[i]? = some c ∧ j = i + 1

/-- The pattern matches the word from the offset `i` to the offset `j`. -/
def Matches (word : List Char) : Pattern → Nat → Nat → Prop
  | empty => fun i j => i = j
  | literal c => MatchesLiteral word c
  | oneOf members => fun i j =>
      members = [] ∧ i = j ∨ ∃ c ∈ members, MatchesLiteral word c i j
  | sequence items => matchesAll items
  | either left right => fun i j => left.Matches word i j ∨ right.Matches word i j
  | star body => ReflTransGen (body.Matches word)
  | plus body => TransGen (body.Matches word)
  | optional body => ReflGen (body.Matches word)
  | group body => body.Matches word
where
  matchesAll : List Pattern → Nat → Nat → Prop
    | [] => fun i j => i = j
    | item :: items => Comp (item.Matches word) (matchesAll items)

/-- The edge of a literal is crossed where the literal matches. -/
theorem cross?_ofPatternChar_iff (word : List Char) (c : Char) (i j : Nat) :
    (Label.ofPatternChar c).cross? word i = some j ↔ MatchesLiteral word c i j := by
  rw [Label.ofPatternChar, MatchesLiteral]
  split_ifs
  · exact Label.cross?_startAnchor_iff word i j
  · exact Label.cross?_endAnchor_iff word i j
  · exact Label.cross?_char_iff c word i j

end Pattern

namespace Nfa

/-- One edge of the automaton, crossed over a word. -/
def Step (nfa : Nfa) (word : List Char) (c d : Configuration) : Prop :=
  ∃ l, nfa.Arc c.state l d.state ∧ l.cross? word c.offset = some d.offset

/-- The moves of a search are the steps. -/
theorem mem_moves_iff (nfa : Nfa) (word : List Char) (c d : Configuration) :
    d ∈ nfa.moves word c ↔ nfa.Step word c d := by
  simp only [moves, Step, Arc, List.mem_filterMap, Option.map_eq_some_iff]
  constructor
  · rintro ⟨⟨l, t⟩, he, o, ho, rfl⟩
    exact ⟨l, he, ho⟩
  · rintro ⟨l, he, ho⟩
    exact ⟨⟨l, d.state⟩, he, d.offset, ho, rfl⟩

/-- A path leads from the start at offset `i` to the finish at offset `j`. -/
def Traverses (nfa : Nfa) (word : List Char) (i j : Nat) : Prop :=
  ReflTransGen (nfa.Step word) ⟨nfa.start, i⟩ ⟨nfa.finish, j⟩

/-- Edges of a part are edges of the whole. -/
theorem leads_of_arc_imp
    {part nfa : Nfa} (harc : ∀ {s l t}, part.Arc s l t → nfa.Arc s l t)
    {word : List Char} {c d : Configuration}
    (path : ReflTransGen (part.Step word) c d) : ReflTransGen (nfa.Step word) c d := by
  refine ReflTransGen.mono (fun a b => ?_) c d path
  rintro ⟨l, hl, hcross⟩
  exact ⟨l, harc hl, hcross⟩

/-- A silent edge is a step that keeps the offset. -/
theorem step_of_silent
    {nfa : Nfa} {s t : StateId} (harc : nfa.Arc s .epsilon t) (word : List Char) (i : Nat) :
    nfa.Step word ⟨s, i⟩ ⟨t, i⟩ :=
  ⟨.epsilon, harc, (Label.cross?_epsilon_iff word i i).mpr rfl⟩

variable {lo mid hi : StateId} {word : List Char} {i j : Nat}
variable {nfa first second left right body : Nfa}

theorem traverses_atom_iff
    {label : Label} {next : StateId} (hok : Nfa.atom label next = .ok nfa) :
    nfa.Traverses word i j ↔ label.cross? word i = some j := by
  obtain ⟨hstart, hfinish, -, harc⟩ := atom_eq_ok hok
  rw [Traverses, hstart, hfinish]
  constructor
  · intro path
    have inv : ∀ d : Configuration, ReflTransGen (nfa.Step word) ⟨next, i⟩ d →
        d = ⟨next, i⟩ ∨ d.state = next + 1 ∧ label.cross? word i = some d.offset := by
      intro d path
      induction path with
      | refl =>
          exact Or.inl rfl
      | tail _ hstep ih =>
          rcases hstep with ⟨l, hl, hcross⟩
          obtain ⟨hs, rfl, ht⟩ := harc.mp hl
          rcases ih with rfl | ⟨hs', -⟩
          · exact Or.inr ⟨ht, hcross⟩
          · lia
    rcases inv _ path with h | ⟨-, h⟩
    · have := congrArg Configuration.state h
      simp at this
    · exact h
  · intro hcross
    exact .single ⟨label, harc.mpr ⟨rfl, rfl, rfl⟩, hcross⟩

/-- Where a path can be that entered a chain at the offset `i`. -/
inductive ChainPoint
    (first second : Nfa) (word : List Char) (i : Nat) (d : Configuration) : Prop
  | inFirst
      (hown : first.Owns d.state)
      (path : ReflTransGen (first.Step word) ⟨first.start, i⟩ d)
  | inSecond
      {m : Nat} (hown : second.Owns d.state) (hfirst : first.Traverses word i m)
      (path : ReflTransGen (second.Step word) ⟨second.start, m⟩ d)

theorem ChainPoint.step
    {c d : Configuration} (hf : first.Shaped lo mid) (hs : second.Shaped mid hi)
    (hrow : ∀ s, nfa.graph.row s = first.chainRow second s)
    (hc : ChainPoint first second word i c) (hstep : nfa.Step word c d) :
    ChainPoint first second word i d := by
  rcases hstep with ⟨l, hl, hcross⟩
  rcases (arc_chain_iff hrow).mp hl with hl | hl | ⟨hcs, rfl, hds⟩
  · cases hc with
    | inFirst _ path =>
        exact .inFirst (hf.inside hl).2 (path.tail ⟨l, hl, hcross⟩)
    | inSecond hown _ _ =>
        exact absurd hown (hf.apart hs (hf.inside hl).1)
  · cases hc with
    | inFirst hown _ =>
        exact absurd (hs.inside hl).1 (hf.apart hs hown)
    | inSecond _ hfirst path =>
        exact .inSecond (hs.inside hl).2 hfirst (path.tail ⟨l, hl, hcross⟩)
  · cases hc with
    | inFirst _ path =>
        rw [Label.cross?_epsilon_iff] at hcross
        have hfirst : first.Traverses word i c.offset := by
          rw [Traverses, ← hcs]
          exact path
        refine .inSecond (hds ▸ hs.start_owned) hfirst ?_
        rw [← hds, ← hcross]
    | inSecond hown _ _ =>
        exact absurd (hcs ▸ hown) (hf.apart hs hf.finish_owned)

theorem chainPoint_of_path
    {d : Configuration} (hf : first.Shaped lo mid) (hs : second.Shaped mid hi)
    (hrow : ∀ s, nfa.graph.row s = first.chainRow second s)
    (path : ReflTransGen (nfa.Step word) ⟨first.start, i⟩ d) :
    ChainPoint first second word i d := by
  induction path with
  | refl =>
      exact .inFirst hf.start_owned .refl
  | tail _ hstep ih =>
      exact ih.step hf hs hrow hstep

/-- A path through a chain goes through the first part and then through the second. -/
theorem traverses_chain_iff
    (hf : first.Shaped lo mid) (hs : second.Shaped mid hi)
    (hok : first.chain second = .ok nfa) :
    nfa.Traverses word i j ↔ Comp (first.Traverses word) (second.Traverses word) i j := by
  obtain ⟨nfa', hok', hstart, hfinish, -, hrow⟩ :=
    exists_chain hf.finish_owned hs.start_owned
  obtain rfl := Except.ok.inj (hok.symm.trans hok')
  have harc : ∀ {s l t}, nfa.Arc s l t ↔ _ := arc_chain_iff hrow
  rw [Traverses, hstart, hfinish]
  constructor
  · intro path
    cases chainPoint_of_path hf hs hrow path with
    | inFirst hown _ =>
        exact absurd hs.finish_owned (hf.apart hs hown)
    | inSecond _ hfirst path =>
        exact ⟨_, hfirst, path⟩
  · rintro ⟨m, hm, hm'⟩
    exact (leads_of_arc_imp (fun h => harc.mpr (Or.inl h)) hm).trans
      (.head (step_of_silent (harc.mpr (Or.inr (Or.inr ⟨rfl, rfl, rfl⟩))) word m)
        (leads_of_arc_imp (fun h => harc.mpr (Or.inr (Or.inl h))) hm'))

/-- Where a path can be that entered the frame of two automata at the offset `i`. -/
inductive BranchPoint
    (left right : Nfa) (next : StateId) (word : List Char) (i : Nat) (d : Configuration) :
    Prop
  | entered (hd : d = ⟨next, i⟩)
  | inLeft
      (hown : left.Owns d.state)
      (path : ReflTransGen (left.Step word) ⟨left.start, i⟩ d)
  | inRight
      (hown : right.Owns d.state)
      (path : ReflTransGen (right.Step word) ⟨right.start, i⟩ d)
  | passed
      (hd : d.state = next + 1)
      (h : left.Traverses word i d.offset ∨ right.Traverses word i d.offset)

/-- On the finish of the left part a path has gone through it. -/
theorem BranchPoint.traverses_left
    {c : Configuration} (hl : left.Shaped lo mid) (hr : right.Shaped mid hi)
    (hc : BranchPoint left right hi word i c) (hcs : c.state = left.finish) :
    left.Traverses word i c.offset := by
  obtain ⟨hn, hn'⟩ := hl.not_owns_frame_pair hr left (by simp)
  cases hc with
  | entered hd =>
      subst hd
      exact absurd hl.finish_owned (hcs ▸ hn)
  | inLeft _ path =>
      rw [Traverses, ← hcs]
      exact path
  | inRight hown _ =>
      exact absurd (hcs ▸ hown) (hl.apart hr hl.finish_owned)
  | passed hd _ =>
      exact absurd hl.finish_owned (hcs ▸ hd ▸ hn')

/-- On the finish of the right part a path has gone through it. -/
theorem BranchPoint.traverses_right
    {c : Configuration} (hl : left.Shaped lo mid) (hr : right.Shaped mid hi)
    (hc : BranchPoint left right hi word i c) (hcs : c.state = right.finish) :
    right.Traverses word i c.offset := by
  obtain ⟨hn, hn'⟩ := hl.not_owns_frame_pair hr right (by simp)
  cases hc with
  | entered hd =>
      subst hd
      exact absurd hr.finish_owned (hcs ▸ hn)
  | inLeft hown _ =>
      exact absurd hr.finish_owned (hl.apart hr (hcs ▸ hown))
  | inRight _ path =>
      rw [Traverses, ← hcs]
      exact path
  | passed hd _ =>
      exact absurd hr.finish_owned (hcs ▸ hd ▸ hn')

theorem BranchPoint.step
    {c d : Configuration} (hl : left.Shaped lo mid) (hr : right.Shaped mid hi)
    (hrow : ∀ s, nfa.graph.row s = left.branchRow right hi s)
    (hc : BranchPoint left right hi word i c) (hstep : nfa.Step word c d) :
    BranchPoint left right hi word i d := by
  obtain ⟨hnl, hnl'⟩ := hl.not_owns_frame_pair hr left (by simp)
  obtain ⟨hnr, hnr'⟩ := hl.not_owns_frame_pair hr right (by simp)
  rcases hstep with ⟨l, harc, hcross⟩
  rcases (arc_branch_iff hrow).mp harc with harc | harc | ⟨rfl, ⟨hcs, hds⟩ | ⟨hcs, hds⟩⟩
  · have hown := hl.inside harc
    cases hc with
    | entered hd =>
        subst hd
        exact absurd hown.1 hnl
    | inLeft _ path =>
        exact .inLeft hown.2 (path.tail ⟨l, harc, hcross⟩)
    | inRight hown' _ =>
        exact absurd hown' (hl.apart hr hown.1)
    | passed hd _ =>
        exact absurd hown.1 (hd ▸ hnl')
  · have hown := hr.inside harc
    cases hc with
    | entered hd =>
        subst hd
        exact absurd hown.1 hnr
    | inLeft hown' _ =>
        exact absurd hown.1 (hl.apart hr hown')
    | inRight _ path =>
        exact .inRight hown.2 (path.tail ⟨l, harc, hcross⟩)
    | passed hd _ =>
        exact absurd hown.1 (hd ▸ hnr')
  · rw [Label.cross?_epsilon_iff] at hcross
    cases hc with
    | entered hd =>
        rw [hd] at hcross
        have hd' : d = ⟨d.state, i⟩ := congrArg (Configuration.mk d.state) hcross
        rcases hds with hds | hds
        · exact .inLeft (hds ▸ hl.start_owned) (by rw [hd', hds])
        · exact .inRight (hds ▸ hr.start_owned) (by rw [hd', hds])
    | inLeft hown _ =>
        exact absurd (hcs ▸ hown) hnl
    | inRight hown _ =>
        exact absurd (hcs ▸ hown) hnr
    | passed hd _ =>
        lia
  · rw [Label.cross?_epsilon_iff] at hcross
    refine .passed hds ?_
    rw [hcross]
    rcases hcs with hcs | hcs
    · exact Or.inl (hc.traverses_left hl hr hcs)
    · exact Or.inr (hc.traverses_right hl hr hcs)

theorem branchPoint_of_path
    {d : Configuration} (hl : left.Shaped lo mid) (hr : right.Shaped mid hi)
    (hrow : ∀ s, nfa.graph.row s = left.branchRow right hi s)
    (path : ReflTransGen (nfa.Step word) ⟨hi, i⟩ d) :
    BranchPoint left right hi word i d := by
  induction path with
  | refl =>
      exact .entered rfl
  | tail _ hstep ih =>
      exact ih.step hl hr hrow hstep

/-- A path through two automata in a frame goes through one of them. -/
theorem traverses_branch_iff
    (hl : left.Shaped lo mid) (hr : right.Shaped mid hi)
    (hok : left.branch right hi = .ok nfa) :
    nfa.Traverses word i j ↔ left.Traverses word i j ∨ right.Traverses word i j := by
  obtain ⟨nfa', hok', hstart, hfinish, -, hrow⟩ :=
    exists_branch hl.start_owned hl.finish_owned hr.start_owned hr.finish_owned hi
  obtain rfl := Except.ok.inj (hok.symm.trans hok')
  have harc : ∀ {s l t}, nfa.Arc s l t ↔ _ := arc_branch_iff hrow
  rw [Traverses, hstart, hfinish]
  constructor
  · intro path
    cases branchPoint_of_path hl hr hrow path with
    | entered hd =>
        have hstate := congrArg Configuration.state hd
        simp at hstate
    | inLeft hown _ =>
        exact absurd hown (hl.not_owns_frame_pair hr left (by simp)).2
    | inRight hown _ =>
        exact absurd hown (hl.not_owns_frame_pair hr right (by simp)).2
    | passed _ h =>
        exact h
  · rintro (h | h)
    · exact .head
        (step_of_silent (harc.mpr (Or.inr (Or.inr ⟨rfl, Or.inl ⟨rfl, Or.inl rfl⟩⟩))) word i)
        ((leads_of_arc_imp (fun h => harc.mpr (Or.inl h)) h).tail
          (step_of_silent (harc.mpr (Or.inr (Or.inr ⟨rfl, Or.inr ⟨Or.inl rfl, rfl⟩⟩))) word j))
    · exact .head
        (step_of_silent (harc.mpr (Or.inr (Or.inr ⟨rfl, Or.inl ⟨rfl, Or.inr rfl⟩⟩))) word i)
        ((leads_of_arc_imp (fun h => harc.mpr (Or.inr (Or.inl h))) h).tail
          (step_of_silent (harc.mpr (Or.inr (Or.inr ⟨rfl, Or.inr ⟨Or.inr rfl, rfl⟩⟩))) word j))

/-- The ways to the start of a framed body: at once, or after a number of rounds. -/
def Arrives (body : Nfa) (again : Bool) (word : List Char) (i m : Nat) : Prop :=
  i = m ∨ again = true ∧ ReflTransGen (body.Traverses word) i m

/-- The ways to the finish of a frame around a body: past it, or through it once more
after any number of rounds. -/
def Rounds (body : Nfa) (skip again : Bool) (word : List Char) (i j : Nat) : Prop :=
  skip = true ∧ i = j ∨ ∃ m, Arrives body again word i m ∧ body.Traverses word m j

theorem arrives_again_iff {m : Nat} :
    Arrives body true word i m ↔ ReflTransGen (body.Traverses word) i m := by
  rw [Arrives, eq_self_iff_true, true_and]
  refine ⟨?_, Or.inr⟩
  rintro (rfl | h)
  · exact .refl
  · exact h

theorem arrives_once_iff {m : Nat} : Arrives body false word i m ↔ i = m := by
  simp [Arrives]

/-- Where a path can be that entered the frame of a body at the offset `i`. -/
inductive WrapPoint
    (body : Nfa) (next : StateId) (skip again : Bool) (word : List Char) (i : Nat)
    (d : Configuration) : Prop
  | entered (hd : d = ⟨next, i⟩)
  | inBody
      {m : Nat} (hown : body.Owns d.state) (hm : Arrives body again word i m)
      (path : ReflTransGen (body.Step word) ⟨body.start, m⟩ d)
  | passed (hd : d.state = next + 1) (h : Rounds body skip again word i d.offset)

/-- On the finish of the body a path has gone through it. -/
theorem WrapPoint.exists_traverses
    {skip again : Bool} {c : Configuration} (hb : body.Shaped lo hi)
    (hc : WrapPoint body hi skip again word i c) (hcs : c.state = body.finish) :
    ∃ m, Arrives body again word i m ∧ body.Traverses word m c.offset := by
  obtain ⟨hn, hn'⟩ := hb.not_owns_frame
  cases hc with
  | entered hd =>
      subst hd
      exact absurd hb.finish_owned (hcs ▸ hn)
  | @inBody m _ hm path =>
      refine ⟨m, hm, ?_⟩
      rw [Traverses, ← hcs]
      exact path
  | passed hd _ =>
      exact absurd hb.finish_owned (hcs ▸ hd ▸ hn')

theorem WrapPoint.step
    {skip again : Bool} {c d : Configuration} (hb : body.Shaped lo hi)
    (hrow : ∀ s, nfa.graph.row s = body.wrapRow hi skip again s)
    (hc : WrapPoint body hi skip again word i c) (hstep : nfa.Step word c d) :
    WrapPoint body hi skip again word i d := by
  obtain ⟨hn, hn'⟩ := hb.not_owns_frame
  rcases hstep with ⟨l, harc, hcross⟩
  rcases (arc_wrap_iff hrow).mp harc with harc | ⟨rfl, ⟨hcs, hds⟩ | ⟨hcs, hds⟩⟩
  · have hown := hb.inside harc
    cases hc with
    | entered hd =>
        subst hd
        exact absurd hown.1 hn
    | inBody _ hm path =>
        exact .inBody hown.2 hm (path.tail ⟨l, harc, hcross⟩)
    | passed hd _ =>
        exact absurd hown.1 (hd ▸ hn')
  · rw [Label.cross?_epsilon_iff] at hcross
    cases hc with
    | entered hd =>
        rw [hd] at hcross
        rcases hds with hds | ⟨hskip, hds⟩
        · have hd' : d = ⟨body.start, i⟩ := hds ▸ congrArg (Configuration.mk d.state) hcross
          exact .inBody (hds ▸ hb.start_owned) (Or.inl rfl) (hd' ▸ .refl)
        · exact .passed hds (Or.inl ⟨hskip, hcross.symm⟩)
    | inBody hown _ _ =>
        exact absurd (hcs ▸ hown) hn
    | passed hd _ =>
        lia
  · rw [Label.cross?_epsilon_iff] at hcross
    obtain ⟨m, hm, hround⟩ := hc.exists_traverses hb hcs
    rcases hds with hds | ⟨rfl, hds⟩
    · exact .passed hds (Or.inr ⟨m, hm, hcross ▸ hround⟩)
    · have hd' : d = ⟨body.start, c.offset⟩ := hds ▸ congrArg (Configuration.mk d.state) hcross
      rw [arrives_again_iff] at hm
      exact .inBody (hds ▸ hb.start_owned) (arrives_again_iff.mpr (hm.tail hround))
        (hd' ▸ .refl)

theorem wrapPoint_of_path
    {skip again : Bool} {d : Configuration} (hb : body.Shaped lo hi)
    (hrow : ∀ s, nfa.graph.row s = body.wrapRow hi skip again s)
    (path : ReflTransGen (nfa.Step word) ⟨hi, i⟩ d) :
    WrapPoint body hi skip again word i d := by
  induction path with
  | refl =>
      exact .entered rfl
  | tail _ hstep ih =>
      exact ih.step hb hrow hstep

/-- A path through a framed automaton passes it by or goes round in it. -/
theorem traverses_wrap_iff
    {skip again : Bool} (hb : body.Shaped lo hi)
    (hok : body.wrap hi skip again = .ok nfa) :
    nfa.Traverses word i j ↔ Rounds body skip again word i j := by
  obtain ⟨nfa', hok', hstart, hfinish, -, hrow⟩ :=
    exists_wrap hb.start_owned hb.finish_owned hi skip again
  obtain rfl := Except.ok.inj (hok.symm.trans hok')
  have harc : ∀ {s l t}, nfa.Arc s l t ↔ _ := arc_wrap_iff hrow
  rw [Traverses, hstart, hfinish]
  constructor
  · intro path
    cases wrapPoint_of_path hb hrow path with
    | entered hd =>
        have hstate := congrArg Configuration.state hd
        simp at hstate
    | inBody hown _ _ =>
        exact absurd hown hb.not_owns_frame.2
    | passed _ h =>
        exact h
  · have hbody : ∀ {m k}, body.Traverses word m k →
        ReflTransGen (nfa.Step word) ⟨body.start, m⟩ ⟨body.finish, k⟩ :=
      fun h => leads_of_arc_imp (fun h => harc.mpr (Or.inl h)) h
    rintro (⟨hskip, rfl⟩ | ⟨m, hm, hlast⟩)
    · exact .single (step_of_silent
        (harc.mpr (Or.inr ⟨rfl, Or.inl ⟨rfl, Or.inr ⟨hskip, rfl⟩⟩⟩)) word i)
    · have henter : ReflTransGen (nfa.Step word) ⟨hi, i⟩ ⟨body.start, m⟩ := by
        refine .head (step_of_silent
          (harc.mpr (Or.inr ⟨rfl, Or.inl ⟨rfl, Or.inl rfl⟩⟩)) word i) ?_
        rcases hm with rfl | ⟨hagain, hm⟩
        · exact .refl
        · clear hlast
          induction hm with
          | refl =>
              exact .refl
          | @tail m k _ hround ih =>
              exact (ih.trans (hbody hround)).tail (step_of_silent
                (harc.mpr (Or.inr ⟨rfl, Or.inr ⟨rfl, Or.inr ⟨hagain, rfl⟩⟩⟩)) word k)
      exact (henter.trans (hbody hlast)).tail (step_of_silent
        (harc.mpr (Or.inr ⟨rfl, Or.inr ⟨rfl, Or.inl rfl⟩⟩)) word j)

end Nfa

namespace Pattern

open Nfa

variable {word : List Char} {i j : Nat}

/-- Going round in a frame is a closure of the relation of the body. -/
theorem rounds_star_iff (body : Nfa) :
    Rounds body true true word i j ↔ ReflTransGen (body.Traverses word) i j := by
  rw [ReflTransGen.cases_tail_iff, Rounds]
  simp only [true_and, arrives_again_iff, eq_comm]

theorem rounds_plus_iff (body : Nfa) :
    Rounds body false true word i j ↔ TransGen (body.Traverses word) i j := by
  rw [TransGen.tail'_iff, Rounds]
  simp only [Bool.false_eq_true, false_and, false_or, arrives_again_iff]

theorem rounds_optional_iff (body : Nfa) :
    Rounds body true false word i j ↔ ReflGen (body.Traverses word) i j := by
  rw [reflGen_iff, Rounds]
  simp [arrives_once_iff, eq_comm]

/-- Trees that are built alike match alike. -/
theorem BuiltAs.matches_eq {p q : Pattern} (h : p.BuiltAs q) :
    p.Matches word = q.Matches word := by
  cases h with
  | noItem | group _ =>
      rfl
  | noMember | member _ =>
      funext i j
      simp [Matches]
  | members hne c =>
      funext i j
      simp [Matches, hne, or_and_right, exists_or]
  | item _ =>
      rw [Matches, Matches.matchesAll, Matches.matchesAll]
      exact comp_eq

theorem matchesAll_append (items : List Pattern) (p : Pattern) :
    Matches.matchesAll word (items ++ [p]) =
      Comp (Matches.matchesAll word items) (p.Matches word) := by
  induction items with
  | nil =>
      rw [List.nil_append, Matches.matchesAll, Matches.matchesAll]
      exact comp_eq.trans eq_comp.symm
  | cons item items ih =>
      rw [List.cons_append, Matches.matchesAll, ih, Matches.matchesAll, comp_assoc]

/-- What a repetition matches is what its frame lets through. -/
theorem Frames.rounds_eq {p body : Pattern} {skip again : Bool} {part : Nfa}
    (h : p.Frames body skip again) (hpart : part.Traverses word = body.Matches word) :
    Rounds part skip again word = p.Matches word := by
  funext i j
  cases h with
  | star _ =>
      rw [rounds_star_iff, hpart, Matches]
  | plus _ =>
      rw [rounds_plus_iff, hpart, Matches]
  | optional _ =>
      rw [rounds_optional_iff, hpart, Matches]

/-- The paths through the automaton of a pattern are the matches of the pattern. -/
theorem Built.traverses_eq {p : Pattern} {lo hi : StateId} {nfa : Nfa} (h : p.Built lo hi nfa) :
    nfa.Traverses word = p.Matches word := by
  induction h with
  | empty hok =>
      funext i j
      rw [traverses_atom_iff hok, Label.cross?_epsilon_iff, Matches]
      exact propext eq_comm
  | literal hok =>
      funext i j
      rw [traverses_atom_iff hok, cross?_ofPatternChar_iff, Matches]
  | same hsame _ ih =>
      rw [ih, hsame.matches_eq]
  | items _ hitems hp hok ihitems ihp =>
      funext i j
      rw [traverses_chain_iff hitems.shaped hp.shaped hok, ihitems, ihp, Matches, Matches,
        matchesAll_append]
  | either hp hq hok ihp ihq =>
      funext i j
      rw [traverses_branch_iff hp.shaped hq.shaped hok, ihp, ihq, Matches]
  | frame hframe hbody hok ih =>
      funext i j
      rw [traverses_wrap_iff hbody.shaped hok, hframe.rounds_eq ih]

theorem traverses_iff_matches (p : Pattern) {next hi : StateId} {nfa : Nfa}
    (hok : p.build next = .ok (nfa, hi)) (i j : Nat) :
    nfa.Traverses word i j ↔ p.Matches word i j := by
  rw [(built_iff.mpr hok).traverses_eq]

end Pattern

namespace Nfa

variable {nfa : Nfa} {word : List Char}

/-- A step consumes the character at the offset or stays at the offset. -/
theorem step_iff (c d : Configuration) :
    nfa.Step word c d ↔
      (∃ a, nfa.Arc c.state (.char a) d.state ∧
        word[c.offset]? = some a ∧ d.offset = c.offset + 1) ∨
      nfa.graph.Link (fun l => l.passableAt c.offset word.length) c.state d.state ∧
        d.offset = c.offset := by
  constructor
  · rintro ⟨l, hl, hcross⟩
    cases l with
    | char a =>
        exact Or.inl ⟨a, hl, (Label.cross?_char_iff a word _ _).mp hcross⟩
    | _ =>
        simp only [Label.cross?] at hcross
        split_ifs at hcross with hpass
        exact Or.inr ⟨⟨_, hl, hpass, rfl⟩, (Option.some.inj hcross).symm⟩
  · rintro (⟨a, ha, hcross⟩ | ⟨⟨⟨l, t⟩, hl, hpass, rfl⟩, hoff⟩)
    · exact ⟨.char a, ha, (Label.cross?_char_iff a word _ _).mpr hcross⟩
    · refine ⟨l, hl, ?_⟩
      cases l with
      | char a =>
          cases hpass
      | _ =>
          simp only [Label.cross?]
          rw [if_pos hpass, hoff]

/-- What can be reached for free at one offset is reached by steps at that offset. -/
theorem leads_of_free
    {s t : StateId} {o : Nat}
    (path : ReflTransGen
      (nfa.graph.Link fun l => l.passableAt o word.length) s t) :
    ReflTransGen (nfa.Step word) ⟨s, o⟩ ⟨t, o⟩ := by
  induction path with
  | refl =>
      exact .refl
  | tail _ hlink ih =>
      exact ih.tail ((step_iff _ _).mpr (Or.inr ⟨hlink, rfl⟩))

/-- Offsets do not fall along a path. -/
theorem offset_le_of_leads
    {c d : Configuration} (path : ReflTransGen (nfa.Step word) c d) :
    c.offset ≤ d.offset := by
  induction path with
  | refl =>
      exact le_rfl
  | tail _ hstep ih =>
      rcases (step_iff _ _).mp hstep with ⟨a, -, -, hoff⟩ | ⟨-, hoff⟩ <;> omega

/-- A path that stays at its offset uses free edges only. -/
theorem leads_same_iff (s t : StateId) (o : Nat) :
    ReflTransGen (nfa.Step word) ⟨s, o⟩ ⟨t, o⟩ ↔
      ReflTransGen (nfa.graph.Link fun l => l.passableAt o word.length) s t := by
  refine ⟨fun path => ?_, leads_of_free⟩
  have inv : ∀ d : Configuration, ReflTransGen (nfa.Step word) ⟨s, o⟩ d → d.offset = o →
      ReflTransGen (nfa.graph.Link fun l => l.passableAt o word.length) s d.state := by
    intro d path
    induction path with
    | refl =>
        exact fun _ => .refl
    | @tail c d path hstep ih =>
        intro hd
        have hle : o ≤ c.offset := offset_le_of_leads path
        rcases (step_iff _ _).mp hstep with ⟨a, -, -, hoff⟩ | ⟨hlink, hoff⟩
        · omega
        · have hc : c.offset = o := by omega
          rw [hc] at hlink
          exact (ih hc).tail hlink
  exact inv _ path rfl

/-- A path to the next offset consumes one character and goes on for free. -/
theorem leads_succ_iff
    {c : Configuration} {o : Nat} (hle : c.offset ≤ o) (t : StateId) :
    ReflTransGen (nfa.Step word) c ⟨t, o + 1⟩ ↔
      ∃ s a r, ReflTransGen (nfa.Step word) c ⟨s, o⟩ ∧ word[o]? = some a ∧
        nfa.Arc s (.char a) r ∧
        ReflTransGen (nfa.graph.Link fun l => l.passableAt (o + 1) word.length) r t := by
  constructor
  · intro path
    have inv : ∀ d : Configuration, ReflTransGen (nfa.Step word) c d → d.offset = o + 1 →
        ∃ s a r, ReflTransGen (nfa.Step word) c ⟨s, o⟩ ∧ word[o]? = some a ∧
          nfa.Arc s (.char a) r ∧
          ReflTransGen (nfa.graph.Link fun l => l.passableAt (o + 1) word.length)
            r d.state := by
      intro d path
      induction path with
      | refl =>
          intro hd
          omega
      | @tail b d path hstep ih =>
          intro hd
          rcases (step_iff _ _).mp hstep with ⟨a, ha, hat, hoff⟩ | ⟨hlink, hoff⟩
          · have hb : b.offset = o := by omega
            refine ⟨b.state, a, d.state, ?_, hb ▸ hat, ha, .refl⟩
            rw [← hb]
            exact path
          · have hb : b.offset = o + 1 := by omega
            obtain ⟨s, a, r, hs, hat, ha, hfree⟩ := ih hb
            rw [hb] at hlink
            exact ⟨s, a, r, hs, hat, ha, hfree.tail hlink⟩
    exact inv _ path rfl
  · rintro ⟨s, a, r, hs, hat, ha, hfree⟩
    exact (hs.tail ((step_iff ⟨s, o⟩ ⟨r, o + 1⟩).mpr (Or.inl ⟨a, ha, hat, rfl⟩))).trans
      (leads_of_free hfree)

theorem mem_stepTargets_iff (states : List StateId) (on : Label) (t : StateId) :
    t ∈ nfa.stepTargets states on ↔ ∃ s ∈ states, nfa.Arc s on t := by
  simp only [stepTargets, List.mem_flatMap, Graph.mem_targets_iff, Graph.Link, beq_iff_eq, Arc]
  refine exists_congr fun s => and_congr_right fun _ => ⟨?_, fun h => ⟨_, h, rfl, rfl⟩⟩
  rintro ⟨⟨l, r⟩, he, rfl, rfl⟩
  exact he

/-- The set carried through the word holds the states that paths lead to. -/
theorem mem_consume_iff
    {c : Configuration} (rest : List Char) {o : Nat} {current : StateSet}
    (hrest : word.drop o = rest) (hle : c.offset ≤ o)
    (hcur : ∀ s, s ∈ current ↔ ReflTransGen (nfa.Step word) c ⟨s, o⟩) (t : StateId) :
    t ∈ nfa.consume word.length o current rest ↔
      ReflTransGen (nfa.Step word) c ⟨t, o + rest.length⟩ := by
  induction rest generalizing o current with
  | nil =>
      exact hcur t
  | cons a rest ih =>
      have hat : word[o]? = some a := by
        rw [← List.head?_drop, hrest, List.head?_cons]
      have hdrop : word.drop (o + 1) = rest := by
        rw [← List.tail_drop, hrest, List.tail_cons]
      rw [consume_cons, ih hdrop (Nat.le_succ_of_le hle), List.length_cons, Nat.add_right_comm,
        Nat.add_assoc]
      intro s
      rw [mem_settle_iff, leads_succ_iff hle]
      simp only [mem_stepTargets_iff, Std.ExtTreeSet.mem_toList, hcur]
      constructor
      · rintro ⟨r, ⟨q, hq, harc⟩, hfree⟩
        exact ⟨q, a, r, hq, hat, harc, hfree⟩
      · rintro ⟨q, b, r, hq, hb, harc, hfree⟩
        obtain rfl : a = b := Option.some.inj (hat.symm.trans hb)
        exact ⟨r, ⟨q, hq, harc⟩, hfree⟩

/-- Acceptance is a path from the start to the finish over the whole word. -/
theorem accepts_iff (nfa : Nfa) (word : List Char) :
    nfa.accepts word = true ↔ nfa.Traverses word 0 word.length := by
  rw [accepts, Std.ExtTreeSet.contains_iff_mem,
    mem_consume_iff (c := ⟨nfa.start, 0⟩) word List.drop_zero le_rfl, Nat.zero_add, Traverses]
  intro s
  rw [mem_settle_iff, leads_same_iff]
  simp

end Nfa

/-- The automaton of a tree accepts the words that the tree matches from end to end. -/
theorem Pattern.accepts_iff_matches {p : Pattern} {next hi : StateId} {nfa : Nfa}
    (hok : p.build next = .ok (nfa, hi)) (word : List Char) :
    nfa.accepts word = true ↔ p.Matches word 0 word.length := by
  rw [Nfa.accepts_iff, traverses_iff_matches p hok]

end Backtracking
