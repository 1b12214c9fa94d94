import Backtracking.Proofs.Language

/-!
# Where the labels of an automaton come from

Every label of the automaton of a pattern other than epsilon is that of a character of the
pattern.  So a pattern without anchors has an automaton without them.
-/

namespace Backtracking
namespace Pattern

/-- The characters of a pattern, those that stand for anchors included. -/
def literals : Pattern → List Char
  | empty => []
  | literal c => [c]
  | oneOf members => members
  | sequence items => literalsAll items
  | either left right => left.literals ++ right.literals
  | star body | plus body | optional body | group body => body.literals
where
  literalsAll : List Pattern → List Char
    | [] => []
    | item :: items => item.literals ++ literalsAll items

/-- No character of the pattern stands for an anchor. -/
def AnchorFree (p : Pattern) : Prop :=
  ∀ c ∈ p.literals, c ≠ '^' ∧ c ≠ '$'

-- the characters of the pattern are tried, and not all characters there are
instance (p : Pattern) : Decidable p.AnchorFree :=
  List.decidableBAll (fun c => c ≠ '^' ∧ c ≠ '$') p.literals

end Pattern

namespace Nfa

/-- The labels of the automaton come from some characters. -/
def LabelsFrom (nfa : Nfa) (chars : List Char) : Prop :=
  ∀ s l t, nfa.Arc s l t → l = .epsilon ∨ ∃ c ∈ chars, l = .ofPatternChar c

variable {lo mid hi : StateId} {nfa first second left right body : Nfa}
variable {chars chars' : List Char}

theorem LabelsFrom.mono (h : nfa.LabelsFrom chars) (hsub : chars ⊆ chars') :
    nfa.LabelsFrom chars' := by
  intro s l t ht
  exact (h s l t ht).imp id fun ⟨c, hc, hl⟩ => ⟨c, hsub hc, hl⟩

theorem labelsFrom_epsilon {next : StateId} (hok : Nfa.atom .epsilon next = .ok nfa) :
    nfa.LabelsFrom [] := by
  obtain ⟨-, -, -, harc⟩ := atom_eq_ok hok
  intro s l t ht
  exact Or.inl (harc.mp ht).2.1

theorem labelsFrom_literal
    {c : Char} {next : StateId} (hok : Nfa.atom (.ofPatternChar c) next = .ok nfa) :
    nfa.LabelsFrom [c] := by
  obtain ⟨-, -, -, harc⟩ := atom_eq_ok hok
  intro s l t ht
  exact Or.inr ⟨c, List.mem_singleton.mpr rfl, (harc.mp ht).2.1⟩

theorem LabelsFrom.chain
    (hf : first.Shaped lo mid) (hs : second.Shaped mid hi)
    (hok : first.chain second = .ok nfa)
    (h : first.LabelsFrom chars) (h' : second.LabelsFrom chars') :
    nfa.LabelsFrom (chars ++ chars') := by
  obtain ⟨-, -, -, harc⟩ := hf.chain_eq_ok hs hok
  intro s l t ht
  rcases harc.mp ht with ht | ht | ⟨-, hl, -⟩
  · exact h.mono (List.subset_append_left _ _) s l t ht
  · exact h'.mono (List.subset_append_right _ _) s l t ht
  · exact Or.inl hl

theorem LabelsFrom.branch
    (hl : left.Shaped lo mid) (hr : right.Shaped mid hi)
    (hok : left.branch right hi = .ok nfa)
    (h : left.LabelsFrom chars) (h' : right.LabelsFrom chars') :
    nfa.LabelsFrom (chars ++ chars') := by
  obtain ⟨-, -, -, harc⟩ := hl.branch_eq_ok hr hok
  intro s l t ht
  rcases harc.mp ht with ht | ht | ⟨heps, -⟩
  · exact h.mono (List.subset_append_left _ _) s l t ht
  · exact h'.mono (List.subset_append_right _ _) s l t ht
  · exact Or.inl heps

theorem LabelsFrom.wrap
    {skip again : Bool} (hb : body.Shaped lo hi)
    (hok : body.wrap hi skip again = .ok nfa) (h : body.LabelsFrom chars) :
    nfa.LabelsFrom chars := by
  obtain ⟨-, -, -, harc⟩ := hb.wrap_eq_ok hok
  intro s l t ht
  rcases harc.mp ht with ht | ⟨heps, -⟩
  · exact h s l t ht
  · exact Or.inl heps

end Nfa

namespace Pattern

open Nfa

variable {p q body : Pattern} {skip again : Bool}

theorem literalsAll_append (items : List Pattern) (p : Pattern) :
    literals.literalsAll (items ++ [p]) = literals.literalsAll items ++ p.literals := by
  induction items with
  | nil =>
      exact List.append_nil _
  | cons item items ih =>
      rw [List.cons_append, literals.literalsAll, ih, literals.literalsAll, List.append_assoc]

theorem BuiltAs.literals_eq (h : p.BuiltAs q) : p.literals = q.literals := by
  cases h with
  | noMember | member _ | members _ _ | noItem | group _ =>
      rfl
  | item _ =>
      exact List.append_nil _

theorem Frames.literals_eq (h : p.Frames body skip again) : p.literals = body.literals := by
  cases h <;> rfl

/-- The labels of the automaton of a pattern come from its characters. -/
theorem Built.labelsFrom {lo hi : StateId} {nfa : Nfa} (h : p.Built lo hi nfa) :
    nfa.LabelsFrom p.literals := by
  induction h with
  | empty hok =>
      exact labelsFrom_epsilon hok
  | literal hok =>
      exact labelsFrom_literal hok
  | same hsame _ ih =>
      rwa [hsame.literals_eq]
  | items _ hitems hp hok ihitems ihp =>
      rw [literals, literalsAll_append]
      exact ihitems.chain hitems.shaped hp.shaped hok ihp
  | either hp hq hok ihp ihq =>
      exact ihp.branch hp.shaped hq.shaped hok ihq
  | frame hframe hbody hok ih =>
      rw [hframe.literals_eq]
      exact ih.wrap hbody.shaped hok

/-- A pattern without anchors has an automaton without anchors. -/
theorem AnchorFree.label_ne
    {p : Pattern} (hp : p.AnchorFree) {next hi : StateId} {nfa : Nfa}
    (hok : p.build next = .ok (nfa, hi)) {s t : StateId} {l : Label} (ht : nfa.Arc s l t) :
    l ≠ .startAnchor ∧ l ≠ .endAnchor := by
  rcases (built_iff.mpr hok).labelsFrom s l t ht with rfl | ⟨c, hc, rfl⟩
  · simp
  · obtain ⟨hstart, hend⟩ := hp c hc
    rw [Label.ofPatternChar, if_neg hstart, if_neg hend]
    simp

end Pattern

end Backtracking
