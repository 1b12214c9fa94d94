import Backtracking.Proofs.Language

/-!
# What the construction keeps

The construction asks for the numbers that are free and for the characters of the tree.  From
other numbers and for a tree with other characters it takes the same steps.  So a relation between
automata that every step keeps holds between the two automata in the end.

**Results.**
* `Nfa.Kept`: a relation that every step of the construction keeps.
* `Nfa.Kept.exists_build`: it holds between the automata of the two trees.
-/

namespace Backtracking

namespace Pattern

/-- The tree with other characters. -/
def relabel (f : Char → Char) : Pattern → Pattern
  | empty => empty
  | literal c => literal (f c)
  | .oneOf members => oneOf (members.map f)
  | sequence items => sequence (relabelAll items)
  | either left right => either (left.relabel f) (right.relabel f)
  | star body => star (body.relabel f)
  | plus body => plus (body.relabel f)
  | optional body => optional (body.relabel f)
  | group body => group (body.relabel f)
where
  relabelAll : List Pattern → List Pattern
    | [] => []
    | item :: items => item.relabel f :: relabelAll items

mutual

theorem relabel_id : ∀ p : Pattern, p.relabel id = p
  | empty | literal _ => rfl
  | .oneOf members => by rw [relabel, List.map_id]
  | sequence items => by rw [relabel, relabelAll_id items]
  | either left right => by rw [relabel, relabel_id left, relabel_id right]
  | star body | plus body | optional body | group body => by rw [relabel, relabel_id body]

theorem relabelAll_id : ∀ items : List Pattern, relabel.relabelAll id items = items
  | [] => rfl
  | item :: items => by rw [relabel.relabelAll, relabel_id item, relabelAll_id items]

end

theorem relabelAll_eq_nil_iff {f : Char → Char} {items : List Pattern} :
    relabel.relabelAll f items = [] ↔ items = [] := by
  cases items <;> simp [relabel.relabelAll]

theorem relabelAll_append (f : Char → Char) (items : List Pattern) (p : Pattern) :
    relabel.relabelAll f (items ++ [p]) = relabel.relabelAll f items ++ [p.relabel f] := by
  induction items with
  | nil =>
      rfl
  | cons item items ih =>
      rw [List.cons_append, relabel.relabelAll, ih, relabel.relabelAll, List.cons_append]

variable {p q body : Pattern} {skip again : Bool}

theorem BuiltAs.relabel (h : p.BuiltAs q) (f : Char → Char) :
    (p.relabel f).BuiltAs (q.relabel f) := by
  cases h with
  | noMember =>
      exact .noMember
  | member c =>
      exact .member (f c)
  | members hne c =>
      simp only [Pattern.relabel, List.map_append, List.map_singleton]
      exact .members (mt List.map_eq_nil_iff.mp hne) (f c)
  | noItem =>
      exact .noItem
  | item _ =>
      exact .item _
  | group _ =>
      exact .group _

theorem Frames.relabel (h : p.Frames body skip again) (f : Char → Char) :
    (p.relabel f).Frames (body.relabel f) skip again := by
  cases h with
  | star _ =>
      exact .star _
  | plus _ =>
      exact .plus _
  | optional _ =>
      exact .optional _

end Pattern

namespace Nfa

/-- A relation that every step of the construction keeps, if numbers are higher by `k` and
characters are changed by `f`. -/
structure Kept (k : Nat) (f : Char → Char) (R : Nfa → Nfa → Prop) : Prop where
  epsilon : ∀ {next nfa}, atom .epsilon next = .ok nfa →
    ∃ nfa', atom .epsilon (k + next) = .ok nfa' ∧ R nfa nfa'
  character : ∀ {c next nfa}, atom (.ofPatternChar c) next = .ok nfa →
    ∃ nfa', atom (.ofPatternChar (f c)) (k + next) = .ok nfa' ∧ R nfa nfa'
  chain : ∀ {lo mid hi first second first' second' nfa}, Fragment lo mid first →
    Fragment mid hi second → R first first' → R second second' → first.chain second = .ok nfa →
      ∃ nfa', first'.chain second' = .ok nfa' ∧ R nfa nfa'
  branch : ∀ {lo mid hi left right left' right' nfa}, Fragment lo mid left →
    Fragment mid hi right → R left left' → R right right' → left.branch right hi = .ok nfa →
      ∃ nfa', left'.branch right' (k + hi) = .ok nfa' ∧ R nfa nfa'
  wrap : ∀ {lo hi skip again body body' nfa}, Fragment lo hi body → R body body' →
    body.wrap hi skip again = .ok nfa →
      ∃ nfa', body'.wrap (k + hi) skip again = .ok nfa' ∧ R nfa nfa'

namespace Kept

open Pattern

variable {k : Nat} {f : Char → Char} {R : Nfa → Nfa → Prop}
theorem exists_built (h : Kept k f R) {p : Pattern} {lo hi : StateId} {nfa : Nfa}
    (hp : p.Built lo hi nfa) : ∃ nfa', (p.relabel f).Built (k + lo) (k + hi) nfa' ∧ R nfa nfa' := by
  induction hp with
  | empty hok =>
      obtain ⟨nfa', hok', hrel⟩ := h.epsilon hok
      exact ⟨nfa', .empty hok', hrel⟩
  | literal hok =>
      obtain ⟨nfa', hok', hrel⟩ := h.character hok
      exact ⟨nfa', .literal hok', hrel⟩
  | same hsame _ ih =>
      obtain ⟨nfa', hbuilt, hrel⟩ := ih
      exact ⟨nfa', .same (hsame.relabel f) hbuilt, hrel⟩
  | items hne hitems hp hok ihitems ihp =>
      obtain ⟨first', hfirst, hfirstrel⟩ := ihitems
      obtain ⟨last', hlast, hlastrel⟩ := ihp
      obtain ⟨nfa', hok', hrel⟩ := h.chain hitems.fragment hp.fragment hfirstrel hlastrel hok
      refine ⟨nfa', ?_, hrel⟩
      rw [relabel, relabelAll_append]
      refine .items ?_ hfirst hlast hok'
      rwa [Ne, relabelAll_eq_nil_iff]
  | either hp hq hok ihp ihq =>
      obtain ⟨left', hleft, hleftrel⟩ := ihp
      obtain ⟨right', hright, hrightrel⟩ := ihq
      obtain ⟨nfa', hok', hrel⟩ := h.branch hp.fragment hq.fragment hleftrel hrightrel hok
      exact ⟨nfa', .either hleft hright hok', hrel⟩
  | frame hframe hbody hok ih =>
      obtain ⟨part', hpart, hpartrel⟩ := ih
      obtain ⟨nfa', hok', hrel⟩ := h.wrap hbody.fragment hpartrel hok
      exact ⟨nfa', .frame (hframe.relabel f) hpart hok', hrel⟩

/-- The relation holds between the automata of a tree and of the tree with other characters. -/
theorem exists_build (h : Kept k f R) (p : Pattern) {next hi : StateId} {nfa : Nfa}
    (hok : p.build next = .ok (nfa, hi)) :
    ∃ nfa', (p.relabel f).build (k + next) = .ok (nfa', k + hi) ∧ R nfa nfa' := by
  obtain ⟨nfa', hbuilt, hrel⟩ := h.exists_built (built_iff.mpr hok)
  exact ⟨nfa', hbuilt.build_eq_ok, hrel⟩

end Kept

end Nfa

end Backtracking
