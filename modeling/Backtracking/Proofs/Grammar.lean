import Backtracking.Proofs.OnePass
import Mathlib.Tactic

/-!
# The grammar of patterns

The trees that a pattern text can be read as, by four rules that refer to each other: an
expression is made of sequences, a sequence of items, an item of an atom under
repetitions, and an atom may be a group around an expression.

**Reading.**  The reader holds the parts of a tree that is not finished yet.  Written out
from the outermost open group to the newest item they are the text that has been read so
far, and every part obeys its rule (`Reader.Holds`).  Each step reads one character more.

**Results.**
* `Pattern.Reader.Holds.step`: what one character adds.
* `Pattern.text_eq_and_isExpression_of_parse`: a text that is read is the text of its
  tree, and the tree obeys the grammar.
-/

namespace Backtracking
namespace Pattern

/-- The characters that stand for no literal outside a class. -/
def operators : List Char :=
  ['(', ')', '[', '\\', '*', '+', '?', '|']

mutual

/-- Sequences as alternatives, grouped to the right. -/
inductive IsExpression : Pattern → Prop
  | sequence {p : Pattern} (h : p.IsSequence) : IsExpression p
  | either {left right : Pattern} (hl : left.IsSequence) (hr : right.IsExpression) :
      IsExpression (.either left right)

/-- Any number of items, where less than two are not put together. -/
inductive IsSequence : Pattern → Prop
  | empty : IsSequence .empty
  | item {p : Pattern} (h : p.IsItem) : IsSequence p
  | items {items : List Pattern} (hlen : 2 ≤ items.length) (h : ∀ p ∈ items, p.IsItem) :
      IsSequence (.sequence items)

/-- An atom under any number of repetitions. -/
inductive IsItem : Pattern → Prop
  | atom {p : Pattern} (h : p.IsAtom) : IsItem p
  | star {body : Pattern} (h : body.IsItem) : IsItem (.star body)
  | plus {body : Pattern} (h : body.IsItem) : IsItem (.plus body)
  | optional {body : Pattern} (h : body.IsItem) : IsItem (.optional body)

/-- A literal, a class or a group. -/
inductive IsAtom : Pattern → Prop
  | literal {c : Char} (h : c ∉ operators) : IsAtom (.literal c)
  | oneOf {members : List Char} (hne : members ≠ [])
      (h : ∀ c ∈ members, c ≠ ']' ∧ c ≠ '\\') : IsAtom (.oneOf members)
  | group {body : Pattern} (h : body.IsExpression) : IsAtom (.group body)

end

theorem textAll_eq (items : List Pattern) : text.textAll items = items.flatMap text := by
  induction items with
  | nil =>
      rfl
  | cons item items ih =>
      rw [text.textAll, ih, List.flatMap_cons]

theorem text_ofItems (items : List Pattern) : (ofItems items).text = items.flatMap text := by
  match items with
  | [] =>
      rfl
  | [item] =>
      exact (List.flatMap_singleton _ _).symm
  | item :: second :: rest =>
      rw [ofItems, text, textAll_eq]
      · exact List.cons_ne_nil _ _
      · intro p hp
        cases (List.cons.inj hp).2

theorem isSequence_ofItems {items : List Pattern} (h : ∀ p ∈ items, p.IsItem) :
    (ofItems items).IsSequence := by
  match items with
  | [] =>
      exact .empty
  | [item] =>
      exact .item (h item List.mem_cons_self)
  | item :: second :: rest =>
      exact .items (Nat.le_add_left 2 rest.length) h

namespace Draft

/-- The part of an expression as it is written: its finished alternatives, each with a bar
behind it, and the items behind the last bar. -/
def text (d : Draft) : List Char :=
  (d.branches.reverse.flatMap fun branch => branch.text ++ ['|']) ++
    d.items.reverse.flatMap Pattern.text

/-- The finished alternatives are sequences, and what is being read consists of items. -/
structure Regular (d : Draft) : Prop where
  branches : ∀ branch ∈ d.branches, branch.IsSequence
  items : ∀ item ∈ d.items, item.IsItem

variable {d d' : Draft} {item : Pattern}

theorem regular_empty : Regular {} :=
  ⟨fun _ h => absurd h List.not_mem_nil, fun _ h => absurd h List.not_mem_nil⟩

theorem text_add (d : Draft) (item : Pattern) : (d.add item).text = d.text ++ item.text := by
  simp [add, text]

theorem Regular.add (h : d.Regular) (hitem : item.IsItem) : (d.add item).Regular :=
  ⟨h.branches, List.forall_mem_cons.mpr ⟨hitem, h.items⟩⟩

theorem text_bar (d : Draft) : d.bar.text = d.text ++ ['|'] := by
  simp [bar, text, text_ofItems]

theorem Regular.isSequence (h : d.Regular) : (ofItems d.items.reverse).IsSequence :=
  isSequence_ofItems fun p hp => h.items p (List.mem_reverse.mp hp)

theorem Regular.bar (h : d.Regular) : d.bar.Regular :=
  ⟨List.forall_mem_cons.mpr ⟨h.isSequence, h.branches⟩, fun _ hp => absurd hp List.not_mem_nil⟩

/-- Alternatives in front of an expression are written in front of it. -/
theorem text_foldl_either (branches : List Pattern) (right : Pattern) :
    (branches.foldl (fun right left => either left right) right).text =
      (branches.reverse.flatMap fun branch => branch.text ++ ['|']) ++ right.text := by
  induction branches generalizing right with
  | nil =>
      rfl
  | cons branch branches ih =>
      rw [List.foldl_cons, ih, Pattern.text]
      simp

theorem text_close (d : Draft) : d.close.text = d.text := by
  rw [close, text_foldl_either, text_ofItems, text]

theorem isExpression_foldl_either
    {branches : List Pattern} (h : ∀ branch ∈ branches, branch.IsSequence)
    {right : Pattern} (hr : right.IsExpression) :
    (branches.foldl (fun right left => either left right) right).IsExpression := by
  induction branches generalizing right with
  | nil =>
      exact hr
  | cons branch branches ih =>
      obtain ⟨hbranch, hbranches⟩ := List.forall_mem_cons.mp h
      exact ih hbranches (.either hbranch hr)

theorem Regular.isExpression_close (h : d.Regular) : d.close.IsExpression :=
  isExpression_foldl_either h.branches (.sequence h.isSequence)

/-- A repetition is written behind the item that it repeats. -/
theorem text_of_repeat? {repetition : Pattern → Pattern} {c : Char}
    (hd : d.repeat? repetition = some d')
    (hrep : ∀ p, (repetition p).text = p.text ++ [c]) : d'.text = d.text ++ [c] := by
  rw [repeat?] at hd
  split at hd
  · cases hd
  · next item items heq =>
      obtain rfl := Option.some.inj hd
      simp [text, heq, hrep]

theorem Regular.of_repeat? {repetition : Pattern → Pattern} (h : d.Regular)
    (hd : d.repeat? repetition = some d')
    (hrep : ∀ p, p.IsItem → (repetition p).IsItem) : d'.Regular := by
  rw [repeat?] at hd
  split at hd
  · cases hd
  · next item items heq =>
      obtain rfl := Option.some.inj hd
      obtain ⟨hitem, hitems⟩ := List.forall_mem_cons.mp (heq ▸ h.items)
      exact ⟨h.branches, List.forall_mem_cons.mpr ⟨hrep item hitem, hitems⟩⟩

end Draft

namespace Reader

/-- What is written before the expression that is being read: every open group with the
expression around it. -/
def outerText (outer : List (Nat × Draft)) : List Char :=
  outer.reverse.flatMap fun frame => frame.2.text ++ ['(']

/-- An open class as far as it is written. -/
def classText : Option (Nat × List Char) → List Char
  | none => []
  | some (_, members) => '[' :: members.reverse

theorem outerText_cons (opened : Nat) (around : Draft) (outer : List (Nat × Draft)) :
    outerText ((opened, around) :: outer) = outerText outer ++ around.text ++ ['('] := by
  simp [outerText]

/-- The reader has read this text and holds parts of a tree that obey the grammar. -/
structure Holds (r : Reader) (text : List Char) : Prop where
  draft : r.draft.Regular
  outer : ∀ frame ∈ r.outer, frame.2.Regular
  members : ∀ opened members, r.members = some (opened, members) →
    ∀ c ∈ members, c ≠ ']' ∧ c ≠ '\\'
  text_eq : outerText r.outer ++ r.draft.text ++ classText r.members = text

variable {r r' : Reader} {text : List Char} {offset opened : Nat} {c : Char}
variable {behind : Option Char} {members : List Char} {p : Pattern}

theorem holds_nil : Holds {} [] :=
  ⟨Draft.regular_empty, fun _ h => absurd h List.not_mem_nil, fun _ _ h => (by cases h), rfl⟩

/-- The newest item goes under a repetition. -/
theorem Holds.wrap {repetition : Pattern → Pattern} (h : r.Holds text)
    (hnone : r.members = none) (hok : r.wrap offset repetition = .ok r')
    (hitem : ∀ p, p.IsItem → (repetition p).IsItem)
    (htext : ∀ p, (repetition p).text = p.text ++ [c]) : r'.Holds (text ++ [c]) := by
  rw [Reader.wrap] at hok
  split at hok
  · next draft hdraft =>
      obtain rfl := Except.ok.inj hok
      refine ⟨h.draft.of_repeat? hdraft hitem, h.outer, h.members, ?_⟩
      rw [← h.text_eq, Draft.text_of_repeat? hdraft htext, hnone]
      simp [classText]
  · cases hok

/-- A character outside a class. -/
theorem Holds.plain (h : r.Holds text) (hnone : r.members = none)
    (hok : r.plain offset c behind = .ok r') : r'.Holds (text ++ [c]) := by
  have htext := h.text_eq
  rw [hnone, classText, List.append_nil] at htext
  have hclass : ∀ opened members, r.members = some (opened, members) →
      ∀ c ∈ members, c ≠ ']' ∧ c ≠ '\\' := h.members
  unfold Reader.plain at hok
  split at hok
  case h_1 =>
    -- an open group
    obtain rfl := Except.ok.inj hok
    refine ⟨Draft.regular_empty, List.forall_mem_cons.mpr ⟨h.draft, h.outer⟩, hclass, ?_⟩
    rw [outerText_cons, htext, hnone]
    simp [classText, Draft.text]
  case h_2 =>
    -- the end of the innermost group
    split at hok
    · cases hok
    · next opened around outer houter =>
        obtain rfl := Except.ok.inj hok
        obtain ⟨haround, hrest⟩ := List.forall_mem_cons.mp (houter ▸ h.outer)
        refine ⟨haround.add (.atom (.group h.draft.isExpression_close)), hrest, hclass, ?_⟩
        rw [houter, outerText_cons] at htext
        rw [Draft.text_add, Pattern.text, Draft.text_close, hnone, ← htext]
        simp [classText]
  case h_3 =>
    obtain rfl := Except.ok.inj hok
    refine ⟨h.draft.bar, h.outer, hclass, ?_⟩
    rw [Draft.text_bar, ← htext, hnone]
    simp [classText]
  case h_4 =>
    obtain rfl := Except.ok.inj hok
    refine ⟨h.draft, h.outer, fun _ _ heq => ?_, ?_⟩
    · obtain ⟨-, rfl⟩ := Prod.mk.inj (Option.some.inj heq)
      exact fun _ hc => absurd hc List.not_mem_nil
    · rw [← htext]
      rfl
  case h_5 => exact h.wrap hnone hok (fun _ => .star) fun _ => rfl
  case h_6 => exact h.wrap hnone hok (fun _ => .plus) fun _ => rfl
  case h_7 => exact h.wrap hnone hok (fun _ => .optional) fun _ => rfl
  case h_8 => cases hok
  case h_9 =>
    obtain rfl := Except.ok.inj hok
    have hliteral : c ∉ operators := by
      simp only [operators, List.mem_cons, List.not_mem_nil, or_false]
      tauto
    refine ⟨h.draft.add (.atom (.literal hliteral)), h.outer, hclass, ?_⟩
    rw [Draft.text_add, ← htext, hnone]
    simp [classText, Pattern.text]

/-- A character inside a class. -/
theorem Holds.inClass (h : r.Holds text) (hsome : r.members = some (opened, members))
    (hok : r.inClass opened members offset c behind = .ok r') : r'.Holds (text ++ [c]) := by
  have hmembers := h.members opened members hsome
  have htext := h.text_eq
  rw [hsome, classText] at htext
  unfold Reader.inClass at hok
  split at hok
  case h_1 =>
    split at hok
    · cases hok
    · next hne =>
        obtain rfl := Except.ok.inj hok
        have hatom : IsAtom (.oneOf members.reverse) :=
          .oneOf (by simpa using hne) fun c hc => hmembers c (List.mem_reverse.mp hc)
        refine ⟨h.draft.add (.atom hatom), h.outer, fun _ _ heq => (by cases heq), ?_⟩
        rw [Draft.text_add, Pattern.text, ← htext]
        simp [classText]
  case h_2 => cases hok
  case h_3 hend hescape =>
    obtain rfl := Except.ok.inj hok
    refine ⟨h.draft, h.outer, fun _ _ heq => ?_, ?_⟩
    · obtain ⟨-, rfl⟩ := Prod.mk.inj (Option.some.inj heq)
      exact List.forall_mem_cons.mpr ⟨⟨hend, hescape⟩, hmembers⟩
    · rw [← htext]
      simp [classText]

/-- A step reads one character more. -/
theorem Holds.step (h : r.Holds text) (hok : r.step offset c behind = .ok r') :
    r'.Holds (text ++ [c]) := by
  rw [Reader.step] at hok
  split at hok
  · next hnone => exact h.plain hnone hok
  · next hsome => exact h.inClass hsome hok

/-- When nothing is open, the tree is finished. -/
theorem Holds.finish (h : r.Holds text) (hok : r.finish = .ok p) :
    p.text = text ∧ p.IsExpression := by
  rw [Reader.finish] at hok
  split at hok
  · cases hok
  · cases hok
  · next hnone houter =>
      obtain rfl := Except.ok.inj hok
      refine ⟨?_, h.draft.isExpression_close⟩
      rw [← h.text_eq, Draft.text_close, hnone, houter]
      simp [outerText, classText]

/-- The rest of a text is read behind what has been read. -/
theorem Holds.run {rest : List Char} (h : r.Holds text) (hok : r.run offset rest = .ok p) :
    p.text = text ++ rest ∧ p.IsExpression := by
  induction rest generalizing r text offset with
  | nil =>
      rw [List.append_nil]
      exact h.finish hok
  | cons c rest ih =>
      rw [Reader.run] at hok
      cases hstep : r.step offset c rest.head? with
      | error e =>
          rw [hstep] at hok
          cases hok
      | ok r' =>
          rw [hstep] at hok
          rw [List.append_cons]
          exact ih (h.step hstep) hok

end Reader

theorem isExpression_of_parse {text : List Char} {p : Pattern} (h : parse text = .ok p) :
    p.IsExpression ∧ p.text = text := by
  rw [parse_eq_run] at h
  obtain ⟨htext, hp⟩ := Reader.holds_nil.run h
  exact ⟨hp, htext⟩

/-- A text that can be read is the text of the tree that it is read as, and the tree obeys
the grammar. -/
theorem text_eq_and_isExpression_of_parse {text : List Char} {p : Pattern}
    (h : parse text = .ok p) : p.text = text ∧ p.IsExpression :=
  (isExpression_of_parse h).symm

/-- The text `(|a*?)+[^(]|b]` is that of its tree. -/
theorem text_eq_and_isExpression_of_stacked :
    ∃ p, parse "(|a*?)+[^(]|b]".toList = .ok p ∧
      p.text = "(|a*?)+[^(]|b]".toList ∧ p.IsExpression := by
  have hread : parse "(|a*?)+[^(]|b]".toList = .ok (.either
      (.sequence [.plus (.group (.either .empty (.optional (.star (.literal 'a'))))),
        .oneOf ['^', '(']])
      (.sequence [.literal 'b', .literal ']'])) :=
    (parse_eq_run _).trans rfl
  exact ⟨_, hread, text_eq_and_isExpression_of_parse hread⟩

end Pattern
end Backtracking
