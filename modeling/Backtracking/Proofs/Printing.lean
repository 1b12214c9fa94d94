import Backtracking.Proofs.Grammar

/-!
# Reading a printed tree

A tree that obeys the grammar is read back from its own text.

**Reading.**  The text of an atom adds the atom to the draft, whatever groups are open
around it and whatever is written behind it (`Draft.Reads`).  So the rules of the grammar
can be followed one by one: a repetition goes over the item in front of it, a bar finishes
the alternative in front of it, and a group is an expression read into an empty draft.

**Results.**
* `IsExpression.reads`: the text of an expression is read as its alternatives.
* `parse_eq_ok_iff`: what is read, and from which text.
* `parse_text_eq_ok_iff_isExpression`: reading undoes printing exactly on the trees of the
  grammar.
-/

namespace Backtracking
namespace Pattern

namespace Draft

/-- Reading the text turns the draft into `d'`, whatever groups are open and whatever is
written behind. -/
def Reads (d : Draft) (text : List Char) (d' : Draft) : Prop :=
  ∀ outer offset rest,
    Reader.run ⟨d, outer, none⟩ offset (text ++ rest) =
      Reader.run ⟨d', outer, none⟩ (offset + text.length) rest

variable {d d' d'' : Draft} {text more : List Char} {c : Char}

theorem reads_nil (d : Draft) : d.Reads [] d :=
  fun _ _ _ => rfl

theorem Reads.append (h : d.Reads text d') (h' : d'.Reads more d'') :
    d.Reads (text ++ more) d'' := by
  intro outer offset rest
  rw [List.append_assoc, h, h', List.length_append, Nat.add_assoc]

theorem reads_of_plain
    (h : ∀ outer offset behind,
      Reader.plain ⟨d, outer, none⟩ offset c behind = .ok ⟨d', outer, none⟩) :
    d.Reads [c] d' := by
  intro outer offset rest
  change (Reader.plain _ offset c rest.head? >>= _) = _
  rw [h]
  rfl

theorem reads_bar (d : Draft) : d.Reads ['|'] d.bar :=
  reads_of_plain fun _ _ _ => rfl

theorem reads_literal (d : Draft) (h : c ∉ operators) : d.Reads [c] (d.add (literal c)) := by
  refine reads_of_plain fun outer offset behind => ?_
  unfold Reader.plain
  split
  case h_9 => rfl
  all_goals simp [operators] at h

/-- The members of a class are collected up to its end. -/
theorem run_members {members : List Char} (h : ∀ c ∈ members, c ≠ ']' ∧ c ≠ '\\')
    (outer : List (Nat × Draft)) (opened : Nat) (met : List Char) (offset : Nat)
    (rest : List Char) :
    Reader.run ⟨d, outer, some (opened, met)⟩ offset (members ++ rest) =
      Reader.run ⟨d, outer, some (opened, members.reverse ++ met)⟩
        (offset + members.length) rest := by
  induction members generalizing met offset with
  | nil =>
      rfl
  | cons c members ih =>
      obtain ⟨⟨hend, hescape⟩, hmembers⟩ := List.forall_mem_cons.mp h
      have hstep : ∀ behind,
          Reader.step ⟨d, outer, some (opened, met)⟩ offset c behind =
            .ok ⟨d, outer, some (opened, c :: met)⟩ := by
        intro behind
        simp only [Reader.step]
        unfold Reader.inClass
        split
        · exact absurd rfl hend
        · exact absurd rfl hescape
        · rfl
      rw [List.cons_append, Reader.run, hstep]
      change Reader.run _ (offset + 1) (members ++ rest) = _
      rw [ih hmembers, List.reverse_cons, List.append_assoc, List.length_cons, Nat.add_assoc,
        Nat.add_comm 1]
      rfl

/-- The end of a class that has members adds it as an item. -/
theorem step_end_of_class (d : Draft) {members : List Char} (hne : members ≠ [])
    (outer : List (Nat × Draft)) (opened offset : Nat) (behind : Option Char) :
    Reader.step ⟨d, outer, some (opened, members.reverse)⟩ offset ']' behind =
      .ok ⟨d.add (oneOf members), outer, none⟩ := by
  simp [Reader.step, Reader.inClass, hne]

theorem reads_oneOf (d : Draft) {members : List Char} (hne : members ≠ [])
    (h : ∀ c ∈ members, c ≠ ']' ∧ c ≠ '\\') :
    d.Reads (oneOf members).text (d.add (oneOf members)) := by
  intro outer offset rest
  rw [Pattern.text, List.cons_append, List.append_assoc]
  change Reader.run ⟨d, outer, some (offset, [])⟩ (offset + 1) (members ++ ([']'] ++ rest)) = _
  rw [run_members h, List.append_nil, List.singleton_append, Reader.run,
    step_end_of_class d hne]
  change Reader.run _ (offset + 1 + members.length + 1) rest = _
  congr 1
  simp only [List.length_cons, List.length_append, List.length_nil]
  lia

/-- A group is read into an empty draft. -/
theorem reads_group (d : Draft) {body : Pattern} (h : Reads {} body.text d')
    (hclose : d'.close = body) : d.Reads (group body).text (d.add (group body)) := by
  intro outer offset rest
  rw [Pattern.text, List.cons_append, List.append_assoc]
  change Reader.run ⟨{}, (offset, d) :: outer, none⟩ (offset + 1) (body.text ++ ([')'] ++ rest)) =
    _
  rw [h, List.singleton_append]
  change Reader.run ⟨d.add (group d'.close), outer, none⟩
    (offset + 1 + body.text.length + 1) rest = _
  rw [hclose]
  congr 1
  simp only [List.length_cons, List.length_append, List.length_nil]
  lia

/-- A repetition goes over the item that was read last. -/
theorem Reads.repetition {item : Pattern} {repetition : Pattern → Pattern}
    (h : d.Reads item.text (d.add item))
    (htext : (repetition item).text = item.text ++ [c])
    (hplain : ∀ r offset behind,
      Reader.plain r offset c behind = Reader.wrap r offset repetition) :
    d.Reads (repetition item).text (d.add (repetition item)) := by
  rw [htext]
  refine h.append (reads_of_plain fun outer offset behind => ?_)
  rw [hplain]
  rfl

theorem reads_items {items : List Pattern}
    (h : ∀ p ∈ items, ∀ d : Draft, d.Reads p.text (d.add p)) (branches read : List Pattern) :
    Reads ⟨branches, read⟩ (items.flatMap Pattern.text) ⟨branches, items.reverse ++ read⟩ := by
  induction items generalizing read with
  | nil =>
      exact reads_nil _
  | cons item items ih =>
      obtain ⟨hitem, hitems⟩ := List.forall_mem_cons.mp h
      rw [List.flatMap_cons, List.reverse_cons, List.append_assoc]
      exact (hitem ⟨branches, read⟩).append (ih hitems (item :: read))

end Draft

open Draft

mutual

/-- The text of an expression is read as its alternatives, behind those that are read
already. -/
theorem IsExpression.reads {p : Pattern} :
    p.IsExpression → ∀ branches : List Pattern,
      ∃ d : Draft, Reads ⟨branches, []⟩ p.text d ∧
        d.close = branches.foldl (fun right left => either left right) p
  | .sequence h, branches => by
      obtain ⟨items, hreads, rfl⟩ := h.reads branches
      exact ⟨_, hreads, rfl⟩
  | .either hl hr, branches => by
      obtain ⟨items, hleft, rfl⟩ := hl.reads branches
      obtain ⟨d, hright, hclose⟩ := hr.reads (ofItems items.reverse :: branches)
      refine ⟨d, ?_, hclose⟩
      rw [text, List.append_cons]
      exact (hleft.append (reads_bar _)).append hright

/-- The text of a sequence is read as its items. -/
theorem IsSequence.reads {p : Pattern} :
    p.IsSequence → ∀ branches : List Pattern,
      ∃ items : List Pattern,
        Reads ⟨branches, []⟩ p.text ⟨branches, items⟩ ∧ ofItems items.reverse = p
  | .empty, branches => ⟨[], reads_nil _, rfl⟩
  | .item h, branches => ⟨[p], h.reads ⟨branches, []⟩, rfl⟩
  | @IsSequence.items items hlen h, branches => by
      refine ⟨items.reverse ++ [], ?_, ?_⟩
      · rw [text, textAll_eq]
        exact reads_items (fun p hp d => (h p hp).reads d) branches []
      · rw [List.append_nil, List.reverse_reverse]
        match items, hlen with
        | _ :: _ :: _, _ => rfl

/-- The text of an item adds the item. -/
theorem IsItem.reads {p : Pattern} :
    p.IsItem → ∀ d : Draft, d.Reads p.text (d.add p)
  | .atom h, d => h.reads d
  | .star h, d => (h.reads d).repetition rfl fun _ _ _ => rfl
  | .plus h, d => (h.reads d).repetition rfl fun _ _ _ => rfl
  | .optional h, d => (h.reads d).repetition rfl fun _ _ _ => rfl

/-- The text of an atom adds the atom. -/
theorem IsAtom.reads {p : Pattern} :
    p.IsAtom → ∀ d : Draft, d.Reads p.text (d.add p)
  | .literal h, d => reads_literal d h
  | .oneOf hne h, d => reads_oneOf d hne h
  | .group h, d => by
      obtain ⟨d', hreads, hclose⟩ := h.reads []
      exact reads_group d hreads hclose

end

/-- An expression is read back from its text. -/
theorem IsExpression.parse_text {p : Pattern} (h : p.IsExpression) : parse p.text = .ok p := by
  obtain ⟨d, hreads, hclose⟩ := h.reads []
  have hrun := hreads [] 0 []
  rw [List.append_nil] at hrun
  rw [parse_eq_run, hrun]
  exact congrArg Except.ok hclose

/-- A tree is read from a text exactly when it obeys the grammar and is written so. -/
theorem parse_eq_ok_iff {text : List Char} {p : Pattern} :
    parse text = .ok p ↔ p.IsExpression ∧ p.text = text := by
  refine ⟨isExpression_of_parse, ?_⟩
  rintro ⟨hp, rfl⟩
  exact hp.parse_text

/-- Reading undoes printing exactly on the trees of the grammar.  So the texts that can be
read are the texts of these trees, and no two of them have the same text. -/
theorem parse_text_eq_ok_iff_isExpression :
    (∀ p : Pattern, parse p.text = .ok p ↔ p.IsExpression) ∧
      ∀ text : List Char,
        ((∃ p, parse text = .ok p) ↔ ∃ p : Pattern, p.IsExpression ∧ p.text = text) ∧
          {p : Pattern | p.IsExpression ∧ p.text = text}.Subsingleton := by
  refine ⟨fun p => ?_, fun text => ⟨exists_congr fun p => parse_eq_ok_iff, ?_⟩⟩
  · rw [parse_eq_ok_iff]
    exact and_iff_left rfl
  · intro p hp q hq
    exact Except.ok.inj ((parse_eq_ok_iff.mpr hp).symm.trans (parse_eq_ok_iff.mpr hq))

/-- A sequence of one item is written like the item, which is what its text is read as. -/
example : parse (text (sequence [literal 'a'])) = .ok (literal 'a') :=
  (parse_eq_run _).trans rfl

end Pattern
end Backtracking
