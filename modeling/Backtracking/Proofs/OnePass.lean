import Backtracking.Pattern.Descent
import Mathlib.Tactic

/-!
# Reading in one pass

The descent into a text can be followed without the recursion: a reader goes over the text once
and keeps the expression that is being read, the expressions that its open groups interrupt and,
inside a class, the members met so far.

**Equality.**  For every rule of the grammar the reader does with a text what the rule does with it
and goes on with what the rule leaves.  Behind an item only an operator can tell the two apart, and
behind a repetition there is none.

**Results.**
* `Descent.run_items`, `Descent.run_expression`: the reader follows the rules.
* `parse_eq_run`: a text is parsed as the reader reads it.
-/

namespace Backtracking
namespace Pattern

/-- The part of an expression that has been read: its finished alternatives and the
items of the one being read, both newest first. -/
structure Draft where
  branches : List Pattern := []
  items : List Pattern := []

namespace Draft

/-- Reads one more item. -/
def add (d : Draft) (item : Pattern) : Draft :=
  { d with items := item :: d.items }

/-- Finishes an alternative. -/
def bar (d : Draft) : Draft :=
  { branches := ofItems d.items.reverse :: d.branches }

/-- The whole expression; its alternatives group to the right. -/
def close (d : Draft) : Pattern :=
  d.branches.foldl (fun right left => either left right) (ofItems d.items.reverse)

/-- Puts the newest item under a repetition, if there is an item. -/
def repeat? (d : Draft) (repetition : Pattern → Pattern) : Option Draft :=
  match d.items with
  | [] => none
  | item :: items => some { d with items := repetition item :: items }

end Draft

/-- The state of the reader.  `outer` holds the offset of every open group and the
expression around it, innermost first; `members` holds the offset of an open class and
its members, newest first. -/
structure Reader where
  draft : Draft := {}
  outer : List (Nat × Draft) := []
  members : Option (Nat × List Char) := none

namespace Reader

/-- Puts the newest item under a repetition. -/
def wrap (r : Reader) (offset : Nat) (repetition : Pattern → Pattern) :
    Except Malformed Reader :=
  match r.draft.repeat? repetition with
  | some draft => .ok { r with draft }
  | none => .error ⟨.missingOperand, offset⟩

/-- Reads a character outside a class. -/
def plain (r : Reader) (offset : Nat) (c : Char) (behind : Option Char) :
    Except Malformed Reader :=
  match c with
  | '(' => .ok { r with draft := {}, outer := (offset, r.draft) :: r.outer }
  | ')' =>
      match r.outer with
      | [] => .error ⟨.unbalancedGroup, offset⟩
      | (_, around) :: outer =>
          .ok { r with draft := around.add (group r.draft.close), outer }
  | '|' => .ok { r with draft := r.draft.bar }
  | '[' => .ok { r with members := some (offset, []) }
  | '*' => r.wrap offset star
  | '+' => r.wrap offset plus
  | '?' => r.wrap offset optional
  | '\\' => .error ⟨.escape behind, offset⟩
  | _ => .ok { r with draft := r.draft.add (literal c) }

/-- Reads a character inside the class that was opened at `opened`. -/
def inClass (r : Reader) (opened : Nat) (members : List Char)
    (offset : Nat) (c : Char) (behind : Option Char) : Except Malformed Reader :=
  match c with
  | ']' =>
      if members.isEmpty then
        .error ⟨.emptyClass, opened⟩
      else
        .ok { r with draft := r.draft.add (oneOf members.reverse), members := none }
  | '\\' => .error ⟨.escape behind, offset⟩
  | _ => .ok { r with members := some (opened, c :: members) }

/-- Reads the character at `offset`; `behind` is the one after it. -/
def step (r : Reader) (offset : Nat) (c : Char) (behind : Option Char) :
    Except Malformed Reader :=
  match r.members with
  | none => r.plain offset c behind
  | some (opened, members) => r.inClass opened members offset c behind

/-- What has been read when the text ends; no class and no group may be open. -/
def finish (r : Reader) : Except Malformed Pattern :=
  match r.members, r.outer with
  | some (opened, _), _ => .error ⟨.unterminatedClass, opened⟩
  | none, (opened, _) :: _ => .error ⟨.unbalancedGroup, opened⟩
  | none, [] => .ok r.draft.close

/-- Reads the rest of a text, whose first character stands at `offset`. -/
def run (r : Reader) (offset : Nat) : List Char → Except Malformed Pattern
  | [] => r.finish
  | c :: rest => do
      let r ← r.step offset c rest.head?
      r.run (offset + 1) rest

end Reader

namespace Descent

variable {d : Draft} {outer : List (Nat × Draft)} {offset : Nat} {text : List Char}

/-- What the reader does behind an expression: the text ends, or the group around the expression
does. -/
def leave (outer : List (Nat × Draft)) (p : Pattern) (offset : Nat) :
    List Char → Except Malformed Pattern
  | [] =>
      match outer with
      | [] => .ok p
      | (opened, _) :: _ => .error ⟨.unbalancedGroup, opened⟩
  | _ :: rest =>
      match outer with
      | [] => .error ⟨.unbalancedGroup, offset⟩
      | (_, around) :: outer =>
          Reader.run ⟨around.add (.group p), outer, none⟩ (offset + 1) rest

/-- No quantifier stands in front of the text. -/
def Unquantified : List Char → Prop
  | '*' :: _ | '+' :: _ | '?' :: _ => False
  | _ => True

theorem unquantified_quantifiers (p : Pattern) (offset : Nat) (text : List Char) :
    Unquantified (quantifiers p offset text).2.text := by
  fun_induction quantifiers p offset text with
  | case1 _ _ _ _ _ h ih | case2 _ _ _ _ _ h ih | case3 _ _ _ _ _ h ih =>
      rw [h] at ih
      exact ih
  | case4 p offset text hstar hplus hoptional =>
      unfold Unquantified
      split <;> simp_all [Left.all]

/-- The reader puts the newest item under the same quantifiers. -/
theorem run_quantifiers (d : Draft) (outer : List (Nat × Draft)) (p : Pattern) (offset : Nat)
    (text : List Char) :
    Reader.run ⟨d.add p, outer, none⟩ offset text =
      Reader.run ⟨d.add (quantifiers p offset text).1, outer, none⟩
        (quantifiers p offset text).2.offset (quantifiers p offset text).2.text := by
  fun_induction quantifiers p offset text with
  | case1 p offset text q l h ih | case2 p offset text q l h ih | case3 p offset text q l h ih =>
      rw [h] at ih
      exact ih
  | case4 => rfl

/-- The reader collects the same members. -/
theorem run_charClass (d : Draft) (outer : List (Nat × Draft)) (opened : Nat)
    (members : List Char) (offset : Nat) (text : List Char) :
    Reader.run ⟨d, outer, some (opened, members)⟩ offset text =
      charClass opened members offset text >>= fun r =>
        Reader.run ⟨d.add r.1, outer, none⟩ r.2.offset r.2.text := by
  fun_induction charClass opened members offset text with
  | case1 => rfl
  | case2 members offset text hempty =>
      simp [Reader.run, Reader.step, Reader.inClass, hempty]
      rfl
  | case3 members offset text hempty =>
      simp [Reader.run, Reader.step, Reader.inClass, hempty]
      rfl
  | case4 => rfl
  | case5 members offset c text hend hescape ih =>
      have hstep : Reader.step ⟨d, outer, some (opened, members)⟩ offset c text.head? =
          .ok ⟨d, outer, some (opened, c :: members)⟩ := by
        rw [Reader.step]
        unfold Reader.inClass
        split <;> simp_all
      rw [Reader.run, hstep, bind_assoc]
      exact ih

theorem eq_of_ends (h : ends text = true) :
    text = [] ∨ (∃ rest, text = '|' :: rest) ∨ ∃ rest, text = ')' :: rest := by
  unfold ends at h
  split at h <;> simp_all

/-- Behind an item a sequence goes on with the rest. -/
theorem items_of_repetition {read : List Pattern} {r : Pattern × Left (text.length - 1)}
    (hends : ¬ ends text = true) (h : repetition offset text = .ok r) :
    Descent.items read offset text =
      (Descent.items (r.1 :: read) r.2.offset r.2.text).map fun r' =>
        (r'.1, r'.2.relax (Nat.le_of_lt (r.2.length_lt_of_not_ends hends))) := by
  rw [Descent.items, dif_neg hends, h]
  change (Descent.items (r.1 :: read) r.2.offset r.2.text >>= _) = _
  cases Descent.items (r.1 :: read) r.2.offset r.2.text <;> rfl

theorem ends_of_items (read : List Pattern) (offset : Nat) (text : List Char)
    {r : List Pattern × Left text.length} (h : Descent.items read offset text = .ok r) :
    ends r.2.text = true := by
  by_cases hends : ends text = true
  · rw [Descent.items, dif_pos hends] at h
    obtain rfl := Except.ok.inj h
    exact hends
  · cases hitem : repetition offset text with
    | error e =>
        rw [Descent.items, dif_neg hends, hitem] at h
        cases h
    | ok q =>
        have hlt := q.2.length_lt_of_not_ends hends
        rw [items_of_repetition hends hitem] at h
        cases hrest : Descent.items (q.1 :: read) q.2.offset q.2.text with
        | error e =>
            rw [hrest] at h
            cases h
        | ok r' =>
            rw [hrest] at h
            obtain rfl := Except.ok.inj h
            exact ends_of_items (q.1 :: read) q.2.offset q.2.text hrest
termination_by text.length

/-- Behind a bar an expression goes on with another one. -/
theorem expression_of_bar {read : List Pattern} {l : Left text.length} {rest : List Char}
    (h : Descent.items [] offset text = .ok (read, l)) (hbar : l.text = '|' :: rest) :
    expression offset text =
      (expression (l.offset + 1) rest).map fun r =>
        (either (ofItems read.reverse) r.1, r.2.relax (Nat.le_of_lt (l.length_lt hbar))) := by
  obtain ⟨text', offset', hle⟩ := l
  obtain rfl : text' = '|' :: rest := hbar
  rw [expression, Descent.sequence, h]
  change (expression (offset' + 1) rest >>= _) = _
  cases expression (offset' + 1) rest <;> rfl

theorem expression_of_no_bar {read : List Pattern} {l : Left text.length}
    (h : Descent.items [] offset text = .ok (read, l))
    (hend : l.text = [] ∨ ∃ rest, l.text = ')' :: rest) :
    expression offset text = .ok (ofItems read.reverse, l) := by
  obtain ⟨text', offset', hle⟩ := l
  rw [expression, Descent.sequence, h]
  obtain hnil | ⟨rest, hparen⟩ := hend
  · obtain rfl : text' = [] := hnil
    rfl
  · obtain rfl : text' = ')' :: rest := hparen
    rfl

theorem expression_of_error {e : Malformed} (h : Descent.items [] offset text = .error e) :
    expression offset text = .error e := by
  rw [expression, Descent.sequence, h]
  rfl

/-- Only a `)` ends an expression in front of the end of the text. -/
theorem eq_of_expression (offset : Nat) (text : List Char) {r : Pattern × Left text.length}
    (h : expression offset text = .ok r) :
    r.2.text = [] ∨ ∃ rest, r.2.text = ')' :: rest := by
  cases hitems : Descent.items [] offset text with
  | error e =>
      cases h.symm.trans (expression_of_error hitems)
  | ok q =>
      obtain ⟨read, l⟩ := q
      by_cases hbar : ∃ rest, l.text = '|' :: rest
      · obtain ⟨rest, hbar⟩ := hbar
        have hlt := l.length_lt hbar
        rw [expression_of_bar hitems hbar] at h
        cases hright : expression (l.offset + 1) rest with
        | error e =>
            rw [hright] at h
            cases h
        | ok r' =>
            rw [hright] at h
            obtain rfl := Except.ok.inj h
            exact eq_of_expression (l.offset + 1) rest hright
      · have hend := (eq_of_ends (ends_of_items [] offset text hitems)).imp_right
          fun h => h.resolve_left hbar
        obtain rfl := Except.ok.inj ((expression_of_no_bar hitems hend).symm.trans h)
        exact hend
termination_by text.length

theorem unquantified_of_repetition {p : Pattern} {l : Left (text.length - 1)}
    (h : repetition offset text = .ok (p, l)) : Unquantified l.text := by
  rw [repetition] at h
  cases hatom : atom offset text with
  | error e =>
      rw [hatom] at h
      cases h
  | ok r =>
      rw [hatom] at h
      obtain ⟨-, rfl⟩ := Prod.mk.inj (Except.ok.inj h)
      exact unquantified_quantifiers r.1 r.2.offset r.2.text

-- by recursion on the rules with their measure; no rule but `quantifiers` looks at what stands
-- behind an item, so in front of an item there may be a quantifier only if nothing has been read
mutual

/-- An expression is read behind the alternatives that are finished. -/
theorem run_expression (branches : List Pattern) (outer : List (Nat × Draft)) (offset : Nat)
    (text : List Char) :
    Reader.run ⟨⟨branches, []⟩, outer, none⟩ offset text =
      expression offset text >>= fun r =>
        leave outer (branches.foldl (fun right left => either left right) r.1) r.2.offset
          r.2.text := by
  have hrun := run_items branches outer offset text (Or.inl rfl)
  cases hitems : Descent.items [] offset text with
  | error e =>
      rw [hitems] at hrun
      rw [expression_of_error hitems]
      exact hrun
  | ok r =>
      obtain ⟨read, l⟩ := r
      rw [hrun, hitems]
      change Reader.run ⟨⟨branches, read⟩, outer, none⟩ l.offset l.text = _
      obtain hnil | ⟨rest, hbar⟩ | ⟨rest, hparen⟩ := eq_of_ends (ends_of_items [] _ _ hitems)
      · rw [expression_of_no_bar hitems (Or.inl hnil), hnil]
        change _ = leave _ _ l.offset l.text
        rw [hnil]
        cases outer <;> rfl
      · have hlt := l.length_lt hbar
        rw [expression_of_bar hitems hbar, hbar]
        change Reader.run ⟨⟨ofItems read.reverse :: branches, []⟩, outer, none⟩ (l.offset + 1)
          rest = _
        rw [run_expression]
        cases expression (l.offset + 1) rest <;> rfl
      · rw [expression_of_no_bar hitems (Or.inr ⟨rest, hparen⟩), hparen]
        change _ = leave _ _ l.offset l.text
        rw [hparen]
        cases outer <;> rfl
termination_by 6 * text.length + 4

/-- A sequence is read item by item. -/
theorem run_items (branches : List Pattern) (outer : List (Nat × Draft)) (offset : Nat)
    (text : List Char) {read : List Pattern} (hread : read = [] ∨ Unquantified text) :
    Reader.run ⟨⟨branches, read⟩, outer, none⟩ offset text =
      items read offset text >>= fun r =>
        Reader.run ⟨⟨branches, r.1⟩, outer, none⟩ r.2.offset r.2.text := by
  by_cases hends : ends text = true
  · rw [Descent.items, dif_pos hends]
    rfl
  · have hrun := run_repetition ⟨branches, read⟩ outer offset text hends hread
    cases hitem : repetition offset text with
    | error e =>
        rw [hitem] at hrun
        rw [Descent.items, dif_neg hends, hitem]
        exact hrun
    | ok r =>
        have hlt := r.2.length_lt_of_not_ends hends
        have hunquantified := unquantified_of_repetition hitem
        rw [hrun, hitem, items_of_repetition hends hitem]
        change Reader.run ⟨⟨branches, r.1 :: read⟩, outer, none⟩ r.2.offset r.2.text = _
        rw [run_items branches outer r.2.offset r.2.text (Or.inr hunquantified)]
        cases Descent.items (r.1 :: read) r.2.offset r.2.text <;> rfl
termination_by 6 * text.length + 2

/-- A repetition is one more item. -/
theorem run_repetition (d : Draft) (outer : List (Nat × Draft)) (offset : Nat) (text : List Char)
    (hends : ¬ ends text = true) (hread : d.items = [] ∨ Unquantified text) :
    Reader.run ⟨d, outer, none⟩ offset text =
      repetition offset text >>= fun r =>
        Reader.run ⟨d.add r.1, outer, none⟩ r.2.offset r.2.text := by
  have hrun := run_atom d outer offset text hends hread
  rw [repetition]
  cases hatom : atom offset text with
  | error e =>
      rw [hatom] at hrun
      exact hrun
  | ok r =>
      rw [hrun, hatom]
      exact run_quantifiers d outer r.1 r.2.offset r.2.text
termination_by 6 * text.length + 1

/-- An atom is one more item, which has no quantifiers yet. -/
theorem run_atom (d : Draft) (outer : List (Nat × Draft)) (offset : Nat) (text : List Char)
    (hends : ¬ ends text = true) (hread : d.items = [] ∨ Unquantified text) :
    Reader.run ⟨d, outer, none⟩ offset text =
      atom offset text >>= fun r =>
        Reader.run ⟨d.add r.1, outer, none⟩ r.2.offset r.2.text := by
  unfold atom
  split
  case h_1 text =>
    exact run_group d outer offset (offset + 1) text
  case h_2 text =>
    exact run_charClass d outer offset [] (offset + 1) text
  case h_3 => rfl
  case h_4 | h_5 | h_6 =>
    -- a quantifier: nothing has been read that it could go over
    obtain ⟨branches, items⟩ := d
    obtain rfl : items = [] := hread.resolve_right id
    rfl
  case h_7 c text _ _ _ _ _ _ =>
    have hplain : Reader.plain ⟨d, outer, none⟩ offset c text.head? =
        .ok ⟨d.add (literal c), outer, none⟩ := by
      unfold Reader.plain
      split <;> simp_all [ends]
    change (Reader.plain ⟨d, outer, none⟩ offset c text.head? >>= _) = _
    rw [hplain]
    rfl
  case h_8 => exact absurd rfl hends
termination_by 6 * text.length

/-- A group is read as an expression that interrupts the one around it. -/
theorem run_group (d : Draft) (outer : List (Nat × Draft)) (opened offset : Nat)
    (text : List Char) :
    Reader.run ⟨{}, (opened, d) :: outer, none⟩ offset text =
      group opened offset text >>= fun r =>
        Reader.run ⟨d.add r.1, outer, none⟩ r.2.offset r.2.text := by
  have hrun := run_expression [] ((opened, d) :: outer) offset text
  rw [group]
  cases hbody : expression offset text with
  | error e =>
      rw [hbody] at hrun
      exact hrun
  | ok r =>
      obtain ⟨body, ⟨rest, offset', hle⟩⟩ := r
      have hrest := eq_of_expression offset text hbody
      rw [hrun, hbody]
      obtain rfl | ⟨rest, rfl⟩ := hrest <;> rfl
termination_by 6 * text.length + 5

end

end Descent

/-- A text is parsed as the reader reads it. -/
theorem parse_eq_run (text : List Char) : parse text = Reader.run {} 0 text := by
  rw [parse, Descent.run_expression [] [] 0 text]
  cases hp : Descent.expression 0 text with
  | error e => rfl
  | ok r =>
      obtain ⟨p, ⟨rest, offset, hle⟩⟩ := r
      cases rest <;> rfl

end Pattern
end Backtracking
