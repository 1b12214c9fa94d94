/-!
# Labels

What stands on an edge of an automaton: a character that is consumed, nothing
at all (epsilon), or an anchor that holds at one end of the text only.

**Order.**  Labels are ordered by `Label.rank`: characters by code point, then
epsilon, the start anchor and the end anchor.  `Label.rank_injective` makes the
comparison a linear order, so finite sets of labels are listed in this order.
-/

namespace Backtracking

/-- What an edge demands of the text at the place where it is crossed. -/
inductive Label
  /-- Consumes this character. -/
  | char (c : Char)
  /-- Consumes nothing and holds everywhere. -/
  | epsilon
  /-- Consumes nothing and holds before the first character. -/
  | startAnchor
  /-- Consumes nothing and holds after the last character. -/
  | endAnchor
  deriving DecidableEq, Inhabited

namespace Label

/-- The label of a character of a pattern: `^` and `$` stand for the anchors. -/
def ofPatternChar (c : Char) : Label :=
  if c = '^' then startAnchor
  else if c = '$' then endAnchor
  else char c

/-- Whether this is an anchor that holds at `offset` in a text of `length` characters. -/
def anchorHolds (offset length : Nat) : Label → Bool
  | startAnchor => offset == 0
  | endAnchor => offset == length
  | _ => false

/-- Whether the label can be crossed at `offset` without consuming anything. -/
def passableAt (offset length : Nat) : Label → Bool
  | epsilon => true
  | label => label.anchorHolds offset length

/-- The offset behind the label when it is crossed at `offset` of `word`, if it can be. -/
def cross? (word : List Char) (offset : Nat) : Label → Option Nat
  | char c => if word[offset]? = some c then some (offset + 1) else none
  | label => if label.passableAt offset word.length then some offset else none

/-- The character that the label consumes, if it consumes one. -/
def consumed? : Label → Option Char
  | char c => some c
  | _ => none

/-- A character as itself, the other labels by name. -/
def text : Label → String
  | char c => c.toString
  | epsilon => "epsilon"
  | startAnchor => "(start)"
  | endAnchor => "(end)"

/-- The place of a label in the order of labels; code points end below `0x110000`. -/
def rank : Label → Nat
  | char c => c.toNat
  | epsilon => 0x110000
  | startAnchor => 0x110001
  | endAnchor => 0x110002

theorem rank_char_lt (c : Char) : (char c).rank < 0x110000 := by
  have h := c.valid
  simp only [rank, Char.toNat, UInt32.isValidChar, Nat.isValidChar] at h ⊢
  omega

theorem rank_injective {a b : Label} (h : a.rank = b.rank) : a = b := by
  match a, b with
  | char c, char d => exact congrArg char (Char.toNat_inj.mp h)
  | char c, epsilon => exact absurd h (Nat.ne_of_lt (rank_char_lt c))
  | char c, startAnchor => exact absurd h (Nat.ne_of_lt (Nat.lt_succ_of_lt (rank_char_lt c)))
  | char c, endAnchor =>
      exact absurd h (Nat.ne_of_lt (Nat.lt_add_right 2 (rank_char_lt c)))
  | epsilon, char d => exact absurd h.symm (Nat.ne_of_lt (rank_char_lt d))
  | startAnchor, char d =>
      exact absurd h.symm (Nat.ne_of_lt (Nat.lt_succ_of_lt (rank_char_lt d)))
  | endAnchor, char d =>
      exact absurd h.symm (Nat.ne_of_lt (Nat.lt_add_right 2 (rank_char_lt d)))
  | epsilon, epsilon | startAnchor, startAnchor | endAnchor, endAnchor => rfl

instance : Ord Label := ⟨compareOn rank⟩

instance : Std.TransOrd Label :=
  inferInstanceAs (Std.TransCmp (compareOn rank))

instance : Std.LawfulEqOrd Label where
  eq_of_compare h := rank_injective (Std.LawfulEqOrd.eq_of_compare h)

end Label

end Backtracking
