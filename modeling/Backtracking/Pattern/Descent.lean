import Backtracking.Pattern.Basic

/-!
# Parsing a pattern

A pattern text is parsed by recursive descent, one function for every rule of the grammar.

```
expression ::= sequence ('|' expression)?
sequence   ::= repetition*
repetition ::= atom quantifier*
atom       ::= character | group | class
group      ::= '(' expression ')'
class      ::= '[' character+ ']'
```

**Dialect.**
* Alternatives group to the right: `a|b|c` reads as `a|(b|c)` would without its group.
* A repetition belongs to the atom right before it, and repetitions can be stacked.
* A class ends at its first `]`; only there is `]` special.
* A backslash is refused everywhere, since the dialect has no escapes.

**Positions.**  A rule is given a text and the offset of its first character, and hands back what
it leaves of them (`Descent.Left`).  A rule leaves no more than it was given, and an atom leaves
less, which is why the descent ends.

**Errors.**  A text that is no pattern is refused with its first fault and the
offset of the character to blame, counted in characters.
-/

namespace Backtracking

/-- What can be wrong with a pattern text. -/
inductive Fault
  /-- A `)` without its `(`, or a `(` without its `)`. -/
  | unbalancedGroup
  /-- A `[` without its `]`. -/
  | unterminatedClass
  /-- A class without members. -/
  | emptyClass
  /-- A repetition with nothing to repeat. -/
  | missingOperand
  /-- A backslash and the character behind it, if there is one. -/
  | escape (escaped : Option Char)
  deriving DecidableEq

/-- The wording of a fault. -/
def Fault.message : Fault → String
  | .unbalancedGroup => "unbalanced group"
  | .unterminatedClass => "unterminated character class"
  | .emptyClass => "empty character class"
  | .missingOperand => "repetition operator missing expression"
  | .escape (some c) => "unsupported syntax: escape sequence \\" ++ c.toString
  | .escape none => "unsupported syntax: trailing backslash"

/-- A fault and the offset of the character to blame. -/
structure Malformed where
  fault : Fault
  offset : Nat
  deriving DecidableEq

/-- The wording of the fault and its place. -/
def Malformed.message (e : Malformed) : String :=
  s!"{e.fault.message} at offset {e.offset}"

namespace Pattern
namespace Descent

/-- What a rule leaves of a text: no more than `bound` characters, the first of which stands at
`offset`. -/
structure Left (bound : Nat) where
  text : List Char
  offset : Nat
  length_le : text.length ≤ bound

namespace Left

variable {bound bound' : Nat}

/-- All of a text. -/
def all (offset : Nat) (text : List Char) : Left text.length :=
  { text, offset, length_le := Nat.le_refl _ }

/-- The same, where more could have been left. -/
def relax (l : Left bound) (h : bound ≤ bound') : Left bound' :=
  { l with length_le := Nat.le_trans l.length_le h }

theorem length_lt (l : Left bound) {c : Char} {rest : List Char} (h : l.text = c :: rest) :
    rest.length < bound := by
  have hle := l.length_le
  rw [h] at hle
  exact hle

/-- What is left behind the first character. -/
def behind (l : Left bound) {c : Char} {rest : List Char} (h : l.text = c :: rest) : Left bound :=
  { text := rest, offset := l.offset + 1, length_le := Nat.le_of_lt (l.length_lt h) }

end Left

/-- Whether a sequence ends in front of the text. -/
def ends : List Char → Bool
  | [] | '|' :: _ | ')' :: _ => true
  | _ => false

/-- Where a sequence goes on, an atom leaves less than it was given. -/
theorem Left.length_lt_of_not_ends {text : List Char} (l : Left (text.length - 1))
    (h : ¬ ends text = true) : l.text.length < text.length := by
  cases text with
  | nil => exact absurd rfl h
  | cons c text => exact Nat.lt_succ_of_le l.length_le

/-- The quantifiers behind a pattern, of which each goes over all in front of it. -/
def quantifiers (p : Pattern) (offset : Nat) : (text : List Char) → Pattern × Left text.length
  | '*' :: text =>
      let (p, l) := quantifiers (star p) (offset + 1) text
      (p, l.relax (Nat.le_succ _))
  | '+' :: text =>
      let (p, l) := quantifiers (plus p) (offset + 1) text
      (p, l.relax (Nat.le_succ _))
  | '?' :: text =>
      let (p, l) := quantifiers (optional p) (offset + 1) text
      (p, l.relax (Nat.le_succ _))
  | text => (p, .all offset text)

/-- The rest of the class that was opened at `opened`; `members` are those met so far, newest
first. -/
def charClass (opened : Nat) (members : List Char) (offset : Nat) :
    (text : List Char) → Except Malformed (Pattern × Left text.length)
  | [] => .error ⟨.unterminatedClass, opened⟩
  | ']' :: text =>
      if members.isEmpty then
        .error ⟨.emptyClass, opened⟩
      else
        .ok (oneOf members.reverse, (Left.all (offset + 1) text).relax (Nat.le_succ _))
  | '\\' :: text => .error ⟨.escape text.head?, offset⟩
  | c :: text => do
      let (p, l) ← charClass opened (c :: members) (offset + 1) text
      return (p, l.relax (Nat.le_succ _))

-- the measure is the length of the text, and on one text the rank of the rule
mutual

/-- `expression ::= sequence ('|' expression)?` -/
def expression (offset : Nat) (text : List Char) :
    Except Malformed (Pattern × Left text.length) := do
  let (left, l) ← sequence offset text
  match h : l.text with
  | '|' :: rest =>
      let (right, l') ← expression (l.offset + 1) rest
      return (either left right, l'.relax (Nat.le_of_lt (l.length_lt h)))
  | _ => return (left, l)
termination_by 6 * text.length + 4
decreasing_by
  · exact Nat.lt_succ_self _
  · have := l.length_lt h
    omega

/-- `sequence ::= repetition*` -/
def sequence (offset : Nat) (text : List Char) :
    Except Malformed (Pattern × Left text.length) := do
  let (items, l) ← items [] offset text
  return (ofItems items.reverse, l)
termination_by 6 * text.length + 3

/-- The items of a sequence behind those that have been read, newest first. -/
def items (read : List Pattern) (offset : Nat) (text : List Char) :
    Except Malformed (List Pattern × Left text.length) :=
  if h : ends text then
    .ok (read, .all offset text)
  else do
    let (item, l) ← repetition offset text
    let (read, l') ← items (item :: read) l.offset l.text
    return (read, l'.relax (Nat.le_of_lt (l.length_lt_of_not_ends h)))
termination_by 6 * text.length + 2
decreasing_by
  · exact Nat.lt_succ_self _
  · have := l.length_lt_of_not_ends h
    omega

/-- `repetition ::= atom quantifier*` -/
def repetition (offset : Nat) (text : List Char) :
    Except Malformed (Pattern × Left (text.length - 1)) := do
  let (p, l) ← atom offset text
  let (p, l') := quantifiers p l.offset l.text
  return (p, l'.relax l.length_le)
termination_by 6 * text.length + 1

/-- `atom ::= character | group | class` -/
def atom (offset : Nat) : (text : List Char) → Except Malformed (Pattern × Left (text.length - 1))
  | '(' :: text => group offset (offset + 1) text
  | '[' :: text => charClass offset [] (offset + 1) text
  | '\\' :: text => .error ⟨.escape text.head?, offset⟩
  | '*' :: _ | '+' :: _ | '?' :: _ => .error ⟨.missingOperand, offset⟩
  | c :: text => .ok (literal c, .all (offset + 1) text)
  -- a sequence has ended where no text is left
  | [] => .ok (empty, .all offset [])
termination_by text => 6 * text.length
decreasing_by
  rw [List.length_cons]
  omega

/-- `group ::= '(' expression ')'`, behind the `(` at `opened`. -/
def group (opened offset : Nat) (text : List Char) :
    Except Malformed (Pattern × Left text.length) := do
  let (body, l) ← expression offset text
  match h : l.text with
  | ')' :: _ => return (Pattern.group body, l.behind h)
  | _ => throw ⟨.unbalancedGroup, opened⟩
termination_by 6 * text.length + 5

end

end Descent

/-- The tree of a pattern text. -/
def parse (text : List Char) : Except Malformed Pattern := do
  let (p, l) ← Descent.expression 0 text
  match l.text with
  | [] => return p
  -- only a `)` ends an expression in front of the end of the text
  | _ :: _ => throw ⟨.unbalancedGroup, l.offset⟩

end Pattern

end Backtracking
