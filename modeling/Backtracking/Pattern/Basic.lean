/-!
# Patterns

The syntax trees of the pattern dialect: literals, flat character classes,
sequences, alternatives, the three repetitions and groups.

**Text.**  `Pattern.text` writes a tree in the dialect.  A tree that no pattern
text reads as, such as a sequence inside a sequence, is written too; its text then
reads as another tree.

**Equality** of trees is decided by `Pattern.same`, see `Pattern.same_iff`.
-/

namespace Backtracking

/-- A pattern as a tree. -/
inductive Pattern
  /-- Stands for the empty word. -/
  | empty
  /-- One character of the pattern; `^` and `$` stand for the anchors. -/
  | literal (c : Char)
  /-- Any one of some characters, `[abc]`. -/
  | oneOf (members : List Char)
  /-- One pattern after another. -/
  | sequence (items : List Pattern)
  /-- One of two alternatives, `r|s`. -/
  | either (left right : Pattern)
  /-- Any number of times, `r*`. -/
  | star (body : Pattern)
  /-- At least once, `r+`. -/
  | plus (body : Pattern)
  /-- At most once, `r?`. -/
  | optional (body : Pattern)
  /-- A pattern in parentheses, `(r)`. -/
  | group (body : Pattern)
  deriving Inhabited

namespace Pattern

/-- The pattern in its own dialect. -/
def text : Pattern → List Char
  | empty => []
  | literal c => [c]
  | oneOf members => '[' :: (members ++ [']'])
  | sequence items => textAll items
  | either left right => left.text ++ '|' :: right.text
  | star body => body.text ++ ['*']
  | plus body => body.text ++ ['+']
  | optional body => body.text ++ ['?']
  | group body => '(' :: (body.text ++ [')'])
where
  textAll : List Pattern → List Char
    | [] => []
    | item :: items => item.text ++ textAll items

/-- How deep groups are nested. -/
def groupDepth : Pattern → Nat
  | empty | literal _ | oneOf _ => 0
  | sequence items => groupDepthAll items
  | either left right => max left.groupDepth right.groupDepth
  | star body | plus body | optional body => body.groupDepth
  | group body => body.groupDepth + 1
where
  groupDepthAll : List Pattern → Nat
    | [] => 0
    | item :: items => max item.groupDepth (groupDepthAll items)

/-- Whether two trees are the same node for node. -/
def same : Pattern → Pattern → Bool
  | empty, empty => true
  | literal c, literal d => c == d
  | oneOf members, oneOf members' => members == members'
  | sequence items, sequence items' => sameAll items items'
  | either left right, either left' right' => left.same left' && right.same right'
  | star body, star body' => body.same body'
  | plus body, plus body' => body.same body'
  | optional body, optional body' => body.same body'
  | group body, group body' => body.same body'
  | _, _ => false
where
  sameAll : List Pattern → List Pattern → Bool
    | [], [] => true
    | item :: items, item' :: items' => item.same item' && sameAll items items'
    | _, _ => false

mutual

theorem same_iff : ∀ p q : Pattern, p.same q = true ↔ p = q
  | empty, q => by cases q <;> simp [same]
  | literal c, q => by cases q <;> simp [same]
  | oneOf members, q => by cases q <;> simp [same]
  | sequence items, q => by cases q <;> simp [same, sameAll_iff items]
  | either left right, q => by cases q <;> simp [same, same_iff left, same_iff right]
  | star body, q => by cases q <;> simp [same, same_iff body]
  | plus body, q => by cases q <;> simp [same, same_iff body]
  | optional body, q => by cases q <;> simp [same, same_iff body]
  | group body, q => by cases q <;> simp [same, same_iff body]

theorem sameAll_iff : ∀ ps qs : List Pattern, same.sameAll ps qs = true ↔ ps = qs
  | [], qs => by cases qs <;> simp [same.sameAll]
  | p :: ps, qs => by cases qs <;> simp [same.sameAll, same_iff p, sameAll_iff ps]

end

instance : DecidableEq Pattern := fun p q =>
  decidable_of_iff (p.same q = true) (same_iff p q)

/-- The items of a sequence as one pattern: nothing is the empty pattern, and a
single item stands for itself. -/
def ofItems : List Pattern → Pattern
  | [] => empty
  | [item] => item
  | items => sequence items

end Pattern

end Backtracking
