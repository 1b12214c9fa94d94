import Backtracking.Proofs.Grammar
import Mathlib.Order.Bounds.Basic

/-!
# The depth of a pattern

How deep groups are nested can be seen in the text: a `(` leads one group deeper and a `)` back
out of it.  In a class both are members like any other character.

**Heights.**  The text in front of a place is `balance` groups deep, which counts the parentheses
outside of classes only (`outside`).  The heights of two texts, one after the other, are those of
either text, if the first one ends outside of classes with all its groups closed
(`heights_append`); a group lifts the heights of its body by one (`heights_cons`).

**Results.**
* `IsExpression.climbs`: the text of an expression climbs as high as its groups are nested, and
  comes back.
* `isGreatest_groupDepth_of_parse`: the depth of a tree is the greatest height of its text.
-/

namespace Backtracking
namespace Pattern

/-- What is written outside of classes; `within` says whether the text begins inside of one. -/
def outside : (within : Bool) → List Char → List Char
  | _, [] => []
  | false, c :: rest => c :: outside (c == '[') rest
  | true, c :: rest => outside (c != ']') rest

/-- The number of parentheses that open a group, less the number of those that close one. -/
def balance (text : List Char) : ℤ :=
  text.count '(' - text.count ')'

/-- The balances in front of all places of a text, its end included. -/
def heights (text : List Char) : Set ℤ :=
  {d | ∃ before, before <+: text ∧ balance (outside false before) = d}

/-- The text ends outside of classes with all its groups closed, and `height` is the greatest
height that it comes to. -/
structure Climbs (text : List Char) (height : ℕ) : Prop where
  closed : ∀ rest, outside false (text ++ rest) = outside false text ++ outside false rest
  balanced : balance (outside false text) = 0
  greatest : IsGreatest (heights text) height

variable {a b members rest : List Char} {c : Char} {m n : ℕ}

theorem balance_append (a b : List Char) : balance (a ++ b) = balance a + balance b := by
  simp only [balance, List.count_append, Nat.cast_add]
  ring

theorem balance_cons (c : Char) (text : List Char) :
    balance (c :: text) = balance [c] + balance text :=
  balance_append [c] text

theorem outside_cons (hc : c ≠ '[') : outside false (c :: rest) = c :: outside false rest := by
  rw [outside, beq_false_of_ne hc]

theorem heights_nil : heights [] = {0} := by
  ext d
  simp only [heights, List.prefix_nil, Set.mem_ofPred_eq, exists_eq_left, Set.mem_singleton_iff]
  exact eq_comm

/-- A character outside of classes lifts the heights behind it. -/
theorem heights_cons (hc : c ≠ '[') :
    heights (c :: rest) = insert 0 ((fun d => balance [c] + d) '' heights rest) := by
  ext d
  simp only [heights, List.prefix_cons_iff, Set.mem_ofPred_eq, Set.mem_insert_iff, Set.mem_image]
  constructor
  · rintro ⟨_, rfl | ⟨before, rfl, hbefore⟩, rfl⟩
    · exact Or.inl rfl
    · refine Or.inr ⟨_, ⟨before, hbefore, rfl⟩, ?_⟩
      rw [outside_cons hc]
      exact (balance_cons c _).symm
  · rintro (rfl | ⟨_, ⟨before, hbefore, rfl⟩, rfl⟩)
    · exact ⟨[], Or.inl rfl, rfl⟩
    · refine ⟨c :: before, Or.inr ⟨before, rfl, hbefore⟩, ?_⟩
      rw [outside_cons hc]
      exact balance_cons c _

/-- Behind a text that is closed and balanced the heights start anew. -/
theorem heights_append
    (closed : ∀ rest, outside false (a ++ rest) = outside false a ++ outside false rest)
    (balanced : balance (outside false a) = 0) :
    heights (a ++ b) = heights a ∪ heights b := by
  have hbehind : ∀ before, balance (outside false (a ++ before)) =
      balance (outside false before) := by
    intro before
    rw [closed, balance_append, balanced, zero_add]
  ext d
  constructor
  · rintro ⟨before, ⟨after, heq⟩, rfl⟩
    obtain ⟨middle, ha, -⟩ | ⟨middle, rfl, hb⟩ := List.append_eq_append_iff.mp heq
    · exact Or.inl ⟨before, ⟨middle, ha.symm⟩, rfl⟩
    · exact Or.inr ⟨middle, ⟨after, hb.symm⟩, (hbehind middle).symm⟩
  · rintro (⟨before, ⟨after, rfl⟩, rfl⟩ | ⟨before, ⟨after, rfl⟩, rfl⟩)
    · exact ⟨before, ⟨after ++ b, (List.append_assoc _ _ _).symm⟩, rfl⟩
    · exact ⟨a ++ before, ⟨after, List.append_assoc _ _ _⟩, hbehind before⟩

theorem climbs_nil : Climbs [] 0 where
  closed _ := rfl
  balanced := rfl
  greatest := heights_nil ▸ isGreatest_singleton

/-- One text after another. -/
theorem Climbs.append (ha : Climbs a m) (hb : Climbs b n) : Climbs (a ++ b) (max m n) where
  closed rest := by
    rw [List.append_assoc, ha.closed, hb.closed, ha.closed, List.append_assoc]
  balanced := by
    rw [ha.closed, balance_append, ha.balanced, hb.balanced, zero_add]
  greatest := by
    rw [heights_append ha.closed ha.balanced, Nat.cast_max]
    exact ha.greatest.union hb.greatest

/-- A character that is no bracket of any kind. -/
theorem climbs_plain (hopen : c ≠ '(') (hclose : c ≠ ')') (hclass : c ≠ '[') :
    Climbs [c] 0 := by
  have hc : balance [c] = 0 := by
    simp [balance, hopen, hclose]
  refine ⟨fun rest => outside_cons hclass, ?_, ?_⟩
  · rw [outside_cons hclass]
    exact hc
  · rw [heights_cons hclass, hc, heights_nil, Set.image_singleton, zero_add, Set.pair_eq_singleton]
    exact isGreatest_singleton

/-- A character behind a text adds no height. -/
theorem Climbs.concat (ha : Climbs a m) (hopen : c ≠ '(') (hclose : c ≠ ')')
    (hclass : c ≠ '[') : Climbs (a ++ [c]) m := by
  have h := ha.append (climbs_plain hopen hclose hclass)
  rwa [Nat.max_zero] at h

/-- The members of a class do not show, up to the end of the class. -/
theorem outside_members (hmembers : ∀ c ∈ members, c ≠ ']') (rest : List Char) :
    outside true (members ++ ']' :: rest) = outside false rest := by
  induction members with
  | nil =>
      rfl
  | cons c members ih =>
      obtain ⟨hc, hrest⟩ := List.forall_mem_cons.mp hmembers
      rw [List.cons_append, outside, bne_iff_ne.mpr hc]
      exact ih hrest

/-- Nor do they before. -/
theorem outside_before_end (hmembers : ∀ c ∈ members, c ≠ ']') {before : List Char}
    (h : before <+: members ++ [']']) : outside true before = [] := by
  induction members generalizing before with
  | nil =>
      obtain rfl | ⟨rest, rfl, hrest⟩ := List.prefix_cons_iff.mp h
      · rfl
      · rw [List.prefix_nil.mp hrest]
        rfl
  | cons c members ih =>
      obtain ⟨hc, htail⟩ := List.forall_mem_cons.mp hmembers
      obtain rfl | ⟨rest, rfl, hrest⟩ := List.prefix_cons_iff.mp h
      · rfl
      · rw [outside, bne_iff_ne.mpr hc]
        exact ih htail hrest

/-- A class is flat. -/
theorem climbs_oneOf (hmembers : ∀ c ∈ members, c ≠ ']') :
    Climbs ('[' :: (members ++ [']'])) 0 := by
  have hclass : ∀ rest, outside false ('[' :: (members ++ ']' :: rest)) =
      '[' :: outside false rest :=
    fun rest => congrArg ('[' :: ·) (outside_members hmembers rest)
  have hflat : ∀ d ∈ heights ('[' :: (members ++ [']'])), d = 0 := by
    rintro _ ⟨before, hbefore, rfl⟩
    obtain rfl | ⟨inner, rfl, hinner⟩ := List.prefix_cons_iff.mp hbefore
    · rfl
    · have hinside : outside false ('[' :: inner) = ['['] :=
        congrArg ('[' :: ·) (outside_before_end hmembers hinner)
      rw [hinside]
      rfl
  refine ⟨fun rest => ?_, ?_, ⟨[], List.nil_prefix, rfl⟩, fun d hd => (hflat d hd).le⟩
  · rw [List.cons_append, List.append_assoc, List.singleton_append, hclass, hclass]
    rfl
  · rw [hclass]
    rfl

/-- A group is one higher than its body. -/
theorem Climbs.group (ha : Climbs a n) : Climbs ('(' :: (a ++ [')'])) (n + 1) := by
  have houtside : ∀ rest, outside false ('(' :: (a ++ ')' :: rest)) =
      '(' :: (outside false a ++ ')' :: outside false rest) := by
    intro rest
    rw [outside_cons (by decide), ha.closed, outside_cons (by decide)]
  refine ⟨fun rest => ?_, ?_, ?_⟩
  · rw [List.cons_append, List.append_assoc, List.singleton_append, houtside, houtside,
      List.cons_append, List.append_assoc]
    rfl
  · rw [houtside, balance_cons, balance_append, ha.balanced]
    rfl
  · -- the closing parenthesis comes back to where the group began
    have hend : IsGreatest (heights [')']) 0 := by
      rw [heights_cons (by decide), heights_nil, Set.image_singleton]
      exact isGreatest_singleton.insert 0
    have hbody : IsGreatest (heights (a ++ [')'])) n := by
      rw [heights_append ha.closed ha.balanced, ← max_eq_left (Int.natCast_nonneg n)]
      exact ha.greatest.union hend
    have hlifted : IsGreatest ((fun d => balance ['('] + d) '' heights (a ++ [')']))
        (balance ['('] + n) :=
      Monotone.map_isGreatest (fun _ _ h => by lia) hbody
    have hmax : ((n + 1 : ℕ) : ℤ) = max 0 (balance ['('] + n) := by
      have hopen : balance ['('] = 1 := rfl
      lia
    rw [heights_cons (by decide), hmax]
    exact hlifted.insert 0

/-- Texts one after another climb as high as the highest of them. -/
theorem climbs_items {items : List Pattern}
    (h : ∀ p ∈ items, Climbs p.text p.groupDepth) :
    Climbs (text.textAll items) (groupDepth.groupDepthAll items) := by
  induction items with
  | nil =>
      exact climbs_nil
  | cons item items ih =>
      obtain ⟨hitem, hitems⟩ := List.forall_mem_cons.mp h
      exact hitem.append (ih hitems)

mutual

/-- The text of an expression climbs as high as its groups are nested. -/
theorem IsExpression.climbs {p : Pattern} : p.IsExpression → Climbs p.text p.groupDepth
  | .sequence h => h.climbs
  | .either hl hr => by
      rw [text, List.append_cons]
      exact (hl.climbs.concat (by decide) (by decide) (by decide)).append hr.climbs

theorem IsSequence.climbs {p : Pattern} : p.IsSequence → Climbs p.text p.groupDepth
  | .empty => climbs_nil
  | .item h => h.climbs
  | .items _ h => climbs_items fun p hp => (h p hp).climbs

theorem IsItem.climbs {p : Pattern} : p.IsItem → Climbs p.text p.groupDepth
  | .atom h => h.climbs
  | .star h | .plus h | .optional h => h.climbs.concat (by decide) (by decide) (by decide)

theorem IsAtom.climbs {p : Pattern} : p.IsAtom → Climbs p.text p.groupDepth
  | .literal h => by
      simp only [operators, List.mem_cons, not_or] at h
      exact climbs_plain h.1 h.2.1 h.2.2.1
  | .oneOf _ h => climbs_oneOf fun c hc => (h c hc).1
  | .group h => h.climbs.group

end

/-- The depth of the tree of a pattern text is the greatest number of groups that are open at once:
over all beginnings of the text, how many more `(` than `)` it has outside of classes. -/
theorem isGreatest_groupDepth_of_parse {text : List Char} {p : Pattern}
    (h : parse text = .ok p) :
    IsGreatest
      {d : ℤ | ∃ before, before <+: text ∧
        ((outside false before).count '(' - (outside false before).count ')' : ℤ) = d}
      p.groupDepth := by
  obtain ⟨hp, rfl⟩ := isExpression_of_parse h
  exact hp.climbs.greatest

/-- The parentheses in the classes of `((a[((])*|[)])(b)` do not count. -/
theorem isGreatest_groupDepth_of_parens_in_classes :
    ∃ p, parse "((a[((])*|[)])(b)".toList = .ok p ∧
      IsGreatest
        {d : ℤ | ∃ before, before <+: "((a[((])*|[)])(b)".toList ∧
          ((outside false before).count '(' - (outside false before).count ')' : ℤ) = d}
        2 := by
  have hread : parse "((a[((])*|[)])(b)".toList = .ok (.sequence [
      .group (.either (.star (.group (.sequence [.literal 'a', .oneOf ['(', '(']])))
        (.oneOf [')'])),
      .group (.literal 'b')]) :=
    (parse_eq_run _).trans rfl
  exact ⟨_, hread, isGreatest_groupDepth_of_parse hread⟩

end Pattern
end Backtracking
