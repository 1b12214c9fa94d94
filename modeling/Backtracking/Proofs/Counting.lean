import Mathlib.Algebra.Order.BigOperators.Group.Finset
import Mathlib.Tactic

/-!
# At most so many

Upper bounds on how many values have a property, without naming the values: `AtMost n P`
is passed on through unions, images and choices made one after another.
-/

namespace Backtracking

variable {α β : Type} {n m : Nat} {P Q : α → Prop}

/-- At most `n` values have the property. -/
def AtMost (n : Nat) (P : α → Prop) : Prop :=
  ∃ F : Finset α, F.card ≤ n ∧ ∀ a, P a → a ∈ F

theorem AtMost.mono (h : AtMost n P) (hnm : n ≤ m) (hsub : ∀ a, Q a → P a) : AtMost m Q := by
  rcases h with ⟨F, hcard, hF⟩
  exact ⟨F, hcard.trans hnm, fun a ha => hF a (hsub a ha)⟩

theorem atMost_of_forall_not (n : Nat) (h : ∀ a, ¬ P a) : AtMost n P :=
  ⟨∅, Nat.zero_le n, fun a ha => absurd ha (h a)⟩

theorem atMost_one (h : ∀ a b, P a → P b → a = b) : AtMost 1 P := by
  by_cases hex : ∃ a, P a
  · rcases hex with ⟨a, ha⟩
    exact ⟨{a}, le_of_eq (Finset.card_singleton a),
      fun b hb => Finset.mem_singleton.mpr (h b a hb ha)⟩
  · exact atMost_of_forall_not 1 (not_exists.mp hex)

theorem atMost_mem (l : List α) : AtMost l.length fun a => a ∈ l := by
  classical
  exact ⟨l.toFinset, l.toFinset_card_le, fun a ha => List.mem_toFinset.mpr ha⟩

theorem AtMost.or (hP : AtMost n P) (hQ : AtMost m Q) : AtMost (n + m) fun a => P a ∨ Q a := by
  classical
  rcases hP with ⟨F, hcard, hF⟩
  rcases hQ with ⟨G, hcard', hG⟩
  refine ⟨F ∪ G, (Finset.card_union_le F G).trans (Nat.add_le_add hcard hcard'), ?_⟩
  rintro a (ha | ha)
  · exact Finset.mem_union_left G (hF a ha)
  · exact Finset.mem_union_right F (hG a ha)

/-- One value is chosen, and then another one depending on it. -/
theorem AtMost.bind {R : α → β → Prop} (hP : AtMost n P) (hR : ∀ a, P a → AtMost m (R a)) :
    AtMost (n * m) fun b => ∃ a, P a ∧ R a b := by
  classical
  rcases hP with ⟨F, hcard, hF⟩
  let G : α → Finset β := fun a => if h : P a then (hR a h).choose else ∅
  have hG : ∀ a, (G a).card ≤ m := fun a => by
    by_cases h : P a
    · simp only [G, dif_pos h]
      exact (hR a h).choose_spec.1
    · simp [G, dif_neg h]
  refine ⟨F.biUnion G, ?_, ?_⟩
  · exact (Finset.card_biUnion_le_card_mul F G m fun a _ => hG a).trans
      (Nat.mul_le_mul_right m hcard)
  · rintro b ⟨a, ha, hb⟩
    refine Finset.mem_biUnion.mpr ⟨a, hF a ha, ?_⟩
    simp only [G, dif_pos ha]
    exact (hR a ha).choose_spec.2 b hb

theorem AtMost.image (hP : AtMost n P) (f : α → β) :
    AtMost n fun b => ∃ a, P a ∧ b = f a := by
  have h := hP.bind (R := fun a b => b = f a) fun a _ =>
    atMost_one fun b c hb hc => hb.trans hc.symm
  rwa [Nat.mul_one] at h

/-- Lists of bounded length over few values are few. -/
theorem AtMost.lists (hP : AtMost n P) (k : Nat) :
    AtMost ((n + 1) ^ k) fun l : List α => l.length ≤ k ∧ ∀ a ∈ l, P a := by
  induction k with
  | zero =>
      refine atMost_one fun l l' hl hl' => ?_
      rw [List.eq_nil_of_length_eq_zero (Nat.le_zero.mp hl.1),
        List.eq_nil_of_length_eq_zero (Nat.le_zero.mp hl'.1)]
  | succ k ih =>
      have hcons := hP.bind (R := fun a l => ∃ l' : List α,
        (l'.length ≤ k ∧ ∀ b ∈ l', P b) ∧ l = a :: l') fun a _ => ih.image (a :: ·)
      refine ((atMost_mem [[]]).or hcons).mono ?_ fun l hl => ?_
      · have hpos := Nat.one_le_pow k (n + 1) (Nat.succ_pos n)
        rw [List.length_singleton, Nat.pow_succ, Nat.mul_succ, Nat.mul_comm n]
        omega
      · cases l with
        | nil =>
            exact Or.inl (List.mem_singleton.mpr rfl)
        | cons a l =>
            obtain ⟨ha, hmem⟩ := List.forall_mem_cons.mp hl.2
            exact Or.inr ⟨a, ha, l, ⟨Nat.le_of_succ_le_succ hl.1, hmem⟩, rfl⟩

/-- A list without repetitions is no longer than its members are many. -/
theorem AtMost.length_le (hP : AtMost n P) {l : List α} (hl : l.Nodup) (h : ∀ a ∈ l, P a) :
    l.length ≤ n := by
  classical
  rcases hP with ⟨F, hcard, hF⟩
  rw [← List.toFinset_card_of_nodup hl]
  refine (Finset.card_le_card fun a ha => ?_).trans hcard
  exact hF a (h a (List.mem_toFinset.mp ha))

end Backtracking
