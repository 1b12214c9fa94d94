import Backtracking.Proofs.Exponential
import Backtracking.Proofs.Reading
import Backtracking.Proofs.Shape
import Backtracking.Proofs.ShiftedCheck

/-!
# Vulnerable trees and their parts

Whether a check finds a tree vulnerable is decided by the parts of the tree, and only a
repetition makes a tree vulnerable that has no vulnerable part.

**Levels.**  The automaton of a tree is laid out on levels: the edges inside a part stay on
the level of the part, and all other edges lead up (`Nfa.Levelled`).  A walk that comes back to
where it began has stayed on one level, and so inside one part
(`Nfa.Levelled.arc_of_closed`).

**Surroundings.**  What is around a part changes which states are reached and behind which
the automaton can get stuck.  Neither matters, since every state of the construction is
reached and the automaton can get stuck before every character
(`Nfa.Fragment.exists_check_iff_pumps`).

**Results.**
* `Nfa.pumps_chain_iff`, `Nfa.pumps_branch_iff`, `Nfa.pumps_wrap_once_iff`,
  `Nfa.pumps_wrap_again_iff`: one equation for each way to put automata together.
* `Pattern.OccursIn.vulnerable`: a tree with a vulnerable part is vulnerable.
* `Compiler.compositional_vulnerable`: all the laws.
-/

namespace Backtracking
namespace Nfa

variable {nfa nfa' part first second left right body : Nfa} {lo mid hi next : StateId}
variable {s q : StateId} {ts : List Transition} {r : Route} {ρ : List Route}

theorem IsRoute.of_arcs (h : nfa.IsRoute s r)
    (harc : ∀ t ∈ r.transitions, part.Arc t.source t.label t.target) : part.IsRoute s r where
  walk := h.walk.of_arcs fun t ht => harc t (List.mem_append_left _ ht)
  arc := harc r.edge (List.mem_append_right _ (List.mem_singleton_self _))
  silent := h.silent
  letter := h.letter
  simple := h.simple

theorem Journey.of_arcs (h : nfa.Journey s ρ q)
    (harc : ∀ t ∈ legs ρ, part.Arc t.source t.label t.target) : part.Journey s ρ q := by
  induction h with
  | nil =>
      exact .nil _
  | cons hr _ ih =>
      rw [legs, List.flatMap_cons, List.forall_mem_append] at harc
      exact .cons (hr.of_arcs harc.1) (ih harc.2)

/-- Some word doubles at some state. -/
def Pumps (nfa : Nfa) : Prop :=
  ∃ q w, nfa.Doubles q w

theorem Pumps.of_arc_imp (harc : ∀ {s l t}, part.Arc s l t → nfa.Arc s l t)
    (h : part.Pumps) : nfa.Pumps := by
  obtain ⟨q, w, ρ, σ, hne, hρ, hσ, hw⟩ := h
  exact ⟨q, w, ρ, σ, hne, hρ.of_arcs fun t ht => harc (hρ.walk.arc t ht),
    hσ.of_arcs fun t ht => harc (hσ.walk.arc t ht), hw⟩

theorem Pumps.exists_arc (h : nfa.Pumps) : ∃ s l t, nfa.Arc s l t := by
  obtain ⟨q, w, hdoubles⟩ := h
  have hword := hdoubles.ne_nil
  obtain ⟨ρ, -, -, hρ, -, rfl, -⟩ := hdoubles
  cases hρ with
  | nil =>
      exact absurd rfl hword
  | @cons _ _ r _ hr _ =>
      exact ⟨r.edge.source, r.edge.label, r.edge.target, hr.arc⟩

/-- For an automaton of the construction the verdict says whether some word doubles. -/
theorem Fragment.exists_check_iff_pumps (h : Fragment lo hi nfa) :
    (∃ w, nfa.check { maxSteps := none } = .ok (some w)) ↔ nfa.Pumps := by
  have hn := h.shaped
  constructor
  · rintro ⟨w, hw⟩
    exact ⟨w.state, w.word, (doubles_of_check hn hw).2⟩
  · rintro ⟨q, word, hdoubles⟩
    have hword := hdoubles.ne_nil
    obtain ⟨ρ, σ, hne, hρ, hσ, hρw, hσw⟩ := hdoubles
    obtain ⟨verdict, hverdict⟩ := nfa.exists_check_eq_ok
    cases verdict with
    | some w =>
        exact ⟨w, hverdict⟩
    | none =>
        cases ρ with
        | nil =>
            exact absurd hρw.symm hword
        | cons r ρ =>
            have hr := (journey_cons_iff.mp hρ).1
            have hreach := (h.trim q (hr.owns_source hn)).1
            exact absurd (hr.canStrand hn) (not_canStrand_of_check hn hverdict
              (hρ.mem_entered_of_reaches hreach) hρ hσ (hρw.trans hσw.symm) hne)

section Levels

variable {level : StateId → Nat}

/-- Where no edge leads down, no walk does. -/
theorem Walk.level_le (hup : ∀ {s l t}, nfa.Arc s l t → level s ≤ level t)
    (h : nfa.Walk s ts q) : level s ≤ level q := by
  induction h with
  | nil =>
      exact le_rfl
  | cons ht _ ih =>
      exact (hup ht).trans ih

/-- A walk that does not come out higher has stayed on its level. -/
theorem Walk.level_eq (hup : ∀ {s l t}, nfa.Arc s l t → level s ≤ level t)
    (h : nfa.Walk s ts q) (hback : level q ≤ level s) :
    ∀ t ∈ ts, level t.source = level s ∧ level t.target = level s := by
  induction h with
  | nil =>
      exact fun t ht => absurd ht List.not_mem_nil
  | cons ht rest ih =>
      have hstep := hup ht
      have hrest := rest.level_le hup
      refine List.forall_mem_cons.mpr ⟨⟨rfl, by lia⟩, fun t htail => ?_⟩
      obtain ⟨hs, ht⟩ := ih (by lia) t htail
      exact ⟨by lia, by lia⟩

/-- The edges of an automaton lead up or stay on a level, and those that stay are the edges of
the part on this level. -/
structure Levelled (nfa : Nfa) (level : StateId → Nat) (parts : Nat → Nfa) : Prop where
  arc_of_part : ∀ k {s l t}, (parts k).Arc s l t → nfa.Arc s l t
  edge : ∀ {s l t}, nfa.Arc s l t →
    level s < level t ∨ level s = level t ∧ (parts (level s)).Arc s l t

/-- A closed walk stays in the part on its level. -/
theorem Levelled.arc_of_closed {parts : Nat → Nfa} (h : nfa.Levelled level parts)
    (hwalk : nfa.Walk q ts q) : ∀ t ∈ ts, (parts (level q)).Arc t.source t.label t.target := by
  have hup : ∀ {s l t}, nfa.Arc s l t → level s ≤ level t :=
    fun harc => (h.edge harc).elim Nat.le_of_lt fun hstays => Nat.le_of_eq hstays.1
  intro t ht
  obtain ⟨hsource, htarget⟩ := hwalk.level_eq hup le_rfl t ht
  rcases h.edge (hwalk.arc t ht) with hlt | ⟨-, harc⟩
  · lia
  · exact hsource ▸ harc

/-- A word doubles if it doubles in a part. -/
theorem Levelled.pumps_iff {parts : Nat → Nfa} (h : nfa.Levelled level parts) :
    nfa.Pumps ↔ ∃ k, (parts k).Pumps := by
  constructor
  · rintro ⟨q, w, ρ, σ, hne, hρ, hσ, hw⟩
    exact ⟨level q, q, w, ρ, σ, hne, hρ.of_arcs (h.arc_of_closed hρ.walk),
      hσ.of_arcs (h.arc_of_closed hσ.walk), hw⟩
  · rintro ⟨k, hpart⟩
    exact hpart.of_arc_imp (h.arc_of_part k)

/-- What holds of one of two parts. -/
theorem exists_ite_iff (P : Nfa → Prop) (j : Nat) :
    (∃ k, P (if k = j then left else right)) ↔ P left ∨ P right := by
  constructor
  · rintro ⟨k, h⟩
    split_ifs at h
    · exact Or.inl h
    · exact Or.inr h
  · rintro (h | h)
    · exact ⟨j, by rwa [if_pos rfl]⟩
    · exact ⟨j + 1, by rwa [if_neg (Nat.succ_ne_self j)]⟩

end Levels

/-- The level of a state in a chain whose second part begins with `mid`. -/
def chainLevel (mid s : StateId) : Nat :=
  if s < mid then 0 else 1

/-- The level of a state in a frame of `hi` and `hi + 1`, around parts of which the second one
begins with `mid`. -/
def frameLevel (mid hi s : StateId) : Nat :=
  if s = hi then 0 else if s = hi + 1 then 3 else if s < mid then 1 else 2

theorem frameLevel_start (mid hi : StateId) : frameLevel mid hi hi = 0 :=
  if_pos rfl

theorem frameLevel_finish (mid hi : StateId) : frameLevel mid hi (hi + 1) = 3 := by
  simp [frameLevel]

theorem Shaped.frameLevel_left (hl : left.Shaped lo mid) (hle : mid ≤ hi) (hs : left.Owns s) :
    frameLevel mid hi s = 1 := by
  have h := (hl.owns_iff s).mp hs
  rw [frameLevel]
  split_ifs <;> lia

theorem Shaped.frameLevel_right (hr : right.Shaped mid hi) (hs : right.Owns s) :
    frameLevel mid hi s = 2 := by
  have h := (hr.owns_iff s).mp hs
  rw [frameLevel]
  split_ifs <;> lia

theorem not_arc_frame {l : Label} {t : StateId} : ¬ (frame next).Arc s l t := by
  simp [Arc, row_frame]

/-- The only edge of an atom leads up. -/
theorem levelled_atom {label : Label} (hok : atom label next = .ok nfa) :
    nfa.Levelled id fun _ => frame next := by
  obtain ⟨-, -, -, harc⟩ := atom_eq_ok hok
  refine ⟨fun _ _ _ _ h => absurd h not_arc_frame, fun h => ?_⟩
  obtain ⟨rfl, -, rfl⟩ := harc.mp h
  exact Or.inl (Nat.lt_succ_self _)

/-- The edge between two parts is not crossed a second time. -/
theorem Shaped.levelled_chain (hf : first.Shaped lo mid) (hs : second.Shaped mid hi)
    (hok : first.chain second = .ok nfa) :
    nfa.Levelled (chainLevel mid) fun k => if k = 0 then first else second := by
  obtain ⟨-, -, -, harc⟩ := hf.chain_eq_ok hs hok
  have hlow : ∀ {s}, first.Owns s → chainLevel mid s = 0 :=
    fun h => if_pos ((hf.owns_iff _).mp h).2
  have hhigh : ∀ {s}, second.Owns s → chainLevel mid s = 1 :=
    fun h => if_neg (Nat.not_lt.mpr ((hs.owns_iff _).mp h).1)
  constructor
  · intro k s l t h
    split_ifs at h
    · exact harc.mpr (Or.inl h)
    · exact harc.mpr (Or.inr (Or.inl h))
  · intro s l t h
    rcases harc.mp h with h | h | ⟨rfl, -, rfl⟩
    · obtain ⟨hs, ht⟩ := hf.inside h
      exact Or.inr ⟨by rw [hlow hs, hlow ht], by rwa [hlow hs]⟩
    · obtain ⟨hs, ht⟩ := hs.inside h
      exact Or.inr ⟨by rw [hhigh hs, hhigh ht], by rwa [hhigh hs]⟩
    · rw [hlow hf.finish_owned, hhigh hs.start_owned]
      exact Or.inl Nat.one_pos

/-- The frame around two automata is left for good or not entered again. -/
theorem Shaped.levelled_branch (hl : left.Shaped lo mid) (hr : right.Shaped mid hi)
    (hok : left.branch right hi = .ok nfa) :
    nfa.Levelled (frameLevel mid hi) fun k => if k = 1 then left else right := by
  obtain ⟨-, -, -, harc⟩ := hl.branch_eq_ok hr hok
  have hmid := (hr.owns_iff _).mp hr.start_owned
  have hleft : ∀ {s}, left.Owns s → frameLevel mid hi s = 1 := hl.frameLevel_left (by lia)
  have hright : ∀ {s}, right.Owns s → frameLevel mid hi s = 2 := hr.frameLevel_right
  constructor
  · intro k s l t h
    split_ifs at h
    · exact harc.mpr (Or.inl h)
    · exact harc.mpr (Or.inr (Or.inl h))
  · intro s l t h
    rcases harc.mp h with h | h | ⟨-, ⟨rfl, rfl | rfl⟩ | ⟨rfl | rfl, rfl⟩⟩
    · obtain ⟨hs, ht⟩ := hl.inside h
      exact Or.inr ⟨by rw [hleft hs, hleft ht], by rwa [hleft hs]⟩
    · obtain ⟨hs, ht⟩ := hr.inside h
      exact Or.inr ⟨by rw [hright hs, hright ht], by rwa [hright hs]⟩
    · rw [frameLevel_start, hleft hl.start_owned]
      lia
    · rw [frameLevel_start, hright hr.start_owned]
      lia
    · rw [frameLevel_finish, hleft hl.finish_owned]
      lia
    · rw [frameLevel_finish, hright hr.finish_owned]
      lia

/-- Around a body the edges lead up, but for those of the body and the one that leads back. -/
theorem Shaped.wrap_edge {skip again : Bool} {l : Label} {t : StateId} (hb : body.Shaped lo hi)
    (hok : body.wrap hi skip again = .ok nfa) (h : nfa.Arc s l t) :
    frameLevel hi hi s < frameLevel hi hi t ∨
      frameLevel hi hi s = frameLevel hi hi t ∧
        (body.Arc s l t ∨ again = true ∧ s = body.finish ∧ l = .epsilon ∧ t = body.start) := by
  obtain ⟨-, -, -, harc⟩ := hb.wrap_eq_ok hok
  have hbody : ∀ {s}, body.Owns s → frameLevel hi hi s = 1 := hb.frameLevel_left le_rfl
  rcases harc.mp h with h | ⟨rfl, ⟨rfl, rfl | ⟨-, rfl⟩⟩ | ⟨rfl, rfl | ⟨hagain, rfl⟩⟩⟩
  · obtain ⟨hs, ht⟩ := hb.inside h
    exact Or.inr ⟨by rw [hbody hs, hbody ht], Or.inl h⟩
  · rw [frameLevel_start, hbody hb.start_owned]
    lia
  · rw [frameLevel_start, frameLevel_finish]
    lia
  · rw [frameLevel_finish, hbody hb.finish_owned]
    lia
  · exact Or.inr ⟨by rw [hbody hb.start_owned, hbody hb.finish_owned],
      Or.inr ⟨hagain, rfl, rfl, rfl⟩⟩

/-- A frame that leads back to nothing adds nothing. -/
theorem Shaped.levelled_wrap_once {skip : Bool} (hb : body.Shaped lo hi)
    (hok : body.wrap hi skip false = .ok nfa) : nfa.Levelled (frameLevel hi hi) fun _ => body := by
  obtain ⟨-, -, -, harc⟩ := hb.wrap_eq_ok hok
  refine ⟨fun _ _ _ _ h => harc.mpr (Or.inl h), fun h => ?_⟩
  exact (hb.wrap_edge hok h).imp_right fun ⟨hlevel, hstays⟩ =>
    ⟨hlevel, hstays.resolve_right fun ⟨hno, _⟩ => Bool.noConfusion hno⟩

/-- The edge that passes a repetition by leaves its start for good. -/
theorem Shaped.levelled_wrap_again (hb : body.Shaped lo hi)
    (hok : body.wrap hi true true = .ok nfa) (hok' : body.wrap hi false true = .ok nfa') :
    nfa.Levelled (frameLevel hi hi) fun _ => nfa' := by
  obtain ⟨-, -, -, harc⟩ := hb.wrap_eq_ok hok
  obtain ⟨-, -, -, harc'⟩ := hb.wrap_eq_ok hok'
  constructor
  · intro _ s l t h
    rcases harc'.mp h with h | ⟨rfl, ⟨rfl, rfl | ⟨hno, -⟩⟩ | hout⟩
    · exact harc.mpr (Or.inl h)
    · exact harc.mpr (Or.inr ⟨rfl, Or.inl ⟨rfl, Or.inl rfl⟩⟩)
    · cases hno
    · exact harc.mpr (Or.inr ⟨rfl, Or.inr hout⟩)
  · intro s l t h
    refine (hb.wrap_edge hok h).imp_right fun ⟨hlevel, hstays⟩ => ⟨hlevel, harc'.mpr ?_⟩
    rcases hstays with h | ⟨-, rfl, rfl, rfl⟩
    · exact Or.inl h
    · exact Or.inr ⟨rfl, Or.inr ⟨rfl, Or.inr ⟨rfl, rfl⟩⟩⟩

theorem not_pumps_atom {label : Label} (hok : atom label next = .ok nfa) : ¬ nfa.Pumps := by
  rw [(levelled_atom hok).pumps_iff]
  rintro ⟨-, h⟩
  obtain ⟨s, l, t, harc⟩ := h.exists_arc
  exact not_arc_frame harc

theorem pumps_chain_iff (hf : first.Shaped lo mid) (hs : second.Shaped mid hi)
    (hok : first.chain second = .ok nfa) : nfa.Pumps ↔ first.Pumps ∨ second.Pumps := by
  rw [(hf.levelled_chain hs hok).pumps_iff, exists_ite_iff]

theorem pumps_branch_iff (hl : left.Shaped lo mid) (hr : right.Shaped mid hi)
    (hok : left.branch right hi = .ok nfa) : nfa.Pumps ↔ left.Pumps ∨ right.Pumps := by
  rw [(hl.levelled_branch hr hok).pumps_iff, exists_ite_iff]

theorem pumps_wrap_once_iff {skip : Bool} (hb : body.Shaped lo hi)
    (hok : body.wrap hi skip false = .ok nfa) : nfa.Pumps ↔ body.Pumps := by
  rw [(hb.levelled_wrap_once hok).pumps_iff, exists_const]

theorem pumps_wrap_again_iff (hb : body.Shaped lo hi)
    (hok : body.wrap hi true true = .ok nfa) (hok' : body.wrap hi false true = .ok nfa') :
    nfa.Pumps ↔ nfa'.Pumps := by
  rw [(hb.levelled_wrap_again hok hok').pumps_iff, exists_const]

/-- What doubles in the body doubles in the frame. -/
theorem Pumps.wrap {skip again : Bool} (hp : body.Pumps) (hb : body.Shaped lo hi)
    (hok : body.wrap hi skip again = .ok nfa) : nfa.Pumps := by
  obtain ⟨-, -, -, harc⟩ := hb.wrap_eq_ok hok
  exact hp.of_arc_imp fun h => harc.mpr (Or.inl h)

end Nfa

namespace Pattern

open Nfa

variable {p q : Pattern} {items : List Pattern} {lo hi : StateId} {nfa : Nfa}

/-- A check without a limit finds the automaton of the tree vulnerable. -/
def Vulnerable (p : Pattern) : Prop :=
  ∃ nfa w, Nfa.ofPattern p = .ok nfa ∧ nfa.check { maxSteps := none } = .ok (some w)

/-- The numbering does not matter for the verdict. -/
theorem Built.vulnerable_iff (h : p.Built lo hi nfa) : p.Vulnerable ↔ nfa.Pumps := by
  obtain ⟨hi', zero, hzero⟩ := exists_built p 0
  have hofPattern : Nfa.ofPattern p = .ok zero := by
    rw [Nfa.ofPattern, Compiler.compileTree_eq_ok hzero]
    rfl
  have hshift := (hzero.shift lo).build_eq_ok
  rw [Nat.add_zero, h.build_eq_ok] at hshift
  obtain ⟨rfl, -⟩ := Prod.mk.inj (Except.ok.inj hshift)
  rw [← h.fragment.exists_check_iff_pumps, check_shift, Vulnerable, hofPattern]
  constructor
  · rintro ⟨_, w, ⟨⟩, hcheck⟩
    exact ⟨w.shift lo, by rw [hcheck]; rfl⟩
  · rintro ⟨w, hcheck⟩
    cases hv : zero.check { maxSteps := none } with
    | error e =>
        rw [hv] at hcheck
        cases hcheck
    | ok v =>
        rw [hv] at hcheck
        cases v with
        | none =>
            cases hcheck
        | some w =>
            exact ⟨zero, w, rfl, hv⟩

theorem not_vulnerable_empty : ¬ empty.Vulnerable := by
  obtain ⟨nfa, hok, -⟩ := exists_atom .epsilon 0
  rw [(Built.empty hok).vulnerable_iff]
  exact not_pumps_atom hok

theorem not_vulnerable_literal (c : Char) : ¬ (literal c).Vulnerable := by
  obtain ⟨nfa, hok, -⟩ := exists_atom (.ofPatternChar c) 0
  rw [(Built.literal hok).vulnerable_iff]
  exact not_pumps_atom hok

theorem BuiltAs.vulnerable_iff (h : p.BuiltAs q) : p.Vulnerable ↔ q.Vulnerable := by
  obtain ⟨hi, nfa, hq⟩ := exists_built q 0
  rw [(Built.same h hq).vulnerable_iff, hq.vulnerable_iff]

theorem vulnerable_either_iff (left right : Pattern) :
    (either left right).Vulnerable ↔ left.Vulnerable ∨ right.Vulnerable := by
  obtain ⟨mid, _, hl⟩ := exists_built left 0
  obtain ⟨hi, _, hr⟩ := exists_built right mid
  obtain ⟨nfa, hok, h⟩ := hl.exists_either hr
  rw [h.vulnerable_iff, pumps_branch_iff hl.shaped hr.shaped hok, hl.vulnerable_iff,
    hr.vulnerable_iff]

theorem not_vulnerable_oneOf (members : List Char) : ¬ (oneOf members).Vulnerable := by
  induction members using List.reverseRecOn with
  | nil =>
      rw [BuiltAs.noMember.vulnerable_iff]
      exact not_vulnerable_empty
  | append_singleton members c ih =>
      by_cases hne : members = []
      · subst hne
        rw [List.nil_append, (BuiltAs.member c).vulnerable_iff]
        exact not_vulnerable_literal c
      · rw [(BuiltAs.members hne c).vulnerable_iff, vulnerable_either_iff]
        exact not_or.mpr ⟨ih, not_vulnerable_literal c⟩

theorem vulnerable_sequence_append_iff (hne : items ≠ []) (p : Pattern) :
    (sequence (items ++ [p])).Vulnerable ↔ (sequence items).Vulnerable ∨ p.Vulnerable := by
  obtain ⟨mid, _, hitems⟩ := exists_built (sequence items) 0
  obtain ⟨hi, _, hp⟩ := exists_built p mid
  obtain ⟨nfa, hok, h⟩ := hitems.exists_items hne hp
  rw [h.vulnerable_iff, pumps_chain_iff hitems.shaped hp.shaped hok, hitems.vulnerable_iff,
    hp.vulnerable_iff]

theorem vulnerable_sequence_iff (items : List Pattern) :
    (sequence items).Vulnerable ↔ ∃ item ∈ items, item.Vulnerable := by
  induction items using List.reverseRecOn with
  | nil =>
      simp [BuiltAs.noItem.vulnerable_iff, not_vulnerable_empty]
  | append_singleton items p ih =>
      by_cases hne : items = []
      · subst hne
        simp [(BuiltAs.item p).vulnerable_iff]
      · rw [vulnerable_sequence_append_iff hne, ih]
        simp [or_and_right, exists_or]

theorem vulnerable_optional_iff (body : Pattern) :
    (optional body).Vulnerable ↔ body.Vulnerable := by
  obtain ⟨hi, _, hb⟩ := exists_built body 0
  obtain ⟨nfa, hok, h⟩ := hb.exists_frame (.optional body)
  rw [h.vulnerable_iff, pumps_wrap_once_iff hb.shaped hok, hb.vulnerable_iff]

theorem vulnerable_group_iff (body : Pattern) : (group body).Vulnerable ↔ body.Vulnerable :=
  (BuiltAs.group body).vulnerable_iff

theorem vulnerable_star_iff (body : Pattern) : (star body).Vulnerable ↔ (plus body).Vulnerable := by
  obtain ⟨hi, _, hb⟩ := exists_built body 0
  obtain ⟨nfa, hok, h⟩ := hb.exists_frame (.star body)
  obtain ⟨nfa', hok', h'⟩ := hb.exists_frame (.plus body)
  rw [h.vulnerable_iff, h'.vulnerable_iff, pumps_wrap_again_iff hb.shaped hok hok']

theorem Vulnerable.star (h : p.Vulnerable) : (star p).Vulnerable := by
  obtain ⟨hi, _, hb⟩ := exists_built p 0
  obtain ⟨nfa, hok, hstar⟩ := hb.exists_frame (.star p)
  rw [hb.vulnerable_iff] at h
  rw [hstar.vulnerable_iff]
  exact h.wrap hb.shaped hok

/-- The tree stands somewhere in the other one, which may be the tree itself. -/
inductive OccursIn (p : Pattern) : Pattern → Prop
  | refl : p.OccursIn p
  | item {item : Pattern} {items : List Pattern}
      (hitem : item ∈ items) (h : p.OccursIn item) : p.OccursIn (sequence items)
  | left {left right : Pattern} (h : p.OccursIn left) : p.OccursIn (either left right)
  | right {left right : Pattern} (h : p.OccursIn right) : p.OccursIn (either left right)
  | star {body : Pattern} (h : p.OccursIn body) : p.OccursIn (star body)
  | plus {body : Pattern} (h : p.OccursIn body) : p.OccursIn (plus body)
  | optional {body : Pattern} (h : p.OccursIn body) : p.OccursIn (optional body)
  | group {body : Pattern} (h : p.OccursIn body) : p.OccursIn (group body)

/-- A tree with a vulnerable part is vulnerable. -/
theorem OccursIn.vulnerable (h : p.OccursIn q) (hp : p.Vulnerable) : q.Vulnerable := by
  induction h with
  | refl =>
      exact hp
  | item hitem _ ih =>
      exact (vulnerable_sequence_iff _).mpr ⟨_, hitem, ih⟩
  | left _ ih =>
      exact (vulnerable_either_iff _ _).mpr (Or.inl ih)
  | right _ ih =>
      exact (vulnerable_either_iff _ _).mpr (Or.inr ih)
  | star _ ih =>
      exact ih.star
  | plus _ ih =>
      exact (vulnerable_star_iff _).mp ih.star
  | optional _ ih =>
      exact (vulnerable_optional_iff _).mpr ih
  | group _ ih =>
      exact (vulnerable_group_iff _).mpr ih

/-- Only a repetition makes a tree vulnerable whose parts are not. -/
theorem exists_repetition_of_vulnerable :
    ∀ p : Pattern, p.Vulnerable →
      ∃ body, ((star body).OccursIn p ∨ (plus body).OccursIn p) ∧
        (star body).Vulnerable ∧ ¬ body.Vulnerable
  | empty, h => absurd h not_vulnerable_empty
  | literal c, h => absurd h (not_vulnerable_literal c)
  | oneOf members, h => absurd h (not_vulnerable_oneOf members)
  | sequence items, h => by
      obtain ⟨item, hitem, h⟩ := (vulnerable_sequence_iff items).mp h
      obtain ⟨body, hoccurs, hbody⟩ := exists_repetition_of_vulnerable item h
      exact ⟨body, hoccurs.imp (.item hitem) (.item hitem), hbody⟩
  | either left right, h => by
      rcases (vulnerable_either_iff left right).mp h with h | h
      · obtain ⟨body, hoccurs, hbody⟩ := exists_repetition_of_vulnerable left h
        exact ⟨body, hoccurs.imp .left .left, hbody⟩
      · obtain ⟨body, hoccurs, hbody⟩ := exists_repetition_of_vulnerable right h
        exact ⟨body, hoccurs.imp .right .right, hbody⟩
  | star body, h => by
      by_cases hbody : body.Vulnerable
      · obtain ⟨body', hoccurs, hbody'⟩ := exists_repetition_of_vulnerable body hbody
        exact ⟨body', hoccurs.imp .star .star, hbody'⟩
      · exact ⟨body, Or.inl .refl, h, hbody⟩
  | plus body, h => by
      by_cases hbody : body.Vulnerable
      · obtain ⟨body', hoccurs, hbody'⟩ := exists_repetition_of_vulnerable body hbody
        exact ⟨body', hoccurs.imp .plus .plus, hbody'⟩
      · exact ⟨body, Or.inr .refl, (vulnerable_star_iff body).mpr h, hbody⟩
  | optional body, h => by
      obtain ⟨body', hoccurs, hbody⟩ :=
        exists_repetition_of_vulnerable body ((vulnerable_optional_iff body).mp h)
      exact ⟨body', hoccurs.imp .optional .optional, hbody⟩
  | group body, h => by
      obtain ⟨body', hoccurs, hbody⟩ :=
        exists_repetition_of_vulnerable body ((vulnerable_group_iff body).mp h)
      exact ⟨body', hoccurs.imp .group .group, hbody⟩

/-- The laws of a property of trees that their parts decide and that only a repetition can
bring about. -/
structure Compositional (v : Pattern → Prop) : Prop where
  empty : ¬ v .empty
  literal : ∀ c, ¬ v (.literal c)
  oneOf : ∀ members, ¬ v (.oneOf members)
  sequence_iff : ∀ items, v (.sequence items) ↔ ∃ item ∈ items, v item
  either_iff : ∀ left right, v (.either left right) ↔ v left ∨ v right
  optional_iff : ∀ body, v (.optional body) ↔ v body
  group_iff : ∀ body, v (.group body) ↔ v body
  star_iff_plus : ∀ body, v (.star body) ↔ v (.plus body)
  star_of : ∀ body, v body → v (.star body)
  of_occursIn : ∀ p q : Pattern, p.OccursIn q → v p → v q
  exists_repetition : ∀ p, v p →
    ∃ body, ((Pattern.star body).OccursIn p ∨ (Pattern.plus body).OccursIn p) ∧
      v (.star body) ∧ ¬ v body

end Pattern

/-- Whatever the numbering is, the automaton of a vulnerable tree is found vulnerable. -/
theorem Compiler.exists_check_of_vulnerable {p : Pattern} (h : p.Vulnerable) (c : Compiler) :
    ∃ nfa c', c.compileTree p = .ok (nfa, c') ∧
      ∃ w, nfa.check { maxSteps := none } = .ok (some w) := by
  obtain ⟨nfa, c', hok, hfrag⟩ := c.exists_compileTree p
  exact ⟨nfa, c', hok, hfrag.exists_check_iff_pumps.mpr
    ((built_of_compileTree hok).vulnerable_iff.mp h)⟩

/-- Whatever the numbering is, a check of a compiled tree comes to a verdict, which is that of
the tree, and the verdicts of trees are compositional. -/
theorem Compiler.compositional_vulnerable :
    (∀ (c : Compiler) (p : Pattern), ∃ nfa c' verdict, c.compileTree p = .ok (nfa, c') ∧
      nfa.check { maxSteps := none } = .ok verdict ∧
      (verdict.isSome = true ↔ p.Vulnerable)) ∧
    Pattern.Compositional Pattern.Vulnerable := by
  refine ⟨fun c p => ?_, ?_⟩
  · obtain ⟨nfa, c', hok, hfrag⟩ := c.exists_compileTree p
    obtain ⟨verdict, hverdict⟩ := nfa.exists_check_eq_ok
    refine ⟨nfa, c', verdict, hok, hverdict, ?_⟩
    rw [(built_of_compileTree hok).vulnerable_iff,
      ← hfrag.exists_check_iff_pumps, hverdict, Option.isSome_iff_exists]
    simp only [Except.ok.injEq]
  · exact
      { empty := Pattern.not_vulnerable_empty
        literal := Pattern.not_vulnerable_literal
        oneOf := Pattern.not_vulnerable_oneOf
        sequence_iff := Pattern.vulnerable_sequence_iff
        either_iff := Pattern.vulnerable_either_iff
        optional_iff := Pattern.vulnerable_optional_iff
        group_iff := Pattern.vulnerable_group_iff
        star_iff_plus := Pattern.vulnerable_star_iff
        star_of := fun _ h => h.star
        of_occursIn := fun _ _ h hp => h.vulnerable hp
        exists_repetition := Pattern.exists_repetition_of_vulnerable }

end Backtracking
