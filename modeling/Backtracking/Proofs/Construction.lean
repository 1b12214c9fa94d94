import Backtracking.Proofs.Fragment

/-!
# The steps of the construction

`Pattern.build` goes through a tree and hands the numbers on from part to part.  `Pattern.Built`
says what comes out: one case for every way to put an automaton together, with the numbers that
each part has taken.  A property of compiled automata is proved by induction on it, and what the
construction does with a tree is looked up here only.

**Trees built alike.**  Some trees have the automaton of a simpler one (`Pattern.BuiltAs`): a
class is an alternative of its last member and the members in front of it, a sequence of one item
is the item, and parentheses add nothing.

**Results.**
* `Pattern.built_iff`: the construction goes by these steps and no others.
* `Pattern.exists_built`: there is always an automaton.
* `Pattern.Built.fragment`: it is assembled from atoms by the combinators.
-/

namespace Backtracking
namespace Pattern

open Nfa

variable {p q body : Pattern} {items : List Pattern}
variable {lo mid hi : StateId} {nfa first last part : Nfa}

/-- The construction makes of the first tree what it makes of the second one. -/
inductive BuiltAs : Pattern → Pattern → Prop
  | noMember : BuiltAs (oneOf []) empty
  | member (c : Char) : BuiltAs (oneOf [c]) (literal c)
  | members {chars : List Char} (hne : chars ≠ []) (c : Char) :
      BuiltAs (oneOf (chars ++ [c])) (either (oneOf chars) (literal c))
  | noItem : BuiltAs (sequence []) empty
  | item (p : Pattern) : BuiltAs (sequence [p]) p
  | group (body : Pattern) : BuiltAs (group body) body

/-- The first tree repeats the second one, which may be passed by (`skip`) or entered again
(`again`). -/
inductive Frames : Pattern → Pattern → Bool → Bool → Prop
  | star (body : Pattern) : Frames (star body) body true true
  | plus (body : Pattern) : Frames (plus body) body false true
  | optional (body : Pattern) : Frames (optional body) body true false

theorem exists_frames (hq : q = star p ∨ q = plus p) : ∃ skip, q.Frames p skip true := by
  rcases hq with rfl | rfl
  · exact ⟨true, .star p⟩
  · exact ⟨false, .plus p⟩

/-- An automaton of the tree in the numbers from `lo` to below `hi`. -/
inductive Built : Pattern → StateId → StateId → Nfa → Prop
  | empty {lo : StateId} {nfa : Nfa} (hok : atom .epsilon lo = .ok nfa) :
      Built empty lo (lo + 2) nfa
  | literal {c : Char} {lo : StateId} {nfa : Nfa} (hok : atom (.ofPatternChar c) lo = .ok nfa) :
      Built (literal c) lo (lo + 2) nfa
  | same {p q : Pattern} {lo hi : StateId} {nfa : Nfa}
      (hsame : p.BuiltAs q) (hq : Built q lo hi nfa) : Built p lo hi nfa
  | items {items : List Pattern} {p : Pattern} {lo mid hi : StateId} {first last nfa : Nfa}
      (hne : items ≠ []) (hitems : Built (sequence items) lo mid first)
      (hp : Built p mid hi last) (hok : first.chain last = .ok nfa) :
      Built (sequence (items ++ [p])) lo hi nfa
  | either {p q : Pattern} {lo mid hi : StateId} {left right nfa : Nfa}
      (hp : Built p lo mid left) (hq : Built q mid hi right)
      (hok : left.branch right hi = .ok nfa) : Built (either p q) lo (hi + 2) nfa
  | frame {p body : Pattern} {skip again : Bool} {lo hi : StateId} {part nfa : Nfa}
      (hframe : p.Frames body skip again) (hbody : Built body lo hi part)
      (hok : part.wrap hi skip again = .ok nfa) : Built p lo (hi + 2) nfa

/-- What is built is assembled from atoms. -/
theorem Built.fragment (h : p.Built lo hi nfa) : Fragment lo hi nfa := by
  induction h with
  | empty hok | literal hok =>
      exact .atom hok
  | same _ _ ih =>
      exact ih
  | items _ _ _ hok ihitems ihp =>
      exact .chain ihitems ihp hok
  | either _ _ hok ihp ihq =>
      exact .branch ihp ihq hok
  | frame _ _ hok ih =>
      exact .wrap ih hok

theorem Built.shaped (h : p.Built lo hi nfa) : nfa.Shaped lo hi :=
  h.fragment.shaped

section Existence

theorem exists_built_empty (lo : StateId) : ∃ hi nfa, empty.Built lo hi nfa := by
  obtain ⟨nfa, hok, -⟩ := exists_atom .epsilon lo
  exact ⟨_, nfa, .empty hok⟩

theorem exists_built_literal (c : Char) (lo : StateId) : ∃ hi nfa, (literal c).Built lo hi nfa := by
  obtain ⟨nfa, hok, -⟩ := exists_atom (.ofPatternChar c) lo
  exact ⟨_, nfa, .literal hok⟩

theorem Built.exists_either (hp : p.Built lo mid first) (hq : q.Built mid hi last) :
    ∃ nfa, first.branch last hi = .ok nfa ∧ (Pattern.either p q).Built lo (hi + 2) nfa := by
  obtain ⟨nfa, hok, -⟩ := exists_branch hp.fragment.start_owned hp.fragment.finish_owned
    hq.fragment.start_owned hq.fragment.finish_owned hi
  exact ⟨nfa, hok, .either hp hq hok⟩

theorem Built.exists_items (hne : items ≠ []) (hitems : (sequence items).Built lo mid first)
    (hp : p.Built mid hi last) :
    ∃ nfa, first.chain last = .ok nfa ∧ (sequence (items ++ [p])).Built lo hi nfa := by
  obtain ⟨nfa, hok, -⟩ := exists_chain hitems.fragment.finish_owned hp.fragment.start_owned
  exact ⟨nfa, hok, .items hne hitems hp hok⟩

theorem Built.exists_frame {skip again : Bool} (hframe : p.Frames body skip again)
    (hbody : body.Built lo hi part) :
    ∃ nfa, part.wrap hi skip again = .ok nfa ∧ p.Built lo (hi + 2) nfa := by
  obtain ⟨nfa, hok, -⟩ :=
    exists_wrap hbody.fragment.start_owned hbody.fragment.finish_owned hi skip again
  exact ⟨nfa, hok, .frame hframe hbody hok⟩

theorem exists_built_oneOf (members : List Char) (lo : StateId) :
    ∃ hi nfa, (oneOf members).Built lo hi nfa := by
  induction members using List.reverseRecOn with
  | nil =>
      obtain ⟨hi, nfa, h⟩ := exists_built_empty lo
      exact ⟨hi, nfa, .same .noMember h⟩
  | append_singleton members c ih =>
      by_cases hne : members = []
      · subst hne
        obtain ⟨hi, nfa, h⟩ := exists_built_literal c lo
        exact ⟨hi, nfa, .same (.member c) h⟩
      · obtain ⟨mid, left, hleft⟩ := ih
        obtain ⟨hi, right, hright⟩ := exists_built_literal c mid
        obtain ⟨nfa, -, h⟩ := hleft.exists_either hright
        exact ⟨_, nfa, .same (.members hne c) h⟩

theorem exists_built_sequence (items : List Pattern)
    (h : ∀ p ∈ items, ∀ lo, ∃ hi nfa, p.Built lo hi nfa) (lo : StateId) :
    ∃ hi nfa, (sequence items).Built lo hi nfa := by
  induction items using List.reverseRecOn with
  | nil =>
      obtain ⟨hi, nfa, h⟩ := exists_built_empty lo
      exact ⟨hi, nfa, .same .noItem h⟩
  | append_singleton items p ih =>
      obtain ⟨hitems, hp⟩ := List.forall_mem_append.mp h
      have hp := hp p (List.mem_singleton_self p)
      by_cases hne : items = []
      · subst hne
        obtain ⟨hi, nfa, h⟩ := hp lo
        exact ⟨hi, nfa, .same (.item p) h⟩
      · obtain ⟨mid, first, hfirst⟩ := ih hitems
        obtain ⟨hi, last, hlast⟩ := hp mid
        obtain ⟨nfa, -, h⟩ := hfirst.exists_items hne hlast
        exact ⟨hi, nfa, h⟩

/-- Every tree has an automaton in the numbers from any one on. -/
theorem exists_built : ∀ (p : Pattern) (lo : StateId), ∃ hi nfa, p.Built lo hi nfa
  | .empty, lo => exists_built_empty lo
  | .literal c, lo => exists_built_literal c lo
  | .oneOf members, lo => exists_built_oneOf members lo
  | .sequence items, lo => exists_built_sequence items (fun p _ lo => exists_built p lo) lo
  | .either left right, lo => by
      obtain ⟨mid, _, hleft⟩ := exists_built left lo
      obtain ⟨hi, _, hright⟩ := exists_built right mid
      obtain ⟨nfa, -, h⟩ := hleft.exists_either hright
      exact ⟨_, nfa, h⟩
  | .star body, lo => by
      obtain ⟨hi, _, hbody⟩ := exists_built body lo
      obtain ⟨nfa, -, h⟩ := hbody.exists_frame (.star body)
      exact ⟨_, nfa, h⟩
  | .plus body, lo => by
      obtain ⟨hi, _, hbody⟩ := exists_built body lo
      obtain ⟨nfa, -, h⟩ := hbody.exists_frame (.plus body)
      exact ⟨_, nfa, h⟩
  | .optional body, lo => by
      obtain ⟨hi, _, hbody⟩ := exists_built body lo
      obtain ⟨nfa, -, h⟩ := hbody.exists_frame (.optional body)
      exact ⟨_, nfa, h⟩
  | .group body, lo => by
      obtain ⟨hi, nfa, h⟩ := exists_built body lo
      exact ⟨hi, nfa, .same (.group body) h⟩

end Existence

section Equations

variable {m : Type → Type} [Monad m] [MonadLiftT (Except InvalidEdge) m] (mint : m StateId)

theorem Frames.assemble_eq {skip again : Bool} (h : p.Frames body skip again) :
    p.assemble mint = (do
      let part ← body.assemble mint
      assembleWrap mint part skip again) := by
  cases h <;> rw [assemble]

variable [LawfulMonad m]

theorem assemble_oneOf_append {members : List Char} (hne : members ≠ []) (c : Char) :
    (oneOf (members ++ [c])).assemble mint =
      (either (oneOf members) (literal c)).assemble mint := by
  obtain ⟨member, members, rfl⟩ := List.exists_cons_of_ne_nil hne
  simp only [List.cons_append, assemble, assembleClass, List.foldlM_append, List.foldlM_cons,
    List.foldlM_nil, bind_assoc, bind_pure]

theorem assemble_append_append (items : List Pattern) (p : Pattern) (soFar : Nfa) :
    assemble.append mint soFar (items ++ [p]) = (do
      let first ← assemble.append mint soFar items
      let last ← p.assemble mint
      first.chain last) := by
  induction items generalizing soFar with
  | nil =>
      simp only [List.nil_append, assemble.append, bind_pure, pure_bind]
  | cons item items ih =>
      simp only [List.cons_append, assemble.append, bind_assoc, ih]

/-- The last item of a sequence is joined last. -/
theorem assemble_sequence_append (hne : items ≠ []) (p : Pattern) :
    (sequence (items ++ [p])).assemble mint = (do
      let first ← (sequence items).assemble mint
      let last ← p.assemble mint
      first.chain last) := by
  obtain ⟨item, items, rfl⟩ := List.exists_cons_of_ne_nil hne
  simp only [List.cons_append, assemble, assemble.assembleSequence, assemble_append_append,
    bind_assoc]

theorem BuiltAs.assemble_eq (h : p.BuiltAs q) : p.assemble mint = q.assemble mint := by
  cases h with
  | noMember | noItem =>
      rfl
  | member c =>
      simp only [assemble, assembleClass, List.foldlM_nil, bind_pure]
  | members hne c =>
      exact assemble_oneOf_append mint hne c
  | item _ =>
      simp only [assemble, assemble.assembleSequence, assemble.append, bind_pure]
  | group _ =>
      rw [assemble]

end Equations

/-- The construction makes the automaton that the steps lead to. -/
theorem Built.run_assemble (h : p.Built lo hi nfa) :
    (p.assemble Numbering.mint).run { next := lo } =
      (.ok (nfa, { next := hi }) : Except InvalidEdge (Nfa × Numbering)) := by
  induction h with
  | empty hok | literal hok =>
      exact bind_eq_of_eq_ok hok
  | same hsame _ ih =>
      rw [hsame.assemble_eq, ih]
  | items hne _ _ hok ihitems ihp =>
      rw [assemble_sequence_append Numbering.mint hne]
      exact (bind_eq_of_eq_ok ihitems).trans ((bind_eq_of_eq_ok ihp).trans (bind_eq_of_eq_ok hok))
  | either _ _ hok ihp ihq =>
      exact (bind_eq_of_eq_ok ihp).trans ((bind_eq_of_eq_ok ihq).trans (bind_eq_of_eq_ok hok))
  | frame hframe _ hok ih =>
      rw [hframe.assemble_eq]
      exact (bind_eq_of_eq_ok ih).trans (bind_eq_of_eq_ok hok)

theorem Built.build_eq_ok (h : p.Built lo hi nfa) : p.build lo = .ok (nfa, hi) := by
  rw [build]
  exact bind_eq_of_eq_ok h.run_assemble

/-- The construction goes by these steps and no others. -/
theorem built_iff : p.Built lo hi nfa ↔ p.build lo = .ok (nfa, hi) := by
  refine ⟨Built.build_eq_ok, fun hok => ?_⟩
  obtain ⟨hi', nfa', h⟩ := exists_built p lo
  obtain ⟨rfl, rfl⟩ := Prod.mk.inj (Except.ok.inj (h.build_eq_ok.symm.trans hok))
  exact h

theorem fragment_of_build (hok : p.build lo = .ok (nfa, hi)) : Fragment lo hi nfa :=
  (built_iff.mpr hok).fragment

/-- The construction never fails, and what it makes is a fragment. -/
theorem exists_build (p : Pattern) (next : StateId) :
    ∃ nfa hi, p.build next = .ok (nfa, hi) ∧ Fragment next hi nfa := by
  obtain ⟨hi, nfa, h⟩ := exists_built p next
  exact ⟨nfa, hi, h.build_eq_ok, h.fragment⟩

end Pattern

/-- The numbering goes on behind the tree. -/
theorem Compiler.compileTree_eq_ok {c : Compiler} {p : Pattern} {hi : StateId} {nfa : Nfa}
    (h : p.Built c.numbering.next hi nfa) :
    c.compileTree p = .ok (nfa, { numbering := { next := hi } }) := by
  rw [compileTree, h.build_eq_ok]

/-- A tree always has an automaton, whatever the numbering is. -/
theorem Compiler.exists_compileTree (c : Compiler) (p : Pattern) :
    ∃ nfa c', c.compileTree p = .ok (nfa, c') ∧
      Nfa.Fragment c.numbering.next c'.numbering.next nfa := by
  obtain ⟨hi, nfa, h⟩ := Pattern.exists_built p c.numbering.next
  exact ⟨nfa, _, compileTree_eq_ok h, h.fragment⟩

theorem Compiler.build_of_compileTree
    {c c' : Compiler} {p : Pattern} {nfa : Nfa} (hok : c.compileTree p = .ok (nfa, c')) :
    p.build c.numbering.next = .ok (nfa, c'.numbering.next) := by
  rw [compileTree] at hok
  split at hok
  · next hbuild =>
      obtain ⟨rfl, rfl⟩ := Prod.mk.inj (Except.ok.inj hok)
      exact hbuild
  · cases hok

theorem Compiler.built_of_compileTree
    {c c' : Compiler} {p : Pattern} {nfa : Nfa} (hok : c.compileTree p = .ok (nfa, c')) :
    p.Built c.numbering.next c'.numbering.next nfa :=
  Pattern.built_iff.mpr (build_of_compileTree hok)

/-- A text that is compiled is a pattern, and its tree is compiled. -/
theorem Compiler.exists_parse_of_compile
    {c c' : Compiler} {text : List Char} {nfa : Nfa} (hok : c.compile text = .ok (nfa, c')) :
    ∃ p, Pattern.parse text = .ok p ∧ c.compileTree p = .ok (nfa, c') := by
  rw [compile] at hok
  split at hok
  · next p hparse =>
      exact ⟨p, hparse, hok⟩
  · cases hok

theorem Compiler.shaped_of_compileTree
    {c c' : Compiler} {p : Pattern} {nfa : Nfa} (hok : c.compileTree p = .ok (nfa, c')) :
    nfa.Shaped c.numbering.next c'.numbering.next :=
  (built_of_compileTree hok).shaped

end Backtracking
