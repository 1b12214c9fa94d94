import Backtracking.Proofs.Exponential
import Backtracking.Proofs.Shifting

/-!
# What a witness shows

A witness names a state and two walks from it back to it over one word.  The walks are what they
are said to be, and there is no better witness: no smaller state has such walks and counts, and
no two such walks at its state are shorter.

**Closed walks.**  A closed walk can be repeated, so the run behind its last character goes on at
its beginning (`Nfa.ClosedWalk`).  At a state that the edge of a character enters, the closed
walks that consume something are the journeys from the state back to it
(`Nfa.readsTwice_iff_doubles`), and so nothing that a check leaves out is lost.

**Results.**
* `Nfa.state_le_of_check`, `Nfa.length_le_of_check`: no smaller state, no shorter word.
* `Compiler.genuine_of_check`: the walks of a witness.
* `Compiler.isLeast_of_check`: its state and the length of its word are the least there are.
-/

namespace Backtracking
namespace Nfa

variable {nfa : Nfa} {lo hi : StateId} {q : StateId} {word : List Char}
variable {ts : List Transition} {limits : CheckLimits} {w : Witness}

/-- The transitions lead from the state back to it over the word.  No anchor is crossed, and no
state is visited twice between two consumed characters, also where the walk is repeated. -/
structure ClosedWalk (nfa : Nfa) (q : StateId) (word : List Char) (ts : List Transition) :
    Prop where
  walk : nfa.Walk q ts q
  anchorFree : AnchorFree ts
  word_eq : consumedWord ts = word
  simple : RunsSimple (ts ++ ts)

/-- Two different closed walks from the state consume the word. -/
def ReadsTwice (nfa : Nfa) (q : StateId) (word : List Char) : Prop :=
  word ≠ [] ∧ ∃ c₁ c₂, c₁ ≠ c₂ ∧ nfa.ClosedWalk q word c₁ ∧ nfa.ClosedWalk q word c₂

theorem Journey.closedWalk {ρ : List Route} (h : nfa.Journey q ρ q) :
    nfa.ClosedWalk q (ρ.map Route.letter) (legs ρ) :=
  ⟨h.walk, h.anchorFree, h.consumedWord_legs, legs_append ρ ρ ▸ (h.append h).runsSimple⟩

/-- Into a state that the edge of a character enters, a closed walk comes with a character. -/
theorem ClosedWalk.exists_last (hn : nfa.Shaped lo hi) (hq : q ∈ nfa.entered)
    (h : nfa.ClosedWalk q word ts) (hword : word ≠ []) :
    ∃ before t, ts = before ++ [t] ∧ t.consumes = true := by
  obtain ⟨-, s, a, harc⟩ := (mem_entered_iff nfa q).mp hq
  rcases List.eq_nil_or_concat ts with rfl | ⟨before, t, rfl⟩
  · exact absurd h.word_eq.symm hword
  · rw [List.concat_eq_append]
    have hwalk := h.walk
    rw [List.concat_eq_append] at hwalk
    have ht := hwalk.arc t (by simp)
    obtain ⟨m, -, hlast⟩ := walk_append_iff.mp hwalk
    obtain ⟨-, -, rfl⟩ := walk_singleton_iff.mp hlast
    exact ⟨before, t, rfl, consumes_of_label_eq_char (hn.entry harc ht).2⟩

/-- Such a walk is the walk of a journey. -/
theorem ClosedWalk.exists_journey (hn : nfa.Shaped lo hi) (hq : q ∈ nfa.entered)
    (h : nfa.ClosedWalk q word ts) (hword : word ≠ []) :
    ∃ ρ, nfa.Journey q ρ q ∧ legs ρ = ts := by
  obtain ⟨before, t, rfl, ht⟩ := h.exists_last hn hq hword
  obtain ⟨m, -, hlast⟩ := walk_append_iff.mp h.walk
  obtain ⟨-, -, rfl⟩ := walk_singleton_iff.mp hlast
  refine exists_journey_of_walk h.walk h.anchorFree ht ?_ (by simp [ht])
  refine RunsSimple.of_append_append before [] ?_
  simpa using h.simple

/-- What can be read twice is what doubles. -/
theorem readsTwice_iff_doubles (hn : nfa.Shaped lo hi) (hq : q ∈ nfa.entered) :
    nfa.ReadsTwice q word ↔ nfa.Doubles q word := by
  constructor
  · rintro ⟨hword, c₁, c₂, hne, h₁, h₂⟩
    obtain ⟨ρ, hρ, rfl⟩ := h₁.exists_journey hn hq hword
    obtain ⟨σ, hσ, rfl⟩ := h₂.exists_journey hn hq hword
    refine ⟨ρ, σ, fun heq => hne (congrArg legs heq), hρ, hσ, ?_, ?_⟩
    · rw [← hρ.consumedWord_legs, h₁.word_eq]
    · rw [← hσ.consumedWord_legs, h₂.word_eq]
  · intro h
    have hword := h.ne_nil
    obtain ⟨ρ, σ, hne, hρ, hσ, hρw, hσw⟩ := h
    refine ⟨hword, legs ρ, legs σ, fun heq => hne (hρ.eq_of_legs_eq hσ heq), ?_, ?_⟩
    · exact hρw ▸ hρ.closedWalk
    · exact hσw ▸ hσ.closedWalk

/-- A check reports the first state at which a word doubles and that counts. -/
theorem state_le_of_check (hn : nfa.Shaped lo hi) (hcheck : nfa.check limits = .ok (some w))
    (hq : q ∈ nfa.entered) (hstrand : nfa.CanStrand q) (hdoubles : nfa.Doubles q word) :
    w.state ≤ q := by
  obtain ⟨before, s, after, hsplit, hbefore, _, _, tw, -, -, rfl⟩ :=
    exists_twinCycles_of_check hcheck
  change s ≤ q
  by_contra hlt
  have hsorted := StateSet.pairwise_toList nfa.entered
  have hmem := Std.ExtTreeSet.mem_toList.mpr hq
  rw [hsplit] at hsorted hmem
  obtain ⟨-, htail, -⟩ := List.pairwise_append.mp hsorted
  have hlater := (List.pairwise_cons.mp htail).1
  have hearlier : q ∈ before := by
    rcases List.mem_append.mp hmem with h | h
    · exact h
    · rcases List.mem_cons.mp h with rfl | h
      · exact absurd le_rfl hlt
      · exact absurd (hlater q h).le hlt
  obtain ⟨n, n', hnone⟩ := hbefore q hearlier hstrand
  obtain ⟨ρ, σ, hne, hρ, hσ, hρw, hσw⟩ := hdoubles
  exact hne (hρ.eq_of_twinCycles_eq_none hn hq hnone hσ (hρw.trans hσw.symm))

/-- A check reports one of the shortest words that double at its state. -/
theorem length_le_of_check (hn : nfa.Shaped lo hi) (hcheck : nfa.check limits = .ok (some w))
    (hdoubles : nfa.Doubles w.state word) : w.word.length ≤ word.length := by
  have hent := (doubles_of_check hn hcheck).1
  obtain ⟨before, s, after, -, -, n, n', tw, htw, -, rfl⟩ := exists_twinCycles_of_check hcheck
  obtain ⟨ρ, σ, hne, hρ, hσ, rfl, hσw⟩ := hdoubles
  obtain ⟨v, hv, hhere, hlength⟩ := exists_joined hn hent hρ hσ hσw.symm
  rw [decide_eq_true hne] at hhere
  obtain ⟨hjoined, -⟩ := RouteTable.joined_of_twinCycles htw
  obtain ⟨τ, -, hfirst, -, hτ, -, -, -, hτlength⟩ := journeys_of_joined hn hjoined
  calc (consumedWord tw.first).length
      = tw.trail.length := by rw [hfirst, hτ.consumedWord_legs, List.length_map, hτlength]
    _ ≤ v.trail.length := RouteTable.length_le_of_twinCycles htw hv hhere
    _ = (ρ.map Route.letter).length := by rw [hlength, List.length_map]

/-- A state that a check can report: a character enters it, it is reached from the start, it
reads some word twice, and the automaton can get stuck behind it. -/
structure Suspect (nfa : Nfa) (q : StateId) : Prop where
  reached : nfa.Reaches nfa.start q
  entered : ∃ s a, nfa.Arc s (.char a) q
  readsTwice : ∃ word, nfa.ReadsTwice q word
  canStrand : nfa.CanStrand q

theorem Suspect.mem_entered (h : nfa.Suspect q) : q ∈ nfa.entered :=
  (mem_entered_iff nfa q).mpr ⟨h.reached, h.entered⟩

theorem suspect_of_check (hn : nfa.Shaped lo hi) (hcheck : nfa.check limits = .ok (some w)) :
    nfa.Suspect w.state := by
  obtain ⟨hent, hdoubles⟩ := doubles_of_check hn hcheck
  obtain ⟨hreach, hinto⟩ := (mem_entered_iff nfa _).mp hent
  exact ⟨hreach, hinto, ⟨w.word, (readsTwice_iff_doubles hn hent).mpr hdoubles⟩,
    (exists_journeys_of_check hn hcheck).2.1⟩

end Nfa

/-- The walks of the witness are two different closed walks from its state over its word, both
with a character at their end. -/
structure Witness.Genuine (nfa : Nfa) (w : Witness) : Prop where
  reached : nfa.Reaches nfa.start w.state
  word_ne_nil : w.word ≠ []
  first_ne_second : w.first ≠ w.second
  closed : ∀ ts ∈ [w.first, w.second], nfa.ClosedWalk w.state w.word ts
  last_consumes : ∀ ts ∈ [w.first, w.second],
    ∃ before t a, ts = before ++ [t] ∧ t.label = .char a

namespace Compiler

variable {c c' : Compiler} {p : Pattern} {nfa : Nfa} {limits : CheckLimits} {w : Witness}

/-- Whatever the limit is, the witness of a compiled tree is genuine. -/
theorem genuine_of_check
    (hok : c.compileTree p = .ok (nfa, c')) (hcheck : nfa.check limits = .ok (some w)) :
    w.Genuine nfa := by
  have hn := shaped_of_compileTree hok
  obtain ⟨hent, -, ρ, σ, hfirst, hsecond, hne, hρ, hσ, hρw, hσw⟩ :=
    Nfa.exists_journeys_of_check hn hcheck
  have hword := (Nfa.doubles_of_check hn hcheck).2.ne_nil
  have hclosed : ∀ ts ∈ [w.first, w.second], nfa.ClosedWalk w.state w.word ts := by
    intro ts hts
    rcases List.mem_pair.mp hts with rfl | rfl
    · rw [hfirst, ← hρw]
      exact hρ.closedWalk
    · rw [hsecond, ← hσw]
      exact hσ.closedWalk
  refine ⟨((Nfa.mem_entered_iff nfa _).mp hent).1, hword, ?_, hclosed, fun ts hts => ?_⟩
  · rw [hfirst, hsecond]
    exact fun heq => hne (hρ.eq_of_legs_eq hσ heq)
  · obtain ⟨before, t, heq, ht⟩ := (hclosed ts hts).exists_last hn hent hword
    obtain ⟨a, ha⟩ := label_eq_char_of_consumes ht
    exact ⟨before, t, a, heq, ha⟩

/-- The witness of `(a|aa)*b` repeats `aaa`. -/
theorem genuine_of_one_or_two_letters :
    ∃ nfa c' w, Compiler.compileTree {} (.sequence [.star (.group (.either (.literal 'a')
        (.sequence [.literal 'a', .literal 'a']))), .literal 'b']) = .ok (nfa, c') ∧
      nfa.check { maxSteps := some 100 } = .ok (some w) ∧ w.word = ['a', 'a', 'a'] ∧
      w.Genuine nfa := by
  obtain ⟨nfa, c', v, hok, hcheck, w, rfl, hword⟩ := exists_check_of_decide
    (Compiler.compileTree {} (.sequence [.star (.group (.either (.literal 'a')
      (.sequence [.literal 'a', .literal 'a']))), .literal 'b'])) { maxSteps := some 100 }
    (fun _ v => ∃ w ∈ v, w.word = ['a', 'a', 'a']) (by decide +kernel)
  exact ⟨nfa, c', w, hok, hcheck, hword, genuine_of_check hok hcheck⟩

/-- The state of a witness is the least of those that a check can report, and no word that is
read twice there is shorter than its word. -/
theorem isLeast_of_check
    (hok : c.compileTree p = .ok (nfa, c')) (hcheck : nfa.check limits = .ok (some w)) :
    IsLeast {q | nfa.Suspect q} w.state ∧
      IsLeast {n | ∃ word, nfa.ReadsTwice w.state word ∧ word.length = n} w.word.length := by
  have hn := shaped_of_compileTree hok
  obtain ⟨hent, hdoubles⟩ := Nfa.doubles_of_check hn hcheck
  have htwice : ∀ {q word}, q ∈ nfa.entered → (nfa.ReadsTwice q word ↔ nfa.Doubles q word) :=
    fun hq => Nfa.readsTwice_iff_doubles hn hq
  refine ⟨⟨Nfa.suspect_of_check hn hcheck, fun q hq => ?_⟩,
    ⟨w.word, (htwice hent).mpr hdoubles, rfl⟩, ?_⟩
  · obtain ⟨word, hword⟩ := hq.readsTwice
    exact Nfa.state_le_of_check hn hcheck hq.mem_entered hq.canStrand
      ((htwice hq.mem_entered).mp hword)
  · rintro n ⟨word, hword, rfl⟩
    exact Nfa.length_le_of_check hn hcheck ((htwice hent).mp hword)

/-- No word of one or two letters is read twice at the witness of `(a|ab|b)*c`. -/
theorem isLeast_of_three_letters :
    ∃ nfa c' w, Compiler.compileTree {} (.sequence [.star (.group (.either (.literal 'a')
        (.either (.sequence [.literal 'a', .literal 'b']) (.literal 'b')))), .literal 'c']) =
        .ok (nfa, c') ∧
      nfa.check { maxSteps := none } = .ok (some w) ∧ w.word.length = 3 ∧
      IsLeast {q | nfa.Suspect q} w.state ∧
      IsLeast {n | ∃ word, nfa.ReadsTwice w.state word ∧ word.length = n} w.word.length := by
  obtain ⟨nfa, c', v, hok, hcheck, w, rfl, hword⟩ := exists_check_of_decide
    (Compiler.compileTree {} (.sequence [.star (.group (.either (.literal 'a')
      (.either (.sequence [.literal 'a', .literal 'b']) (.literal 'b')))), .literal 'c']))
    { maxSteps := none } (fun _ v => ∃ w ∈ v, w.word.length = 3) (by decide +kernel)
  exact ⟨nfa, c', w, hok, hcheck, hword, isLeast_of_check hok hcheck⟩

end Compiler

end Backtracking
