import Backtracking.Proofs.Printing
import Backtracking.Proofs.Spans

/-!
# Patterns between anchors

A pattern that stands as a group between a start anchor and an end anchor matches a text as a
whole or not at all.

**Reading.**  The text is kept as it is written: in the tree of the whole, the group holds the
tree that the text has on its own, whatever alternatives or anchors are in it.

**Matching.**  The anchors leave one span, that of the whole text, and the group matches there
exactly if the pattern on its own does.  A search and an automaton that carries sets of states
through the text agree on that.

**Results.**
* `Pattern.parse_anchored`: the tree of the text between anchors.
* `Pattern.matches_anchored_iff`: where it matches.
* `Compiler.exists_compile_anchored`: the spans of its searches.
-/

namespace Backtracking
namespace Pattern

/-- The pattern as a group between a start anchor and an end anchor. -/
def anchored (p : Pattern) : Pattern :=
  sequence [literal '^', group p, literal '$']

theorem text_anchored (p : Pattern) : p.anchored.text = ['^', '('] ++ p.text ++ [')', '$'] := by
  simp [anchored, text, text.textAll]

theorem IsExpression.anchored {p : Pattern} (h : p.IsExpression) : p.anchored.IsExpression := by
  have hstart : (literal '^').IsItem := .atom (.literal (by decide))
  have hend : (literal '$').IsItem := .atom (.literal (by decide))
  have hgroup : (group p).IsItem := .atom (.group h)
  exact .sequence (.items (by simp) (by simp [hstart, hgroup, hend]))

/-- A text between anchors is read as the tree of the text between anchors. -/
theorem parse_anchored {text : List Char} {p : Pattern} (h : parse text = .ok p) :
    parse (['^', '('] ++ text ++ [')', '$']) = .ok p.anchored := by
  obtain ⟨hp, rfl⟩ := parse_eq_ok_iff.mp h
  rw [← text_anchored]
  exact hp.anchored.parse_text

/-- Between anchors a pattern matches the whole text if it matches at all. -/
theorem matches_anchored_iff (p : Pattern) (word : List Char) (i j : Nat) :
    p.anchored.Matches word i j ↔
      i = 0 ∧ j = word.length ∧ p.Matches word 0 word.length := by
  simp only [anchored, Matches, Matches.matchesAll, MatchesLiteral, Relation.Comp]
  constructor
  · rintro ⟨k, hstart, m, hmatch, n, hend, rfl⟩
    obtain ⟨rfl, rfl⟩ : i = 0 ∧ k = 0 := by simpa using hstart
    obtain ⟨rfl, rfl⟩ : m = word.length ∧ n = word.length := by simpa using hend
    exact ⟨rfl, rfl, hmatch⟩
  · rintro ⟨rfl, rfl, hmatch⟩
    exact ⟨0, by simp, word.length, hmatch, word.length, by simp, rfl⟩

end Pattern

namespace Nfa

variable {p : Pattern} {next next' hi hi' : StateId} {nfa whole : Nfa} {word : List Char}
variable {limits : SearchLimits} {report : Report}

/-- A search between anchors that ends sees the whole text or nothing. -/
theorem mem_spans_anchored_iff (hok : p.build next = .ok (nfa, hi))
    (hwhole : p.anchored.build next' = .ok (whole, hi'))
    (hsearch : whole.search word limits = .ok report) (s : Span) :
    s ∈ report.spans ↔ s = { start := 0, stop := word.length } ∧ nfa.accepts word = true := by
  rw [mem_spans_iff (Pattern.fragment_of_build hwhole).shaped hsearch,
    Pattern.traverses_iff_matches p.anchored hwhole, Pattern.matches_anchored_iff,
    Pattern.accepts_iff_matches hok]
  constructor
  · rintro ⟨-, hstart, hstop, hmatch⟩
    refine ⟨?_, hmatch⟩
    rw [← hstart, ← hstop]
  · rintro ⟨rfl, hmatch⟩
    exact ⟨Nat.zero_le _, rfl, rfl, hmatch⟩

theorem spans_anchored (hok : p.build next = .ok (nfa, hi))
    (hwhole : p.anchored.build next' = .ok (whole, hi'))
    (hsearch : whole.search word limits = .ok report) :
    report.spans = if nfa.accepts word then {{ start := 0, stop := word.length }} else ∅ := by
  refine Std.ExtTreeSet.ext_mem fun s => ?_
  rw [mem_spans_anchored_iff hok hwhole hsearch]
  cases nfa.accepts word with
  | false =>
      simp
  | true =>
      simp [Std.LawfulEqCmp.compare_eq_iff_eq, @eq_comm _ s]

end Nfa

namespace Compiler

/-- If a text is a pattern, so is the text between a start anchor and an end anchor, as a group.
Every search of it that ends has the span of the whole text and no other, if the automaton of the
pattern accepts the text, and no span at all if it does not. -/
theorem exists_compile_anchored {c c' : Compiler} {text : List Char} {nfa : Nfa}
    (hok : c.compile text = .ok (nfa, c')) (d : Compiler) :
    ∃ whole d', d.compile (['^', '('] ++ text ++ [')', '$']) = .ok (whole, d') ∧
      ∀ word limits report, whole.search word limits = .ok report →
        report.spans =
          if nfa.accepts word then {{ start := 0, stop := word.length }} else ∅ := by
  obtain ⟨p, hparse, htree⟩ := exists_parse_of_compile hok
  obtain ⟨whole, d', hwhole, -⟩ := d.exists_compileTree p.anchored
  refine ⟨whole, d', ?_, fun word limits report hsearch => ?_⟩
  · rw [compile, Pattern.parse_anchored hparse]
    exact hwhole
  · exact Nfa.spans_anchored (build_of_compileTree htree) (build_of_compileTree hwhole) hsearch

/-- The whole of `bb` is matched by `a|^b*`, and the whole of `ab` is not. -/
theorem exists_compile_anchored_of_alternatives :
    ∃ nfa c' whole d', compile {} ['a', '|', '^', 'b', '*'] = .ok (nfa, c') ∧
      compile {} ['^', '(', 'a', '|', '^', 'b', '*', ')', '$'] = .ok (whole, d') ∧
      (∃ report, whole.search ['b', 'b'] = .ok report ∧
        report.spans = {{ start := 0, stop := 2 }}) ∧
      ∃ report, whole.search ['a', 'b'] = .ok report ∧ report.spans = ∅ := by
  have hcompiles : (compile {} ['a', '|', '^', 'b', '*']).toOption.isSome = true := by
    decide +kernel
  obtain ⟨⟨nfa, c'⟩, hsome⟩ := Option.isSome_iff_exists.mp hcompiles
  have hok := eq_ok_of_toOption_eq_some hsome
  have haccepts : (compile {} ['a', '|', '^', 'b', '*']).toOption.map
      (fun r => (r.1.accepts ['b', 'b'], r.1.accepts ['a', 'b'])) = some (true, false) := by
    decide +kernel
  obtain ⟨hbb, hab⟩ := Prod.mk.inj (Option.some.inj (hsome ▸ haccepts))
  obtain ⟨whole, d', hwhole, hspans⟩ := exists_compile_anchored hok {}
  have hends : (compile {} ['^', '(', 'a', '|', '^', 'b', '*', ')', '$']).toOption.map
      (fun r => ((r.1.search ['b', 'b']).toOption.isSome,
        (r.1.search ['a', 'b']).toOption.isSome)) = some (true, true) := by
    decide +kernel
  rw [show compile {} ['^', '(', 'a', '|', '^', 'b', '*', ')', '$'] = .ok (whole, d') from hwhole]
    at hends
  obtain ⟨hends, hends'⟩ := Prod.mk.inj (Option.some.inj hends)
  obtain ⟨report, hreport⟩ := Option.isSome_iff_exists.mp hends
  obtain ⟨report', hreport'⟩ := Option.isSome_iff_exists.mp hends'
  have hsearch : whole.search ['b', 'b'] = .ok report := eq_ok_of_toOption_eq_some hreport
  have hsearch' : whole.search ['a', 'b'] = .ok report' := eq_ok_of_toOption_eq_some hreport'
  refine ⟨nfa, c', whole, d', hok, hwhole, ⟨report, hsearch, ?_⟩, report', hsearch', ?_⟩
  · rw [hspans _ _ _ hsearch, hbb]
    rfl
  · rw [hspans _ _ _ hsearch', hab]
    rfl

end Compiler

end Backtracking
