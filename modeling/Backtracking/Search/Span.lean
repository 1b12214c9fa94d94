import Std.Data.ExtTreeSet

/-!
# Spans

The part of a text between two offsets.  Spans are ordered by their start and then by
their end, and finite sets of spans are listed in this order.
-/

namespace Backtracking

/-- The characters at the offsets from `start` up to, but not including, `stop`. -/
structure Span where
  start : Nat
  stop : Nat
  deriving DecidableEq

namespace Span

/-- How many characters the span holds. -/
def length (s : Span) : Nat :=
  s.stop - s.start

/-- Whether the span ends where it starts. -/
def isEmpty (s : Span) : Bool :=
  s.start == s.stop

instance : Ord Span := ⟨compareLex (compareOn start) (compareOn stop)⟩

instance : Std.TransOrd Span :=
  inferInstanceAs (Std.TransCmp (compareLex (compareOn start) (compareOn stop)))

instance : Std.LawfulEqOrd Span where
  eq_of_compare {a b} h := by
    have both := compareLex_eq_eq.mp h
    have starts : a.start = b.start := Nat.compare_eq_eq.mp both.1
    have stops : a.stop = b.stop := Nat.compare_eq_eq.mp both.2
    cases a
    cases b
    simp_all

end Span

/-- A finite set of spans. -/
abbrev SpanSet := Std.ExtTreeSet Span

end Backtracking
