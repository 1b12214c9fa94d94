/-!
# Counting the steps of a check

A check counts every edge that it follows.  A limit on the steps stops it at the first
edge beyond the limit.
-/

namespace Backtracking

/-- A check would need more steps than this limit. -/
structure Exhausted where
  limit : Nat
  deriving DecidableEq

/-- The number of steps after one more, if the limit allows one more. -/
def spend (limit : Option Nat) (steps : Nat) : Except Exhausted Nat :=
  match limit with
  | some limit => if steps < limit then .ok (steps + 1) else .error { limit }
  | none => .ok (steps + 1)

end Backtracking
