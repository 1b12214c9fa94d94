/-!
# Giving up

An exhaustive search or a check may be too long to be finished.  Limits cut it short;
an answer that was cut short is an error, not a negative answer.
-/

namespace Backtracking

/-- Why a search or a check has no answer. -/
inductive LimitError
  /-- More rounds would be needed than the limit allows. -/
  | rounds (limit : Nat)
  /-- More paths, or steps of a check, would be needed than the limit allows. -/
  | paths (limit : Nat)
  /-- Nothing limits the search, looped paths are kept, and one of them goes on for ever. -/
  | endless
  deriving DecidableEq

/-- The wording of the cause. -/
def LimitError.message : LimitError → String
  | .rounds limit => s!"search limit exceeded: more than {limit} rounds"
  | .paths limit => s!"search limit exceeded: more than {limit} paths"
  | .endless => "search never ends"

end Backtracking
