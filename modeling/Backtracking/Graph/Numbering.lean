import Backtracking.Graph.Basic

/-!
# Numbering states

States are numbered in the order in which they are made.  A number is given out once,
until the numbering is started over.

**Width.**  Numbers are kept in 32 bits.  `Numbering.mint` goes on for ever and is what the
constructions are reasoned about with; `Numbering.mintWithin` is the counter of that width.  When
it has no next number, a build of the program that checks its arithmetic stops, and one that does
not starts over unasked (`Overflow`).
-/

namespace Backtracking

/-- A source of fresh state numbers, known by the next one. -/
structure Numbering where
  next : StateId := 0
  deriving DecidableEq

/-- What becomes of the program when a number no longer fits. -/
inductive Overflow
  /-- The program stops. -/
  | stops
  /-- The numbers start over. -/
  | wraps
  deriving DecidableEq

namespace Numbering

/-- A fresh number, and the source without it. -/
def fresh (n : Numbering) : StateId × Numbering :=
  (n.next, { next := n.next + 1 })

/-- How many numbers have been given out. -/
def issued (n : Numbering) : Nat :=
  n.next

/-- Starts the numbering over. -/
def reset (_ : Numbering) : Numbering :=
  {}

/-- How many numbers 32 bits can tell apart. -/
def capacity : Nat :=
  UInt32.size

/-- A fresh number of 32 bits.  The next one is computed along with it, so that the last number
that fits is not given out where the program stops. -/
def freshWithin (onOverflow : Overflow) (n : Numbering) : Option (StateId × Numbering) :=
  if n.next + 1 < capacity then
    some n.fresh
  else
    match onOverflow with
    | .stops => none
    | .wraps => some (n.next, { next := (n.next + 1) % capacity })

/-- Takes a fresh number. -/
def mint {m : Type → Type} [Monad m] : StateT Numbering m StateId :=
  fun n => pure n.fresh

/-- Takes a fresh number of 32 bits. -/
def mintWithin (onOverflow : Overflow) : StateT Numbering Option StateId :=
  fun n => n.freshWithin onOverflow

end Numbering

end Backtracking
