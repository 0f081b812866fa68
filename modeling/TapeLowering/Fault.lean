/-!
# Faults

The ways in which a single command of a program can fail while it runs. A fault about a cell
names the cell by its index on the tape.
-/

namespace TapeLowering

/-- A failure of one command. -/
inductive Fault where
  /-- The cell to decrement holds zero. -/
  | decrementOfZero (cell : Nat)
  /-- The pointer stands on the first cell and is to move left. -/
  | leftOfOrigin
  /-- A value is to be read and no input is left. -/
  | inputExhausted
  /-- The bracket to jump from has no partner. -/
  | unmatchedBracket
  /-- The cell to increment holds the greatest value. -/
  | cellOverflow (cell : Nat)
  deriving Repr, DecidableEq

end TapeLowering
