import TapeLowering.Machine.Program
import TapeLowering.Workspace

/-!
# The machine

A machine runs a program one position at a time. A byte of a comment does nothing but take a step
like any symbol. A bracket that jumps goes to its partner and execution continues behind it, so
the partner itself is not obeyed. The machine has halted once its counter is at the end of the
program, and from then on a step changes nothing.

`State.step` has a next state or an error, never both: a step that fails changes nothing.
-/

namespace TapeLowering

/-- Why a run was stopped. -/
inductive ExecutionError where
  /-- The command at a position of the program failed. -/
  | fault (position : Nat) (fault : Fault)
  /-- The program was not done within a number of steps. -/
  | stepLimitExceeded (limit : Nat)
  deriving Repr, DecidableEq

/-- The text that reports an error. -/
def ExecutionError.message : ExecutionError → String
  | fault position (.decrementOfZero cell) =>
    s!"decrement of zero cell {cell} at instruction {position}"
  | fault position .leftOfOrigin => s!"move left of the tape origin at instruction {position}"
  | fault position .inputExhausted => s!"read with no input left at instruction {position}"
  | fault position .unmatchedBracket => s!"unmatched bracket at instruction {position}"
  | fault position (.cellOverflow cell) => s!"overflow of cell {cell} at instruction {position}"
  | stepLimitExceeded limit => s!"step limit of {limit} exceeded"

/-- A machine between two steps. -/
structure State extends Workspace where
  /-- The position of the program that is obeyed next. -/
  counter : Nat := 0
  /-- The number of steps done. -/
  steps : Nat := 0
  deriving Repr, DecidableEq

namespace State

/-- The machine before its first step. -/
def start (inputs : List Cell) : State := { inputs }

/-- Whether the whole program has been executed. -/
def isHalted (p : Program) (s : State) : Bool := s.counter == p.size

/-- The state with another workspace. -/
def withWorkspace (s : State) (w : Workspace) : State := { s with toWorkspace := w }

/-- Moves the counter to the partner of the bracket under it. -/
def jump (s : State) : Option Nat → Except Fault State
  | some partner => .ok { s with counter := partner }
  | none => .error .unmatchedBracket

/-- Obeys the symbol under the counter, or the absence of one. -/
def obey (p : Program) (s : State) : Option Symbol → Except Fault State
  | none => .ok s
  | some (.act action) => (s.toWorkspace.perform action).map s.withWorkspace
  | some .loopStart => if s.isZero then s.jump (p.closing? s.counter) else .ok s
  | some .loopEnd => if s.isZero then .ok s else s.jump (p.opening? s.counter)

/-- Moves on to the next position, and counts the step. -/
def advance (s : State) : State := { s with counter := s.counter + 1, steps := s.steps + 1 }

/-- Executes the position under the counter; does nothing once the machine has halted. -/
def step (p : Program) (s : State) : Except ExecutionError State :=
  match p[s.counter]? with
  | none => .ok s
  | some byte =>
    match s.obey p (Symbol.ofByte? byte) with
    | .ok next => .ok next.advance
    | .error fault => .error (.fault s.counter fault)

/-- A machine that has halted stays as it is. -/
theorem step_of_isHalted {p : Program} {s : State} (h : s.isHalted p) : s.step p = .ok s := by
  have hc : s.counter = p.size := by simpa [isHalted] using h
  simp [step, hc]

end State

end TapeLowering
