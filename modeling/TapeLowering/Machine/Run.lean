import TapeLowering.Machine.Basic

/-!
# Runs

A run repeats the step of a machine until it halts, fails or reaches a limit on its steps. The
limit is on the count of steps that the machine has done, also before the run, and it is looked at
only when another step is due: a program that halts in exactly `limit` steps is not cut off.

A program need not halt, so a run is given the number of steps it may do, and what it has reached
by then can be run further.
-/

namespace TapeLowering

/-- How far a run has come. -/
inductive Progress where
  /-- The program has been executed. -/
  | halted (state : State)
  /-- An error stopped the machine in a state. -/
  | failed (error : ExecutionError) (state : State)
  /-- Another step is due. -/
  | running (state : State)
  deriving Repr, DecidableEq

namespace Progress

/-- The state that a run has reached. -/
def state : Progress → State
  | halted s | failed _ s | running s => s

/-- The error that stopped a run. -/
def error? : Progress → Option ExecutionError
  | failed e _ => some e
  | halted _ | running _ => none

end Progress

namespace State

/-- The limit, if the steps done have reached it. -/
def exceeded? (s : State) (limit : Option Nat) : Option Nat := limit.filter (· ≤ s.steps)

/-- Runs a program for at most a number of steps. -/
def run (p : Program) (limit : Option Nat) (fuel : Nat) (s : State) : Progress :=
  if s.isHalted p then .halted s
  else match s.exceeded? limit with
    | some limit => .failed (.stepLimitExceeded limit) s
    | none => match fuel with
      | 0 => .running s
      | fuel + 1 => match s.step p with
        | .ok next => next.run p limit fuel
        | .error e => .failed e s

end State

end TapeLowering
