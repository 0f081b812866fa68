import TapeLowering.Machine.Basic

/-!
# The machine in place

The machine as a record of variables that its operations write one after the other. An operation that
fails may have written some of them before, and what it has written stays. So it has to be shown that it
has written nothing, while for `State.step`, which has a next state or an error, there is nothing to
show.

Every operation does what `State.step` and its parts do, with the cells of the tape in one list, the
outputs in the order they were written, and a loop that runs the machine as long as a step is due.
-/

namespace TapeLowering

/-- The variables of a machine. -/
structure Machine where
  /-- The materialized cells of the tape. -/
  values : List Cell := [0]
  /-- The index of the cell under the pointer. -/
  pointer : Nat := 0
  /-- The inputs not read yet, the next one first. -/
  inputs : List Cell := []
  /-- The outputs in the order they were written. -/
  outputs : List Cell := []
  /-- The position of the program that is obeyed next. -/
  counter : Nat := 0
  /-- The number of steps done. -/
  steps : Nat := 0
  deriving Repr, DecidableEq

namespace Machine

/-- Operations on a machine that may fail, and do not take back what they have written by then. -/
abbrev Attempt (ε : Type) : Type → Type := ExceptT ε (StateM Machine)

/-- Calls an operation: its result, and the machine after the call. -/
def Attempt.on {ε α : Type} (x : Attempt ε α) (m : Machine) : Except ε α × Machine := x.run.run m

section Laws

variable {ε ε' α β : Type} (m : Machine)

@[simp] theorem Attempt.on_pure (a : α) : Attempt.on (pure a : Attempt ε α) m = (.ok a, m) := rfl

/-- An attempt that throws fails, and keeps what has been written before. -/
@[simp] theorem Attempt.on_throw (e : ε) : Attempt.on (throw e : Attempt ε α) m = (.error e, m) := rfl

@[simp] theorem Attempt.on_get : Attempt.on (get : Attempt ε Machine) m = (.ok m, m) := rfl

@[simp] theorem Attempt.on_modify (f : Machine → Machine) :
    Attempt.on (modify f : Attempt ε PUnit) m = (.ok ⟨⟩, f m) := rfl

@[simp] theorem Attempt.on_modifyGet (f : Machine → α × Machine) :
    Attempt.on (modifyGet f : Attempt ε α) m = (.ok (f m).1, (f m).2) := rfl

@[simp] theorem Attempt.on_ite (c : Prop) [Decidable c] (x y : Attempt ε α) :
    Attempt.on (if c then x else y) m = if c then x.on m else y.on m := by
  split <;> rfl

/-- What comes behind an operation that fails is not called. -/
@[simp] theorem Attempt.on_bind (x : Attempt ε α) (k : α → Attempt ε β) :
    Attempt.on (x >>= k) m = match x.on m with
      | (.ok a, m₁) => (k a).on m₁
      | (.error e, m₁) => (.error e, m₁) := by
  simp only [Attempt.on, ExceptT.run_bind, StateT.run_bind]
  rcases StateT.run (ExceptT.run x) m with ⟨_ | _, m₁⟩ <;> rfl

/-- Another kind of error changes nothing of the machine. -/
@[simp] theorem Attempt.on_adapt (f : ε → ε') (x : Attempt ε α) :
    Attempt.on (ExceptT.adapt f x : Attempt ε' α) m = ((x.on m).1.mapError f, (x.on m).2) := rfl

end Laws

/-- The cell under the pointer. -/
def current (m : Machine) : Cell := m.values.getD m.pointer 0

/-- Overwrites the cell under the pointer. -/
def put (value : Cell) (m : Machine) : Machine := { m with values := m.values.set m.pointer value }

/-- Moves the pointer to the right, and materializes the cell there if need be. -/
def right : Attempt Fault Unit := do
  modify fun m => { m with pointer := m.pointer + 1 }
  let m ← get
  if m.pointer = m.values.length then
    modify fun m => { m with values := m.values ++ [0] }

/-- Moves the pointer to the left, and drops the cell it leaves if that is the last one and zero. -/
def left : Attempt Fault Unit := do
  let m ← get
  if m.pointer = 0 then
    throw .leftOfOrigin
  if m.pointer = m.values.length - 1 ∧ m.current = 0 then
    modify fun m => { m with values := m.values.dropLast }
  modify fun m => { m with pointer := m.pointer - 1 }

/-- Adds one to the cell under the pointer. -/
def increment : Attempt Fault Unit := do
  let m ← get
  match m.current.succ? with
  | some value => modify (put value)
  | none => throw (.cellOverflow m.pointer)

/-- Takes one from the cell under the pointer. -/
def decrement : Attempt Fault Unit := do
  let m ← get
  match m.current.pred? with
  | some value => modify (put value)
  | none => throw (.decrementOfZero m.pointer)

/-- Takes the next input off the queue. -/
def pop : Attempt Fault (Option Cell) :=
  modifyGet fun m => (m.inputs.head?, { m with inputs := m.inputs.tail })

/-- Stores the next input in the cell under the pointer. -/
def read : Attempt Fault Unit := do
  match ← pop with
  | some value => modify (put value)
  | none => throw .inputExhausted

/-- Outputs the cell under the pointer. -/
def write : Attempt Fault Unit := modify fun m => { m with outputs := m.outputs ++ [m.current] }

/-- Moves the counter to the partner of the bracket under it. -/
def jump (partner : Nat → Option Nat) : Attempt Fault Unit := do
  let m ← get
  match partner m.counter with
  | some position => modify fun m => { m with counter := position }
  | none => throw .unmatchedBracket

/-- Performs one action. -/
def perform : Action → Attempt Fault Unit
  | .right => right
  | .left => left
  | .increment => increment
  | .decrement => decrement
  | .read => read
  | .write => write

/-- Obeys the symbol under the counter, or the absence of one. -/
def obey (p : Program) : Option Symbol → Attempt Fault Unit
  | none => pure ()
  | some (.act action) => perform action
  | some .loopStart => do if (← get).current = 0 then jump p.closing?
  | some .loopEnd => do if (← get).current ≠ 0 then jump p.opening?

/-- Moves on to the next position, and counts the step. -/
def advance (m : Machine) : Machine := { m with counter := m.counter + 1, steps := m.steps + 1 }

/-- Executes the position under the counter; does nothing once the machine has halted. -/
def step (p : Program) : Attempt ExecutionError Unit := do
  let position := (← get).counter
  match p[position]? with
  | none => pure ()
  | some byte =>
    ExceptT.adapt (.fault position) (obey p (Symbol.ofByte? byte))
    modify advance

/-- Whether the whole program has been executed. -/
def isHalted (p : Program) (m : Machine) : Bool := m.counter == p.size

/-- The limit, if the steps done have reached it. -/
def exceeded? (m : Machine) (limit : Option Nat) : Option Nat := limit.filter (· ≤ m.steps)

/-- The machine after one more call of a step, whether that succeeds or fails. -/
def next (p : Program) (m : Machine) : Machine := ((step p).on m).2

/-- A call that runs a machine to its end returns with a result, and leaves the machine in a state. As
long as the machine has not halted, the limit is looked at, and then a step is done. -/
inductive Returns (p : Program) (limit : Option Nat) :
    Machine → Except ExecutionError Unit → Machine → Prop where
  | halted {m : Machine} : m.isHalted p = true → Returns p limit m (.ok ()) m
  | exceeded {m : Machine} {most : Nat} : m.isHalted p = false → m.exceeded? limit = some most →
      Returns p limit m (.error (.stepLimitExceeded most)) m
  | failed {m m' : Machine} {e : ExecutionError} : m.isHalted p = false →
      m.exceeded? limit = none → (step p).on m = (.error e, m') → Returns p limit m (.error e) m'
  | next {m m₁ m' : Machine} {result : Except ExecutionError Unit} : m.isHalted p = false →
      m.exceeded? limit = none → (step p).on m = (.ok (), m₁) → Returns p limit m₁ result m' →
      Returns p limit m result m'

/-- A machine that has not halted does a number of steps, none of which fails. -/
inductive Does (p : Program) : Nat → Machine → Machine → Prop where
  | none {m : Machine} : Does p 0 m m
  | more {k : Nat} {m m₁ m' : Machine} : m.isHalted p = false → (step p).on m = (.ok (), m₁) →
      Does p k m₁ m' → Does p (k + 1) m m'

/-- The machines that come about by any mix of single steps and calls that run the machine to its end,
whether they succeed or fail. -/
inductive Reached (p : Program) (limit : Option Nat) (inputs : List Cell) : Machine → Prop where
  | start : Reached p limit inputs { inputs }
  | step {m : Machine} : Reached p limit inputs m → Reached p limit inputs (m.next p)
  | run {m m' : Machine} {result : Except ExecutionError Unit} : Reached p limit inputs m →
      Returns p limit m result m' → Reached p limit inputs m'

end Machine

end TapeLowering
