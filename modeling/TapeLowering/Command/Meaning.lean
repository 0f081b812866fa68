import TapeLowering.Command.Basic
import TapeLowering.Outcome

/-!
# The meaning of commands

What commands do, told without a tape and without a pointer: a store has a cell for every slot, a
command changes the cells of the slots it names, and a loop runs its body while its origin is not
zero. Making a slot live, or ending its life, changes no cell.

A fragment is code, and not commands, so there is no meaning of placing one here: `detach` and
`append` change nothing. Neither does `unknown`, for which there is no code.
-/

namespace TapeLowering

/-- The cells of all slots, with inputs and outputs. -/
structure Store where
  /-- The value of every cell. -/
  cells : Nat → Cell := fun _ => 0
  /-- The inputs not read yet, the next one first. -/
  inputs : List Cell := []
  /-- The outputs, the latest one first. -/
  written : List Cell := []

namespace Store

/-- The outputs in the order they were written. -/
def outputs (s : Store) : List Cell := s.written.reverse

/-- The value of a slot. -/
def get (s : Store) (slot : Slot) : Cell := s.cells slot.index

/-- The store with another value of a slot. -/
def put (s : Store) (slot : Slot) (value : Cell) : Store :=
  { s with cells := fun i => if i = slot.index then value else s.cells i }

/-- Changes a slot, or fails if there is no value to change it to. -/
def change (slot : Slot) (value : Option Cell) (fault : Fault) (s : Store) : Outcome Store :=
  match value with
  | some value => .done (s.put slot value)
  | none => .failed fault s

/-- Adds one to a slot. -/
def increment (slot : Slot) (s : Store) : Outcome Store :=
  s.change slot (s.get slot).succ? (.cellOverflow slot.index)

/-- Takes one from a slot. -/
def decrement (slot : Slot) (s : Store) : Outcome Store :=
  s.change slot (s.get slot).pred? (.decrementOfZero slot.index)

/-- Reads the next input into a slot. -/
def read (slot : Slot) (s : Store) : Outcome Store :=
  match s.inputs with
  | [] => .failed .inputExhausted s
  | value :: rest => .done { s.put slot value with inputs := rest }

/-- Outputs a slot. -/
def write (slot : Slot) (s : Store) : Outcome Store :=
  .done { s with written := s.get slot :: s.written }

/-- Adds the source to the destination if the sum fits, and sets the source to zero. -/
def transfer (source destination : Slot) (s : Store) : Outcome Store :=
  if (s.get source).toNat + (s.get destination).toNat < 0x10000000000000000 then
    .done ((s.put destination (s.get destination + s.get source)).put source 0)
  else .failed (.cellOverflow destination.index) s

/-- Takes the source from the destination if it is not larger, and sets the source to zero. -/
def deduct (source destination : Slot) (s : Store) : Outcome Store :=
  if s.get source ≤ s.get destination then
    .done ((s.put destination (s.get destination - s.get source)).put source 0)
  else .failed (.decrementOfZero destination.index) s

@[simp] theorem get_put_self (s : Store) (x : Slot) (v : Cell) : (s.put x v).get x = v := by
  simp [get, put]

@[simp] theorem get_put_of_ne {x y : Slot} (h : y ≠ x) (s : Store) (v : Cell) :
    (s.put x v).get y = s.get y := by
  have hi : y.index ≠ x.index := mt Slot.ext h
  simp [get, put, hi]

end Store

mutual

/-- What a command does, where each loop may repeat as often as `fuel` says. -/
def Command.run (fuel : Nat) : Command → Store → Outcome Store
  | .allocate | .release _ | .detach _ _ | .append _ | .unknown _ => .done
  | .increment slot => Store.increment slot
  | .decrement slot => Store.decrement slot
  | .reset slot => fun s => .done (s.put slot 0)
  | .set slot value => fun s => .done (s.put slot value)
  | .read slot => Store.read slot
  | .write slot => Store.write slot
  | .transfer source destination => Store.transfer source destination
  | .deduct source destination => Store.deduct source destination
  | .loop origin body =>
    Outcome.repeatWhile (fun s => s.get origin != 0) (Command.runAll fuel body) fuel
  | .branch condition body => fun s =>
    if s.get condition = 0 then .done s
    else (Command.runAll fuel body s).andThen fun s => .done (s.put condition 0)
  | .scope body => Command.runAll fuel body

/-- What commands do in order. -/
def Command.runAll (fuel : Nat) : List Command → Store → Outcome Store
  | [] => .done
  | c :: rest => fun s => (c.run fuel s).andThen (Command.runAll fuel rest)

end

/-- Two lists of commands one after the other do what the first and then the second does. -/
theorem Command.runAll_append (fuel : Nat) (cs ds : List Command) (s : Store) :
    Command.runAll fuel (cs ++ ds) s
      = (Command.runAll fuel cs s).andThen (Command.runAll fuel ds) := by
  induction cs generalizing s with
  | nil => rfl
  | cons c rest ih =>
    simp only [List.cons_append, Command.runAll, Outcome.andThen_assoc]
    exact congrArg _ (funext ih)

end TapeLowering
