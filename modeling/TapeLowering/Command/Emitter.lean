import TapeLowering.Command.Basic

/-!
# From commands to code

An emitter holds the slots, the code emitted so far and the fragments kept so far. Every command
that touches a cell first moves the pointer there, so the cursor of the slots is where the code
leaves the pointer.

The body of a loop is emitted once and run any number of times. `Emitter.loop` closes every body
with a move back to its origin, hence the pointer is at the origin before and after each run of
the body, and the cursor after the loop is right however often the body runs.
-/

namespace TapeLowering

/-- The state of code generation. -/
structure Emitter where
  /-- The slots, and the position of the pointer. -/
  stack : SlotStack := {}
  /-- The code emitted so far. -/
  code : Code := []
  /-- The fragments kept so far by their names, the latest first. -/
  fragments : List (String × Code) := []
  deriving DecidableEq

/-- Emits some code, unless that violates a rule. -/
abbrev Emission := Emitter → Except Violation Emitter

namespace Emitter

/-- Makes the next slot live. -/
def allocate (e : Emitter) : Emitter := { e with stack := e.stack.allocate }

/-- Ends the life of a slot. -/
def release (slot : Slot) : Emission := fun e =>
  (e.stack.release slot).map fun stack => { e with stack }

/-- Emits one instruction. -/
def push (i : Instruction) : Emission := fun e => (e.code.push i).map fun code => { e with code }

/-- Emits code generated before. -/
def extend (c : Code) : Emission := fun e => (e.code.extend c).map fun code => { e with code }

/-- Emits the moves to a slot. -/
def seek (slot : Slot) : Emission := fun e => do
  let moves ← e.stack.seek slot
  extend moves { e with stack := e.stack.pointAt slot }

/-- Emits an instruction on the cell of a slot. -/
def onCell (slot : Slot) (i : Instruction) : Emission := fun e => seek slot e >>= push i

/-- Emits a reset of a cell, followed by the addition of a value. -/
def set (slot : Slot) (value : Cell) : Emission := fun e =>
  if h : value.toNat < 0x8000000000000000 then onCell slot .clear e >>= push (.add (.ofNat value.toNat h))
  else .error .setTooLarge

/-- Generates code of its own: the slots it leaves are kept, and the code is not placed. -/
def detached (body : Emission) (e : Emitter) : Except Violation (Emitter × Code) :=
  (body { e with code := [] }).map fun inner => ({ inner with code := e.code }, inner.code)

/-- Emits a loop whose body returns to its origin. -/
def loop (origin : Slot) (body : Emission) : Emission := fun e => do
  let (outer, code) ← (← seek origin e).detached fun inner => body inner >>= seek origin
  outer.push (.loop code)

/-- Emits a loop that resets its condition at the end of the body, so it runs at most once. -/
def branch (condition : Slot) (body : Emission) : Emission :=
  loop condition fun e => body e >>= onCell condition .clear

/-- Emits the loop that takes one from the source and changes the destination, in turns. -/
def drain (source destination : Slot) (change : Amount) : Emission := fun e =>
  if source = destination then .error .sameSlot
  else loop source (fun e => onCell source (.add .negOne) e >>= onCell destination (.add change)) e

/-- Emits a body with the next slot live. -/
def scope (body : Emission) : Emission := fun e => body e.allocate >>= release e.stack.next

/-- Keeps code as a fragment; a name that was in use is taken over. -/
def keep (fragment : String) (c : Code) (e : Emitter) : Emitter :=
  { e with fragments := (fragment, c) :: e.fragments }

/-- Emits the code of a fragment; a name that is not in use has no meaning. -/
def append (fragment : String) : Emission := fun e =>
  match e.fragments.lookup fragment with
  | some c => extend c e
  | none => .error (.unknown fragment)

mutual

/-- Emits the code of a command. -/
def emit : Command → Emission
  | .allocate => fun e => .ok e.allocate
  | .release slot => release slot
  | .increment slot => onCell slot (.add .one)
  | .decrement slot => onCell slot (.add .negOne)
  | .reset slot => onCell slot .clear
  | .set slot value => set slot value
  | .read slot => onCell slot .read
  | .write slot => onCell slot .write
  | .transfer source destination => drain source destination .one
  | .deduct source destination => drain source destination .negOne
  | .loop origin body => loop origin (emitAll body)
  | .branch condition body => branch condition (emitAll body)
  | .scope body => scope (emitAll body)
  | .detach fragment body => fun e =>
    (e.detached (emitAll body)).map fun (outer, code) => outer.keep fragment code
  | .append fragment => append fragment
  | .unknown word => fun _ => .error (.unknown word)

/-- Emits the code of commands in order. -/
def emitAll : List Command → Emission
  | [] => .ok
  | c :: rest => fun e => emit c e >>= emitAll rest

end

/-- The number of live slots. -/
def depth (e : Emitter) : Nat := e.stack.depth

/-- Where the pointer is after the code emitted so far. -/
def cursor (e : Emitter) : Nat := e.stack.cursor

theorem emitAll_append (cs ds : List Command) (e : Emitter) :
    emitAll (cs ++ ds) e = emitAll cs e >>= emitAll ds := by
  induction cs generalizing e with
  | nil => rfl
  | cons c rest ih =>
    simp only [List.cons_append, emitAll, bind_assoc]
    exact congrArg _ (funext ih)

end Emitter

/-- The code of commands, starting with no live slot and the pointer on the first cell. -/
def Command.compile (cs : List Command) : Except Violation Code :=
  (Emitter.emitAll cs {}).map (·.code)

end TapeLowering
