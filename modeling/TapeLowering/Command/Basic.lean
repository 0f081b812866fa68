import TapeLowering.Cell
import TapeLowering.Slot

/-!
# Commands

A command is an instruction on slots. Where its code has to move the pointer follows from the
slots it names, so a command says nothing about the pointer.

Slots are named by the cells they stand for, and need not be live: only `release` looks at that. A
`scope` takes the next slot of the stack for as long as its body lasts. `detach` generates code
without placing it, under the name of a fragment, and `append` places a copy of such code.

`unknown` stands where a command was to be and none could be made out. It is a command because
commands are emitted in order, and what is wrong with an earlier one is noticed first.
-/

namespace TapeLowering

/-- An instruction on slots. -/
inductive Command where
  /-- Makes the next slot live. -/
  | allocate
  /-- Ends the life of the latest live slot. -/
  | release (slot : Slot)
  /-- Adds one to a cell. -/
  | increment (slot : Slot)
  /-- Takes one from a cell, which must not be zero. -/
  | decrement (slot : Slot)
  /-- Sets a cell to zero. -/
  | reset (slot : Slot)
  /-- Sets a cell to a value. -/
  | set (slot : Slot) (value : Cell)
  /-- Reads the next input into a cell. -/
  | read (slot : Slot)
  /-- Outputs a cell. -/
  | write (slot : Slot)
  /-- Adds the source to the destination, and sets the source to zero. -/
  | transfer (source destination : Slot)
  /-- Takes the source from the destination, and sets the source to zero. -/
  | deduct (source destination : Slot)
  /-- Runs the body while the origin is not zero. -/
  | loop (origin : Slot) (body : List Command)
  /-- Runs the body once if the condition is not zero, and sets the condition to zero. -/
  | branch (condition : Slot) (body : List Command)
  /-- Runs the body with the next slot live. -/
  | scope (body : List Command)
  /-- Keeps the code of the body as a fragment. -/
  | detach (fragment : String) (body : List Command)
  /-- Places the code of a fragment. -/
  | append (fragment : String)
  /-- Stands for a word without a meaning; there is no code for it. -/
  | unknown (word : String)

end TapeLowering
