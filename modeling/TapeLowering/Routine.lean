import TapeLowering.Command.Basic

/-!
# Routines

A routine is a list of commands that needs scratch cells of its own. Which cells those are depends
on where the routine is placed, since a scratch cell is the first one above the live slots. So a
routine is a template: given the number of live slots it yields its commands.

Routines take scratch cells only by `Routine.scratch`, that is, in scopes. All parts of a
`Routine.block` therefore start with the same number of live slots.

The routines of the operation library are made of few parts. What needs the value of a cell without
losing it works on a copy (`Routine.holding`), so the operands keep their values, and the result may be
one of them.
-/

namespace TapeLowering

/-- A list of commands for any number of live slots. -/
structure Routine where
  /-- The commands where a number of slots is live. -/
  commands : Nat → List Command

namespace Routine

/-- Commands that need no scratch cell. -/
def ofCommands (cs : List Command) : Routine := ⟨fun _ => cs⟩

/-- Adds one to a cell. -/
def increment (slot : Slot) : Routine := ofCommands [.increment slot]

/-- Takes one from a cell. -/
def decrement (slot : Slot) : Routine := ofCommands [.decrement slot]

/-- Sets a cell to zero. -/
def reset (slot : Slot) : Routine := ofCommands [.reset slot]

/-- Sets a cell to a value. -/
def set (slot : Slot) (value : Cell) : Routine := ofCommands [.set slot value]

/-- Adds the source to the destination, and sets the source to zero. -/
def transfer (source destination : Slot) : Routine := ofCommands [.transfer source destination]

/-- Takes the source from the destination, and sets the source to zero. -/
def deduct (source destination : Slot) : Routine := ofCommands [.deduct source destination]

/-- Routines one after the other. -/
def block (parts : List Routine) : Routine := ⟨fun depth => parts.flatMap (·.commands depth)⟩

/-- Runs the body while the origin is not zero. -/
def loop (origin : Slot) (body : Routine) : Routine :=
  ⟨fun depth => [.loop origin (body.commands depth)]⟩

/-- Runs the body once if the condition is not zero, and sets the condition to zero. -/
def branch (condition : Slot) (body : Routine) : Routine :=
  ⟨fun depth => [.branch condition (body.commands depth)]⟩

/-- Runs a body with a scratch cell of its own, which the body has to leave at zero. -/
def scratch (body : Slot → Routine) : Routine :=
  ⟨fun depth => [.scope ((body ⟨depth⟩).commands (depth + 1))]⟩

/-- Runs the body as often as the value of the counter says, and takes one from the counter after
each run. -/
def countdown (counter : Slot) (body : Routine) : Routine :=
  loop counter (block [body, decrement counter])

/-!
## Copies

Reading a cell by a loop empties it. A copy therefore fills two cells from the source, and one of
them pays the source back.
-/

/-- Copies the value of the source into the destination. -/
def copy (destination source : Slot) : Routine :=
  if destination = source then block []
  else scratch fun spare => block
    [reset destination,
     reset spare,
     loop source (block [decrement source, increment destination, increment spare]),
     transfer spare source]

/-- Runs a body with a scratch cell that holds a copy of the source. -/
def holding (source : Slot) (body : Slot → Routine) : Routine :=
  scratch fun held => block [copy held source, body held]

/-- Runs the body once if the condition is not zero, and leaves the condition to the body. -/
def guarded (condition : Slot) (body : Routine) : Routine :=
  holding condition fun flag => branch flag body

/-!
## Addition, subtraction and multiplication

The operations are those of the natural numbers: where the result is too large for a cell, or less than
zero, the run fails.
-/

/-- Puts the sum of two cells into the result. -/
def add (result left right : Slot) : Routine :=
  holding left fun lhs => holding right fun rhs => block
    [reset result, transfer lhs result, transfer rhs result]

/-- Puts the difference of two cells into the result. -/
def sub (result left right : Slot) : Routine :=
  holding left fun lhs => holding right fun rhs => block
    [reset result, transfer lhs result, deduct rhs result]

/-- Puts the product of two cells into the result, by adding one as often as the other says. -/
def mul (result left right : Slot) : Routine :=
  holding left fun lhs => holding right fun rhs => block
    [reset result,
     countdown lhs (holding rhs fun term => transfer term result),
     reset rhs]

/-!
## Logic

A cell is true if it is not zero. The results are exactly zero or one.
-/

/-- Puts one into the result if the condition is zero, and zero otherwise. -/
def not (result condition : Slot) : Routine :=
  holding condition fun flag => block [set result 1, branch flag (decrement result)]

/-- Puts one into the result if both cells are not zero, and zero otherwise. -/
def and (result left right : Slot) : Routine :=
  holding left fun lhs => holding right fun rhs => block
    [reset result,
     branch lhs (branch rhs (increment result)),
     reset rhs]

/-- Puts one into the result if one of two cells is not zero, and zero otherwise. The copy of the
right one is dropped when the left one holds, so the result is incremented at most once. -/
def or (result left right : Slot) : Routine :=
  holding left fun lhs => holding right fun rhs => block
    [reset result,
     branch lhs (block [increment result, reset rhs]),
     branch rhs (increment result)]

/-!
## Comparisons

Two cells are compared by cancelling them against each other: taken down together until one of
them is zero, the greater one is what remains. The results are exactly zero or one.
-/

/-- Takes one from both cells for as long as neither is zero. -/
def cancel (left right : Slot) : Routine :=
  scratch fun both => block
    [and both left right,
     loop both (block [decrement left, decrement right, and both left right])]

/-- Puts one into the result if the left cell is less than the right one, and zero otherwise: the
left copy is used up and the right one is not. -/
def lt (result left right : Slot) : Routine :=
  holding left fun lhs => holding right fun rhs => block
    [cancel lhs rhs,
     scratch fun exhausted => block
       [not exhausted lhs, and result exhausted rhs, reset exhausted, reset rhs, reset lhs]]

/-- Puts one into the result if the left cell is at most the right one, and zero otherwise: the
left copy is used up. -/
def le (result left right : Slot) : Routine :=
  holding left fun lhs => holding right fun rhs => block
    [cancel lhs rhs, not result lhs, reset rhs, reset lhs]

/-- Puts one into the result if the left cell is greater than the right one, and zero otherwise. -/
def gt (result left right : Slot) : Routine := lt result right left

/-- Puts one into the result if the left cell is at least the right one, and zero otherwise. -/
def ge (result left right : Slot) : Routine := le result right left

/-!
## Division

Division takes the divisor from a copy of the dividend for as long as it fits, and counts how often
that was. A divisor of zero always fits, so the division by it never ends.
-/

/-- Puts the quotient and the remainder of two cells into two others. -/
def divMod (quotient remainder dividend divisor : Slot) : Routine :=
  holding dividend fun rest => holding divisor fun step => block
    [reset quotient,
     scratch fun fits => block
       [ge fits rest step,
        loop fits (block [sub rest rest step, increment quotient, ge fits rest step]),
        reset step,
        reset remainder,
        transfer rest remainder]]

end Routine

end TapeLowering
