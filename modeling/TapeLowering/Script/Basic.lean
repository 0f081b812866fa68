import TapeLowering.Operation

/-!
# Scripts

A script is a list of statements that refer to slots and fragments by name. Most statements are a
command, or a common form made of commands. The one that reaches beyond itself is `hold`: its slot
stays live for the rest of the list that it stands in.
-/

namespace TapeLowering

/-- The name of a slot or of a fragment. -/
abbrev Name := String

/-- What a slot holds at first. -/
inductive Initial where
  /-- Whatever the cell holds. -/
  | unset
  /-- A value. -/
  | value (value : Cell)
  /-- A copy of another slot. -/
  | copyOf (source : Name)
  deriving Repr, DecidableEq

/-- One statement of a script. -/
inductive Statement where
  /-- Binds a name to the next slot, and makes it live. -/
  | allocate (slot : Name)
  /-- Ends the life of a slot. -/
  | release (slot : Name)
  /-- Adds one to a slot. -/
  | increment (slot : Name)
  /-- Takes one from a slot. -/
  | decrement (slot : Name)
  /-- Sets slots to zero, in order. -/
  | reset (slots : List Name)
  /-- Sets a slot to a value. -/
  | set (slot : Name) (value : Cell)
  /-- Reads an input into a slot. -/
  | read (slot : Name)
  /-- Outputs a slot. -/
  | write (slot : Name)
  /-- Adds the source to the destination, and sets the source to zero. -/
  | transfer (source destination : Name)
  /-- Takes the source from the destination, and sets the source to zero. -/
  | deduct (source destination : Name)
  /-- Calls an operation of the library. -/
  | call (operation : Operation Name)
  /-- Runs the body while the origin is not zero. -/
  | loop (origin : Name) (body : List Statement)
  /-- Runs the body as often as the counter says. -/
  | countdown (counter : Name) (body : List Statement)
  /-- Runs the body once if the condition is not zero, and sets the condition to zero. -/
  | branch (condition : Name) (body : List Statement)
  /-- Runs the body once if the condition is not zero, by a copy of the condition. -/
  | guarded (condition : Name) (body : List Statement)
  /-- Binds a name to the next slot, which is live in the body only. -/
  | scope (slot : Name) (body : List Statement)
  /-- Binds a name to the next slot, which is live in the rest of the list. -/
  | hold (slot : Name) (initial : Initial)
  /-- Keeps the code of the body as a fragment. -/
  | detach (fragment : Name) (body : List Statement)
  /-- Places the code of a fragment. -/
  | append (fragment : Name)
  /-- Stands for a statement that could not be read, at a word. -/
  | unknown (word : String)

/-- A list of statements. -/
abbrev Script := List Statement

end TapeLowering
