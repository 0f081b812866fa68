import TapeLowering.Script.Basic

/-!
# From scripts to commands

Resolving a script replaces its names by slots. A name means what it was bound to last, in the
order of the text, and it is never unbound: it can outlive the slot it stands for. The next slot
to be bound follows from the number of live slots, which resolving keeps count of.

A statement with a name that was never bound becomes `Command.unknown`. Resolving does not fail
there, since the commands before may violate a rule, and that is to be noticed first. What is
resolved after such a name does not matter, since no code is generated beyond it.

`Script.stages` resolves a script in parts, one for each point at which the generation of code can
be watched from outside: after each statement of the list itself, and for a `hold` both after the
slot is set up and after it is released.
-/

namespace TapeLowering

/-- What the names of a script mean at one point of it. -/
structure Names where
  /-- The number of live slots. -/
  depth : Nat := 0
  /-- The names of slots, the latest first. -/
  slots : List (Name × Slot) := []

/-- A resolution passes the names along. -/
abbrev Resolution := StateM Names

namespace Names

/-- The slot that a name was bound to last, or the name if it was never bound. -/
def find (names : Names) (name : Name) : Except Name Slot :=
  match names.slots.lookup name with
  | some slot => .ok slot
  | none => .error name

/-- The slot of a name here. -/
def slot (name : Name) : Resolution (Except Name Slot) := return (← get).find name

/-- A command, unless one of its names was never bound. -/
def command : Except Name Command → Command
  | .ok c => c
  | .error name => .unknown name

/-- The command on the slot of a name. -/
def onSlot (c : Slot → Command) (name : Name) : Resolution Command :=
  return command ((← slot name).map c)

/-- The command on the slots of two names. -/
def onSlots (c : Slot → Slot → Command) (first second : Name) : Resolution Command := do
  let names ← get
  return command do return c (← names.find first) (← names.find second)

/-- The commands of a routine that is placed here, unless one of its names was never bound. -/
def place : Except Name Routine → Resolution (List Command)
  | .ok r => return r.commands (← get).depth
  | .error name => return [.unknown name]

/-- The commands of an operation that is called here. -/
def call (o : Operation Name) : Resolution (List Command) := do
  let names ← get
  place ((o.mapM names.find).map Operation.routine)

/-- Takes the next slot without a name. -/
def takeNext : Resolution Slot :=
  modifyGet fun names => (⟨names.depth⟩, { names with depth := names.depth + 1 })

/-- Binds a name to the next slot and makes it live. -/
def bindNext (name : Name) : Resolution Slot := do
  let bound ← takeNext
  modify fun names => { names with slots := (name, bound) :: names.slots }
  return bound

/-- Ends the life of the latest slot. -/
def drop : Resolution Unit := modify fun names => { names with depth := names.depth - 1 }

/-- Binds a name to the next slot and gives the commands that set it up. The source of a copy is
what its name means before. -/
def setUp (name : Name) : Initial → Resolution (Slot × List Command)
  | .unset => do
    let bound ← bindNext name
    return (bound, [])
  | .value value => do
    let bound ← bindNext name
    return (bound, [.set bound value])
  | .copyOf source => do
    let x ← slot source
    let bound ← bindNext name
    return (bound, ← place (x.map (.copy bound)))

end Names

open Names

mutual

/-- The commands of a statement and of the statements after it, whose commands are `rest`. -/
def Statement.resolve (rest : Resolution (List Command)) : Statement → Resolution (List Command)
  | .allocate name => do
    let _ ← bindNext name
    return .allocate :: (← rest)
  | .release name => do
    let first ← onSlot .release name
    drop
    return first :: (← rest)
  | .increment name => return (← onSlot .increment name) :: (← rest)
  | .decrement name => return (← onSlot .decrement name) :: (← rest)
  | .reset names => return (← names.mapM (onSlot .reset)) ++ (← rest)
  | .set name value => return (← onSlot (.set · value) name) :: (← rest)
  | .read name => return (← onSlot .read name) :: (← rest)
  | .write name => return (← onSlot .write name) :: (← rest)
  | .transfer source destination => return (← onSlots .transfer source destination) :: (← rest)
  | .deduct source destination => return (← onSlots .deduct source destination) :: (← rest)
  | .call o => return (← call o) ++ (← rest)
  | .loop origin body => do
    let x ← slot origin
    let inner ← resolveAll body
    return command (x.map (.loop · inner)) :: (← rest)
  | .countdown counter body => do
    let x ← slot counter
    let inner ← resolveAll body
    return command (x.map fun x => .loop x (inner ++ [.decrement x])) :: (← rest)
  | .branch condition body => do
    let x ← slot condition
    let inner ← resolveAll body
    return command (x.map (.branch · inner)) :: (← rest)
  | .guarded condition body => do
    let x ← slot condition
    let flag ← takeNext
    let copied ← place (x.map (.copy flag))
    let inner ← resolveAll body
    drop
    return .scope (copied ++ [.branch flag inner]) :: (← rest)
  | .scope name body => do
    let _ ← bindNext name
    let inner ← resolveAll body
    drop
    return .scope inner :: (← rest)
  | .hold name initial => do
    let (_, first) ← setUp name initial
    let inner ← rest
    drop
    return [.scope (first ++ inner)]
  | .detach fragment body => do
    let inner ← resolveAll body
    return .detach fragment inner :: (← rest)
  | .append fragment => return .append fragment :: (← rest)
  | .unknown word => return .unknown word :: (← rest)

/-- The commands of a list of statements. -/
def resolveAll : List Statement → Resolution (List Command)
  | [] => return []
  | s :: rest => s.resolve (resolveAll rest)

end

/-- The commands of a list of statements, in the parts between which the generation is watched. -/
def resolveStages : List Statement → Resolution (List (List Command))
  | [] => return []
  | .hold name initial :: rest => do
    let (x, first) ← setUp name initial
    let inner ← resolveStages rest
    drop
    return (.allocate :: first) :: inner ++ [[.release x]]
  | s :: rest => do
    let commands ← s.resolve (return [])
    return commands :: (← resolveStages rest)

namespace Script

/-- The commands of a script. -/
def commands (s : Script) : List Command := (Id.run ((resolveAll s).run {})).1

/-- The commands of a script in its stages. -/
def stages (s : Script) : List (List Command) := (Id.run ((resolveStages s).run {})).1

end Script

end TapeLowering
