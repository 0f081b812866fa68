import TapeLowering.Code.Basic
import TapeLowering.Outcome
import TapeLowering.Workspace

/-!
# The meaning of code

What code does to a workspace, told by its structure: an instruction repeats its action as often as
its amount says, instructions run in order, and a loop runs its body while the cell under the
pointer is not zero. There are no positions and no brackets to look for, which is what sets this
apart from a machine on the text of the code.

`Code.run_append` says that putting code together puts the meanings together.
-/

namespace TapeLowering

/-- Performs an action a number of times. -/
def Workspace.performTimes (a : Action) (count : Nat) (w : Workspace) : Outcome Workspace :=
  .times (fun w => .ofExcept w (w.perform a)) count w

mutual

/-- What an instruction does, where each loop may repeat as often as `fuel` says. -/
def Instruction.run (fuel : Nat) : Instruction → Workspace → Outcome Workspace
  | .right a => Workspace.performTimes (a.direction .right .left) a.magnitude
  | .add a => Workspace.performTimes (a.direction .increment .decrement) a.magnitude
  | .read => Workspace.performTimes .read 1
  | .write => Workspace.performTimes .write 1
  | .loop body => Outcome.repeatWhile (fun w => !w.isZero) (Code.run fuel body) fuel

/-- What code does, where each loop may repeat as often as `fuel` says. -/
def Code.run (fuel : Nat) : Code → Workspace → Outcome Workspace
  | [] => .done
  | i :: rest => fun w => (i.run fuel w).andThen (Code.run fuel rest)

end

/-- Code behind other code is run where that has ended, with the same fuel. -/
theorem Code.run_append (fuel : Nat) (c d : Code) (w : Workspace) :
    Code.run fuel (c ++ d) w = (Code.run fuel c w).andThen (Code.run fuel d) := by
  induction c generalizing w with
  | nil => rfl
  | cons i rest ih =>
    simp only [List.cons_append, Code.run, Outcome.andThen_assoc]
    exact congrArg _ (funext ih)

end TapeLowering
