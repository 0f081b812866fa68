import TapeLowering.Operation
import TapeLowering.Proofs.Realization

/-!
# The routines of the library are inline

No routine keeps or places a fragment, whatever slots it works on, live or not. So a call of the
library means what its commands mean, and may stand wherever commands may.
-/

namespace TapeLowering

open Command

theorem Command.areInline_append (cs ds : List Command) :
    areInline (cs ++ ds) = (areInline cs && areInline ds) := by
  induction cs with
  | nil => rfl
  | cons c rest ih => rw [List.cons_append, areInline, ih, areInline, Bool.and_assoc]

namespace Routine

variable {r : Routine} {rs : List Routine} {x y : Slot} {body : Slot → Routine}

/-- Wherever it is placed, a routine keeps and places no fragments. -/
def Inline (r : Routine) : Prop := ∀ depth, areInline (r.commands depth) = true

@[simp] theorem inline_nil : (block []).Inline := fun _ => rfl

@[simp] theorem inline_cons : (block (r :: rs)).Inline ↔ r.Inline ∧ (block rs).Inline := by
  simp only [Inline, block, List.flatMap_cons, areInline_append, Bool.and_eq_true, forall_and]

@[simp] theorem inline_loop : (loop x r).Inline ↔ r.Inline := by
  simp only [Inline, loop, areInline, isInline, Bool.and_true]

@[simp] theorem inline_branch : (branch x r).Inline ↔ r.Inline := by
  simp only [Inline, branch, areInline, isInline, Bool.and_true]

/-- A routine with a scratch slot is inline if its body is, on any slot. -/
theorem inline_scratch (h : ∀ slot, (body slot).Inline) : (scratch body).Inline := by
  intro depth
  simp only [scratch, areInline, isInline, Bool.and_true]
  exact h ⟨depth⟩ (depth + 1)

@[simp] theorem inline_increment : (increment x).Inline := fun _ => rfl

@[simp] theorem inline_decrement : (decrement x).Inline := fun _ => rfl

@[simp] theorem inline_reset : (reset x).Inline := fun _ => rfl

@[simp] theorem inline_set {v : Cell} : (set x v).Inline := fun _ => rfl

@[simp] theorem inline_transfer : (transfer x y).Inline := fun _ => rfl

@[simp] theorem inline_deduct : (deduct x y).Inline := fun _ => rfl

@[simp] theorem inline_copy : (copy x y).Inline := by
  unfold copy
  split
  · exact inline_nil
  · exact inline_scratch fun spare => by simp

theorem inline_holding (h : ∀ slot, (body slot).Inline) : (holding x body).Inline :=
  inline_scratch fun slot => by simp [h slot]

/-- A routine that holds copies of two operands is inline if its body is. -/
theorem inline_holding_pair {body : Slot → Slot → Routine} (h : ∀ lhs rhs, (body lhs rhs).Inline) :
    (holding x fun lhs => holding y fun rhs => body lhs rhs).Inline :=
  inline_holding fun lhs => inline_holding (h lhs)

section

variable (result left right : Slot)

@[simp] theorem inline_not : (not result left).Inline := inline_holding fun _ => by simp

@[simp] theorem inline_and : (and result left right).Inline :=
  inline_holding_pair fun _ _ => by simp

theorem inline_or : (or result left right).Inline :=
  inline_holding_pair fun _ _ => by simp

@[simp] theorem inline_cancel : (cancel left right).Inline := inline_scratch fun _ => by simp

theorem inline_lt : (lt result left right).Inline := by
  apply inline_holding_pair
  intro lhs rhs
  have hrest := inline_scratch fun exhausted => show (block [not exhausted lhs,
    and result exhausted rhs, reset exhausted, reset rhs, reset lhs]).Inline by simp
  simp [hrest]

@[simp] theorem inline_le : (le result left right).Inline :=
  inline_holding_pair fun _ _ => by simp

theorem inline_add : (add result left right).Inline :=
  inline_holding_pair fun _ _ => by simp

@[simp] theorem inline_sub : (sub result left right).Inline :=
  inline_holding_pair fun _ _ => by simp

theorem inline_mul : (mul result left right).Inline := by
  apply inline_holding_pair
  intro lhs rhs
  have hterm : (holding rhs fun term => transfer term result).Inline :=
    inline_holding fun _ => inline_transfer
  simp [countdown, hterm]

end

/-- A division is inline, by its two comparisons and its loop. -/
theorem inline_divMod (quotient remainder dividend divisor : Slot) :
    (divMod quotient remainder dividend divisor).Inline := by
  apply inline_holding_pair
  intro rest step
  have hfits := inline_scratch fun fits => show (block [ge fits rest step,
    loop fits (block [sub rest rest step, increment quotient, ge fits rest step]),
    reset step, reset remainder, transfer rest remainder]).Inline by simp [ge]
  simp [hfits]

end Routine

/-- No operation of the library keeps or places a fragment. -/
theorem Operation.inline_routine (o : Operation Slot) : o.routine.Inline := by
  cases o with
  | clear x => exact Routine.inline_reset
  | absorb x y => exact Routine.inline_transfer
  | copy x y => exact Routine.inline_copy
  | not x y => exact Routine.inline_not x y
  | cancel x y => exact Routine.inline_cancel x y
  | binary b z x y =>
    cases b with
    | add => exact Routine.inline_add z x y
    | sub => exact Routine.inline_sub z x y
    | mul => exact Routine.inline_mul z x y
    | and => exact Routine.inline_and z x y
    | or => exact Routine.inline_or z x y
    | lt => exact Routine.inline_lt z x y
    | le => exact Routine.inline_le z x y
    | gt => exact Routine.inline_lt z y x
    | ge => exact Routine.inline_le z y x
  | divMod q r x y => exact Routine.inline_divMod q r x y

end TapeLowering
