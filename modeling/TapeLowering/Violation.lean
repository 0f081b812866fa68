/-!
# Violations

The ways in which code can fail to be generated. A violation is about how the code is built, and
never about how it runs.
-/

namespace TapeLowering

/-- A reason why code is not generated. -/
inductive Violation where
  /-- The slot to release is not the latest live one. -/
  | releaseOrder
  /-- A cell is to be emptied into itself. -/
  | sameSlot
  /-- A cell is to be set to a value that no single addition reaches. -/
  | setTooLarge
  /-- An amount or a count leaves its range. -/
  | overflow
  /-- A word has no meaning where it stands, such as a name that is not bound. -/
  | unknown (word : String)
  deriving Repr, DecidableEq

namespace Violation

variable {α β : Type}

instance [DecidableEq α] : DecidableEq (Except Violation α)
  | .ok a, .ok b => decidable_of_iff (a = b) (by simp)
  | .error v, .error w => decidable_of_iff (v = w) (by simp)
  | .ok _, .error _ | .error _, .ok _ => isFalse (by simp)

theorem exists_of_isOk {x : Except Violation α} (h : x.isOk = true) : ∃ a, x = .ok a := by
  cases x with
  | ok a => exact ⟨a, rfl⟩
  | error v => cases h

theorem map_eq_ok_iff {x : Except Violation α} {f : α → β} {b : β} :
    x.map f = .ok b ↔ ∃ a, x = .ok a ∧ f a = b := by
  cases x <;> simp [Except.map]

/-- Two computations in a row have a result if the first one has, and the second one has for that. -/
theorem bind_eq_ok_iff {x : Except Violation α} {f : α → Except Violation β} {b : β} :
    x >>= f = .ok b ↔ ∃ a, x = .ok a ∧ f a = .ok b := by
  cases x <;> simp [bind, Except.bind]

theorem map_eq_error_iff {x : Except Violation α} {f : α → β} {v : Violation} :
    x.map f = .error v ↔ x = .error v := by
  cases x <;> simp [Except.map]

/-- Two computations in a row fail if the first one does, or the second one for the result of the
first. -/
theorem bind_eq_error_iff {x : Except Violation α} {f : α → Except Violation β} {v : Violation} :
    x >>= f = .error v ↔ x = .error v ∨ ∃ a, x = .ok a ∧ f a = .error v := by
  cases x <;> simp [bind, Except.bind]

end Violation

end TapeLowering
