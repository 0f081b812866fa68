import TapeLowering.Code.Basic

/-!
# Slots

A slot is a handle to one cell of the tape. The live slots form a stack: the next slot to be
allocated is the first cell above them, and only the latest one can be released.

The stack also knows where the pointer will be once the code emitted so far has run, and
`SlotStack.seek` gives the only moves that generated code makes.
-/

namespace TapeLowering

/-- A handle to one cell of the tape. -/
@[ext] structure Slot where
  /-- The index of the cell. -/
  index : Nat
  deriving Repr, DecidableEq

/-- A slot is not that of a cell further to the right. -/
theorem Slot.mk_ne_of_lt {slot : Slot} {index : Nat} (h : slot.index < index) :
    (⟨index⟩ : Slot) ≠ slot := by
  rintro rfl
  exact Nat.lt_irrefl _ h

/-- The live slots, and the position of the pointer. -/
structure SlotStack where
  /-- The live slots, the latest first. -/
  live : List Slot := []
  /-- The index of the cell under the pointer after the code emitted so far. -/
  cursor : Nat := 0
  deriving Repr, DecidableEq

namespace SlotStack

/-- The number of live slots. -/
def depth (s : SlotStack) : Nat := s.live.length

/-- The slot that is allocated next. -/
def next (s : SlotStack) : Slot := ⟨s.depth⟩

/-- Makes the next slot live. -/
def allocate (s : SlotStack) : SlotStack := { s with live := s.next :: s.live }

/-- Ends the life of a slot, which has to be the latest live one. -/
def release (s : SlotStack) (slot : Slot) : Except Violation SlotStack :=
  match s.live with
  | [] => .error .releaseOrder
  | latest :: others =>
    if latest = slot then .ok { s with live := others } else .error .releaseOrder

/-- The stack after the pointer has moved to a slot. -/
def pointAt (s : SlotStack) (slot : Slot) : SlotStack := { s with cursor := slot.index }

/-- The shortest code that moves the pointer to a slot. -/
def seek (s : SlotStack) (slot : Slot) : Except Violation Code :=
  (Amount.ofInt (slot.index - s.cursor)).map fun distance => .ofInstruction (.right distance)

@[simp] theorem depth_allocate (s : SlotStack) : s.allocate.depth = s.depth + 1 := rfl

/-- The latest live slot can be released, and no other one; the pointer stays where it is. -/
theorem release_eq_ok_iff {s t : SlotStack} {slot : Slot} :
    s.release slot = .ok t ↔ ∃ others, s.live = slot :: others ∧ t = { s with live := others } := by
  cases h : s.live with
  | nil => simp [release, h]
  | cons latest others =>
    by_cases hl : latest = slot
    · subst hl
      simp [release, h, eq_comm]
    · simp [release, h, hl]

/-- To release the slot that was allocated last undoes the allocation. -/
theorem release_allocate (s : SlotStack) : s.allocate.release s.next = .ok s := by
  simp [allocate, release]

end SlotStack

end TapeLowering
