import TapeLowering.Cell
import TapeLowering.Fault

/-!
# The tape

A tape of cells, infinite to the right, seen from its pointer. Only finitely many cells are
materialized; every other one holds zero. A cell is materialized when the pointer reaches it, and
the last one is dropped again when the pointer leaves it to the left while it holds zero.

The cells left of the pointer are kept nearest first, so every primitive takes constant time.
`cells` is the view in the order of the tape, and the lemmas below say what each primitive does to
it and to the pointer.
-/

namespace TapeLowering

/-- The materialized cells of a tape, as seen from its pointer. -/
structure Tape where
  /-- The cells left of the pointer, nearest first. -/
  before : List Cell
  /-- The cell under the pointer. -/
  current : Cell
  /-- The materialized cells right of the pointer, nearest first. -/
  after : List Cell
  deriving Repr, DecidableEq

namespace Tape

/-- The tape of zeros with the pointer on its first cell. -/
def blank : Tape := ⟨[], 0, []⟩

/-- The index of the cell under the pointer. -/
def pointer (t : Tape) : Nat := t.before.length

/-- The materialized cells in the order of the tape. -/
def cells (t : Tape) : List Cell := t.before.reverse ++ t.current :: t.after

/-- The value of any cell; one that is not materialized holds zero. -/
def cellAt (t : Tape) (index : Nat) : Cell := t.cells.getD index 0

/-- Whether the cell under the pointer holds zero. -/
def isZero (t : Tape) : Bool := t.current == 0

/-- Overwrites the cell under the pointer. -/
def put (value : Cell) (t : Tape) : Tape := { t with current := value }

/-- Moves the pointer to the right, and materializes the cell there if need be. -/
def right (t : Tape) : Tape := ⟨t.current :: t.before, t.after.headD 0, t.after.tail⟩

/-- The materialized cells from the pointer on that stay when the pointer leaves to the left. -/
def kept (t : Tape) : List Cell :=
  if t.isZero && t.after.isEmpty then [] else t.current :: t.after

/-- Moves the pointer to the left, and drops the cell it leaves if that is the last one and zero. -/
def left (t : Tape) : Except Fault Tape :=
  match t.before with
  | [] => .error .leftOfOrigin
  | nearest :: others => .ok ⟨others, nearest, t.kept⟩

/-- Adds one to the cell under the pointer. -/
def increment (t : Tape) : Except Fault Tape :=
  match t.current.succ? with
  | some value => .ok (t.put value)
  | none => .error (.cellOverflow t.pointer)

/-- Takes one from the cell under the pointer. -/
def decrement (t : Tape) : Except Fault Tape :=
  match t.current.pred? with
  | some value => .ok (t.put value)
  | none => .error (.decrementOfZero t.pointer)

/-! ## The cell under the pointer -/

theorem pointer_lt_length_cells (t : Tape) : t.pointer < t.cells.length := by
  simp [pointer, cells]

/-- The pointer is within the materialized cells, and the cell there is the current one. -/
theorem getElem?_cells_pointer (t : Tape) : t.cells[t.pointer]? = some t.current := by
  simp [pointer, cells]

@[simp] theorem cellAt_pointer (t : Tape) : t.cellAt t.pointer = t.current := by
  simp [cellAt, List.getD_eq_getElem?_getD, getElem?_cells_pointer]

@[simp] theorem isZero_iff {t : Tape} : t.isZero = true ↔ t.current = 0 := by
  simp [isZero]

/-! ## Each primitive, seen through the pointer and the cells -/

@[simp] theorem pointer_put (value : Cell) (t : Tape) : (t.put value).pointer = t.pointer := rfl

/-- Overwriting changes the cell at the pointer and no other one. -/
theorem cells_put (value : Cell) (t : Tape) :
    (t.put value).cells = t.cells.set t.pointer value := by
  simp [cells, put, pointer]

@[simp] theorem pointer_right (t : Tape) : t.right.pointer = t.pointer + 1 := by
  simp [pointer, right]

/-- Moving to the right adds at most one cell, a zero. -/
theorem cells_right (t : Tape) :
    t.right.cells = if t.after = [] then t.cells ++ [0] else t.cells := by
  cases h : t.after <;> simp [cells, right, h]

/-- The only way to fail in moving left is to start at the first cell. -/
theorem left_eq_error_iff {t : Tape} {f : Fault} :
    t.left = .error f ↔ t.pointer = 0 ∧ f = .leftOfOrigin := by
  cases h : t.before <;> simp [left, pointer, h, eq_comm]

/-- Moving to the left takes the pointer one cell back. -/
theorem pointer_of_left {t u : Tape} (h : t.left = .ok u) : u.pointer + 1 = t.pointer := by
  cases hb : t.before with
  | nil => simp [left, hb] at h
  | cons nearest others =>
    simp only [left, hb, Except.ok.injEq] at h
    simp [← h, pointer, hb]

/-- Moving to the left drops at most one cell, a zero at the pointer. -/
theorem cells_of_left {t u : Tape} (h : t.left = .ok u) :
    u.cells = if t.isZero && t.after.isEmpty then t.cells.take t.pointer else t.cells := by
  cases hb : t.before with
  | nil => simp [left, hb] at h
  | cons nearest others =>
    simp only [left, hb, Except.ok.injEq] at h
    subst h
    cases hk : t.isZero && t.after.isEmpty <;>
      simp [cells, kept, hk, hb, pointer, List.take_append, List.take_of_length_le]

/-! ## Each primitive, seen through the value of any cell -/

/-- A zero at the end is not told apart from a cell that is not materialized. -/
private theorem getD_append_zero (cells : List Cell) (i : Nat) :
    (cells ++ [0]).getD i 0 = cells.getD i 0 := by
  rw [List.getD_eq_getElem?_getD, List.getD_eq_getElem?_getD, List.getElem?_append]
  split
  · rfl
  · rename_i h
    rw [List.getElem?_eq_none (Nat.le_of_not_lt h)]
    cases i - cells.length <;> rfl

theorem cellAt_blank (i : Nat) : blank.cellAt i = 0 := by
  cases i <;> rfl

/-- Overwriting changes the value of the cell at the pointer only. -/
theorem cellAt_put (value : Cell) (t : Tape) (i : Nat) :
    (t.put value).cellAt i = if i = t.pointer then value else t.cellAt i := by
  have hlt := t.pointer_lt_length_cells
  by_cases hi : i = t.pointer
  · subst hi
    simp [cellAt, cells_put, List.getD_eq_getElem?_getD, hlt]
  · have hi' : t.pointer ≠ i := fun e => hi e.symm
    simp [cellAt, cells_put, List.getD_eq_getElem?_getD, hi, List.getElem?_set_ne hi']

/-- Moving to the right changes no value, as a cell that is materialized holds zero. -/
@[simp] theorem cellAt_right (t : Tape) (i : Nat) : t.right.cellAt i = t.cellAt i := by
  rw [cellAt, cells_right, cellAt]
  split
  · exact getD_append_zero t.cells i
  · rfl

/-- Moving to the left changes no value, as a cell that is dropped holds zero. -/
theorem cellAt_of_left {t u : Tape} (h : t.left = .ok u) (i : Nat) : u.cellAt i = t.cellAt i := by
  rw [cellAt, cells_of_left h, cellAt]
  split
  · rename_i hk
    simp only [Bool.and_eq_true, isZero_iff, List.isEmpty_iff] at hk
    have hcells : t.cells = t.cells.take t.pointer ++ [0] := by
      simp [cells, pointer, hk.1, hk.2]
    calc (t.cells.take t.pointer).getD i 0
        = (t.cells.take t.pointer ++ [0]).getD i 0 := (getD_append_zero _ i).symm
      _ = t.cells.getD i 0 := by rw [← hcells]
  · rfl

/-- Away from the first cell the pointer can move to the left. -/
theorem exists_left_of_pos {t : Tape} (h : 0 < t.pointer) : ∃ u, t.left = .ok u := by
  cases hb : t.before with
  | nil => simp [pointer, hb] at h
  | cons nearest others => exact ⟨_, by rw [left, hb]⟩

end Tape

end TapeLowering
