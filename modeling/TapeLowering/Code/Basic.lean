import TapeLowering.Code.Amount

/-!
# Code

Code is a list of instructions, where a loop holds code again. A move or an addition stands for as
many equal symbols as its amount says, so two of them in the same direction are kept as one.

Code is built from its end: `Code.push` appends one instruction, and drops it if it stands for no
symbol, or fuses it with the last one if the two go in the same direction. Opposite directions
are never fused, so the text of the code is the concatenation of the texts of everything pushed.
`Code.extend` appends a whole code, where only its first instruction can meet another one.
-/

namespace TapeLowering

/-- One node of generated code. -/
inductive Instruction where
  /-- A move to the right; to the left if the amount is negative. -/
  | right (amount : Amount)
  /-- An addition to the cell under the pointer; a subtraction if the amount is negative. -/
  | add (amount : Amount)
  /-- A read into the cell under the pointer. -/
  | read
  /-- A write of the cell under the pointer. -/
  | write
  /-- A loop that runs its body while the cell under the pointer is not zero. -/
  | loop (body : List Instruction)

/-- A sequence of instructions. -/
abbrev Code := List Instruction

namespace Instruction

/-- The loop that takes one from the cell under the pointer until it is zero. -/
def clear : Instruction := .loop [.add .negOne]

/-- Whether an instruction stands for no symbol. -/
def isIdle : Instruction → Bool
  | right a | add a => a.isZero
  | read | write | loop _ => false

/-- Two adjacent instructions as code: one instruction if they go in the same direction. -/
def join : Instruction → Instruction → Except Violation Code
  | right a, right b => if a.sameSign b then (a.add b).map ([right ·]) else .ok [right a, right b]
  | add a, add b => if a.sameSign b then (a.add b).map ([add ·]) else .ok [add a, add b]
  | last, next => .ok [last, next]

mutual

/-- Decides whether two instructions are equal. -/
def decEq : (i j : Instruction) → Decidable (i = j)
  | right a, right b => decidable_of_iff (a = b) (by simp)
  | add a, add b => decidable_of_iff (a = b) (by simp)
  | read, read => isTrue rfl
  | write, write => isTrue rfl
  | loop a, loop b =>
    match decEqList a b with
    | isTrue h => isTrue (congrArg loop h)
    | isFalse h => isFalse fun e => h (loop.inj e)
  | right _, add _ | right _, read | right _, write | right _, loop _
  | add _, right _ | add _, read | add _, write | add _, loop _
  | read, right _ | read, add _ | read, write | read, loop _
  | write, right _ | write, add _ | write, read | write, loop _
  | loop _, right _ | loop _, add _ | loop _, read | loop _, write => isFalse (by simp)

/-- Decides whether two codes are equal. -/
def decEqList : (c d : List Instruction) → Decidable (c = d)
  | [], [] => isTrue rfl
  | i :: c, j :: d =>
    match decEq i j, decEqList c d with
    | isTrue h, isTrue t => isTrue (by rw [h, t])
    | isFalse h, _ => isFalse fun e => h (List.cons.inj e).1
    | isTrue _, isFalse t => isFalse fun e => t (List.cons.inj e).2
  | [], _ :: _ | _ :: _, [] => isFalse (by simp)

end

instance : DecidableEq Instruction := decEq

/-- If two instructions are not joined, their amounts are too large together. -/
theorem eq_overflow_of_join {i j : Instruction} {v : Violation}
    (h : i.join j = .error v) : v = .overflow := by
  unfold join at h
  split at h
  · split at h
    · exact (Amount.ofInt_eq_error_iff.mp (Violation.map_eq_error_iff.mp h)).2
    · cases h
  · split at h
    · exact (Amount.ofInt_eq_error_iff.mp (Violation.map_eq_error_iff.mp h)).2
    · cases h
  · cases h

end Instruction

namespace Code

/-- Joins an instruction to the end of some code. -/
def joinLast (next : Instruction) : Code → Except Violation Code
  | [] => .ok [next]
  | [last] => last.join next
  | first :: rest => (joinLast next rest).map (first :: ·)

/-- Appends an instruction; one that stands for no symbol is dropped. -/
def push (c : Code) (next : Instruction) : Except Violation Code :=
  if next.isIdle then .ok c else joinLast next c

/-- Appends the instructions of another code, the first of which may fuse with the last one. -/
def extend (c : Code) : Code → Except Violation Code
  | [] => .ok c
  | first :: rest => (c.push first).map (· ++ rest)

/-- The code that consists of one instruction. -/
def ofInstruction (i : Instruction) : Code := if i.isIdle then [] else [i]

/-- The code built by pushing instructions in order. -/
def ofInstructions (is : List Instruction) : Except Violation Code := is.foldlM push []

theorem push_nil (i : Instruction) : push [] i = .ok (ofInstruction i) := by
  unfold push ofInstruction
  split <;> rfl

/-- Joining to the last instruction fails only because the sum of two amounts is out of range. -/
theorem eq_overflow_of_joinLast {i : Instruction} {c : Code} {v : Violation}
    (h : joinLast i c = .error v) : v = .overflow := by
  induction c with
  | nil => cases h
  | cons first rest ih =>
    cases rest with
    | nil => exact Instruction.eq_overflow_of_join h
    | cons second rest => exact ih (Violation.map_eq_error_iff.mp h)

/-- Appending an instruction fails only because an amount leaves its range. -/
theorem eq_overflow_of_push {i : Instruction} {c : Code} {v : Violation}
    (h : c.push i = .error v) : v = .overflow := by
  rw [push] at h
  split at h
  · cases h
  · exact eq_overflow_of_joinLast h

/-- Putting two codes together fails only because an amount leaves its range. -/
theorem eq_overflow_of_extend {c d : Code} {v : Violation} (h : c.extend d = .error v) :
    v = .overflow := by
  cases d with
  | nil => cases h
  | cons first rest => exact eq_overflow_of_push (Violation.map_eq_error_iff.mp h)

end Code

/-! ## Size -/

mutual

/-- The number of symbols an instruction stands for, brackets included. -/
def Instruction.size : Instruction → Nat
  | .right a | .add a => a.magnitude
  | .read | .write => 1
  | .loop body => Code.size body + 2

/-- The number of symbols some code stands for, brackets included. -/
def Code.size : Code → Nat
  | [] => 0
  | i :: rest => i.size + Code.size rest

end

/-! ## The count of symbols in 64 bits -/

/-- The 64-bit count with a given value. -/
def Count.ofNat (n : Nat) : Except Violation Nat :=
  if n < 0x10000000000000000 then .ok n else .error .overflow

mutual

/-- The number of symbols an instruction stands for, where every sum has to be a 64-bit count. -/
def Instruction.symbolCount : Instruction → Except Violation Nat
  | .right a | .add a => .ok a.magnitude
  | .read | .write => .ok 1
  | .loop body => do Count.ofNat ((← Code.symbolCountFrom 0 body) + 2)

/-- Adds the numbers of symbols of some instructions to a count, one after the other. -/
def Code.symbolCountFrom (count : Nat) : Code → Except Violation Nat
  | [] => .ok count
  | i :: rest => do Code.symbolCountFrom (← Count.ofNat (count + (← i.symbolCount))) rest

end

/-- The number of symbols some code stands for, where every sum has to be a 64-bit count. -/
def Code.symbolCount (c : Code) : Except Violation Nat := c.symbolCountFrom 0

end TapeLowering
