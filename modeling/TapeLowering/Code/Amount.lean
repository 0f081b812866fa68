import TapeLowering.Violation

/-!
# Amounts

An amount is a signed 64-bit integer: how far an instruction moves the pointer, or by how much it
changes a cell. The sign tells the direction. Adding two amounts is defined only where the sum is
an amount again.
-/

namespace TapeLowering

/-- An integer from `-2 ^ 63` up to, and without, `2 ^ 63`. -/
structure Amount where
  /-- The integer. -/
  val : Int
  neg_bound_le : -0x8000000000000000 ≤ val := by decide
  lt_bound : val < 0x8000000000000000 := by decide
  deriving DecidableEq

namespace Amount

/-- The amount with a given value. -/
def ofInt (n : Int) : Except Violation Amount :=
  if h : -0x8000000000000000 ≤ n ∧ n < 0x8000000000000000 then .ok ⟨n, h.1, h.2⟩
  else .error .overflow

/-- The amount of a natural number that is small enough. -/
def ofNat (n : Nat) (h : n < 0x8000000000000000) : Amount := ⟨n, by omega, by omega⟩

/-- One step forward. -/
def one : Amount := { val := 1 }

/-- One step back. -/
def negOne : Amount := { val := -1 }

/-- How many unit steps an amount stands for. -/
def magnitude (a : Amount) : Nat := a.val.natAbs

/-- Whether an amount stands for no step at all. -/
def isZero (a : Amount) : Bool := a.val == 0

/-- Whether two amounts have the same direction. -/
def sameSign (a b : Amount) : Bool := a.val.sign == b.val.sign

/-- The sum of two amounts. -/
def add (a b : Amount) : Except Violation Amount := ofInt (a.val + b.val)

/-- The direction of an amount: one of two choices for the steps forward and back. -/
def direction {α : Type} (a : Amount) (forward back : α) : α := if 0 ≤ a.val then forward else back

@[simp] theorem magnitude_one : one.magnitude = 1 := rfl

@[simp] theorem magnitude_negOne : negOne.magnitude = 1 := rfl

@[simp] theorem magnitude_ofNat {n : Nat} (h : n < 0x8000000000000000) : (ofNat n h).magnitude = n :=
  Int.natAbs_natCast n

@[simp] theorem direction_one {α : Type} (forward back : α) : one.direction forward back = forward :=
  rfl

@[simp] theorem direction_negOne {α : Type} (forward back : α) :
    negOne.direction forward back = back := rfl

@[simp] theorem direction_ofNat {α : Type} {n : Nat} (h : n < 0x8000000000000000) (forward back : α) :
    (ofNat n h).direction forward back = forward := if_pos (Int.natCast_nonneg n)

/-- The amount of an integer, where there is one, is that integer. -/
theorem ofInt_eq_ok_iff {n : Int} {a : Amount} : ofInt n = .ok a ↔ a.val = n := by
  unfold ofInt
  split
  · rw [Except.ok.injEq]
    constructor
    · rintro rfl
      rfl
    · rintro rfl
      rfl
  · rename_i h
    simp only [reduceCtorEq, false_iff]
    rintro rfl
    exact h ⟨a.neg_bound_le, a.lt_bound⟩

/-- An integer has no amount if and only if it is out of range, and that is an overflow. -/
theorem ofInt_eq_error_iff {n : Int} {v : Violation} :
    ofInt n = .error v ↔
      ¬ (-0x8000000000000000 ≤ n ∧ n < 0x8000000000000000) ∧ v = .overflow := by
  unfold ofInt
  split
  · rename_i h
    simp only [reduceCtorEq, false_iff]
    exact fun hv => hv.1 h
  · rename_i h
    rw [Except.error.injEq, eq_comm]
    exact (and_iff_right h).symm

theorem isZero_iff {a : Amount} : a.isZero = true ↔ a.val = 0 := by
  simp [isZero]

/-- Amounts have the same sign if both are negative, both zero or both positive. -/
theorem sameSign_iff {a b : Amount} : a.sameSign b = true ↔
    a.val < 0 ∧ b.val < 0 ∨ a.val = 0 ∧ b.val = 0 ∨ 0 < a.val ∧ 0 < b.val := by
  rw [sameSign, beq_iff_eq]
  grind [Int.sign_eq_neg_one_iff_neg, Int.sign_eq_zero_iff_zero, Int.sign_eq_one_iff_pos]

end Amount

end TapeLowering
