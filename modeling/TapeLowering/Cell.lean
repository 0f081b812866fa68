/-!
# Cells

A cell of the tape holds an unsigned 64-bit integer and never wraps around: counting up from the
greatest value, or down from zero, has no result. `toNat_of_succ?` and `toNat_of_pred?` say that
the two unit steps are the unit steps of the natural numbers wherever they have one.
-/

namespace TapeLowering

/-- The value of one tape cell. -/
abbrev Cell := UInt64

namespace Cell

/-- The greatest value of a cell, `2 ^ 64 - 1`. -/
def greatest : Cell := 0xFFFFFFFFFFFFFFFF

/-- The next greater value; there is none above `greatest`. -/
def succ? (c : Cell) : Option Cell :=
  if c = greatest then none else some (c + 1)

/-- The next smaller value; there is none below zero. -/
def pred? (c : Cell) : Option Cell :=
  if c = 0 then none else some (c - 1)

/-- The value after a number of steps; there is none if any of the steps has none. -/
def iterate? (step : Cell → Option Cell) : Nat → Cell → Option Cell
  | 0, c => some c
  | n + 1, c => (step c).bind (iterate? step n)

theorem toNat_greatest : greatest.toNat = 0xFFFFFFFFFFFFFFFF := rfl

/-- Only the greatest value has no next greater one. -/
theorem succ?_eq_none_iff {c : Cell} : c.succ? = none ↔ c.toNat = 0xFFFFFFFFFFFFFFFF := by
  rw [← toNat_greatest, UInt64.toNat_inj]
  simp [succ?]

/-- Only zero has no next smaller value. -/
theorem pred?_eq_none_iff {c : Cell} : c.pred? = none ↔ c.toNat = 0 := by
  rw [← UInt64.toNat_zero, UInt64.toNat_inj]
  simp [pred?]

/-- A step up is the successor of the natural numbers wherever there is one. -/
theorem toNat_of_succ? {c d : Cell} (h : c.succ? = some d) : d.toNat = c.toNat + 1 := by
  have hc : ¬ c.toNat = 0xFFFFFFFFFFFFFFFF := by
    rw [← succ?_eq_none_iff, h]
    exact Option.some_ne_none d
  have hlt := c.toNat_lt
  rw [succ?] at h
  split at h
  · cases h
  · injection h with h
    rw [← h, UInt64.toNat_add, UInt64.toNat_one]
    omega

/-- A step down is the predecessor of the natural numbers wherever there is one. -/
theorem toNat_of_pred? {c d : Cell} (h : c.pred? = some d) : d.toNat + 1 = c.toNat := by
  have hc : ¬ c.toNat = 0 := by
    rw [← pred?_eq_none_iff, h]
    exact Option.some_ne_none d
  have hlt := c.toNat_lt
  rw [pred?] at h
  split at h
  · cases h
  · injection h with h
    rw [← h, UInt64.toNat_sub, UInt64.toNat_one]
    omega

/-- Steps up are one addition, and all of them have a result if and only if the sum fits into a cell. -/
theorem iterate?_succ? (n : Nat) (c : Cell) : iterate? succ? n c
    = if c.toNat + n < 0x10000000000000000 then some (c + UInt64.ofNat n) else none := by
  induction n generalizing c with
  | zero => simp [iterate?, c.toNat_lt]
  | succ n ih =>
    cases h : c.succ? with
    | none =>
      have hc := succ?_eq_none_iff.mp h
      rw [iterate?, h, Option.bind_none, if_neg (by omega)]
    | some d =>
      have hd := toNat_of_succ? h
      rw [iterate?, h, Option.bind_some, ih, hd, Nat.add_right_comm, ← Nat.add_assoc]
      split
      · congr 1
        rw [← UInt64.toNat_inj]
        simp only [UInt64.toNat_add, UInt64.toNat_ofNat', hd]
        omega
      · rfl

/-- Steps down are one subtraction, and all of them have a result if and only if the cell holds
enough. -/
theorem iterate?_pred? (n : Nat) (c : Cell) : iterate? pred? n c
    = if n ≤ c.toNat then some (c - UInt64.ofNat n) else none := by
  induction n generalizing c with
  | zero => simp [iterate?]
  | succ n ih =>
    cases h : c.pred? with
    | none =>
      have hc := pred?_eq_none_iff.mp h
      rw [iterate?, h, Option.bind_none, if_neg (by omega)]
    | some d =>
      have hd := toNat_of_pred? h
      have hlt := c.toNat_lt
      rw [iterate?, h, Option.bind_some, ih]
      by_cases hle : n ≤ d.toNat
      · rw [if_pos hle, if_pos (by omega)]
        congr 1
        rw [← UInt64.toNat_inj]
        simp only [UInt64.toNat_sub, UInt64.toNat_ofNat']
        omega
      · rw [if_neg hle, if_neg (by omega)]

end Cell

end TapeLowering
