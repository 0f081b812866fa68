import TapeLowering.Proofs.ArithmeticEffects

/-!
# The rounds of a division

A division takes the divisor from a copy of the dividend, round by round, and counts the rounds in the
quotient. What is left of the dividend, and how often the divisor was taken from it, make up the dividend
again: `Divides`. If the divisor is not zero, the number of the rounds still to come is the quotient of
what is left, and behind the last one that quotient is zero (`ensures_divMod`).

A divisor of zero fits into anything. A round then changes nothing but the quotient, which cannot be too
large for a cell before as many rounds have passed (`unfinished_divMod`).
-/

namespace TapeLowering.Routine

open Command Store

variable {depth : Nat} {s t : Store} {quotient remainder dividend divisor : Slot}
  {rest step count : Cell}

/-- The store within a division: what is left of the dividend, the divisor, the quotient so far, and
whether the divisor fits into what is left. -/
def division (depth : Nat) (quotient : Slot) (s : Store) (rest step count : Cell) : Store :=
  (((s.put ⟨depth⟩ rest).put ⟨depth + 1⟩ step).put quotient count).put ⟨depth + 2⟩
    (if step ≤ rest then 1 else 0)

/-- One round of a division. -/
def divisionRound (depth : Nat) (quotient : Slot) : Routine :=
  block [sub ⟨depth⟩ ⟨depth⟩ ⟨depth + 1⟩, increment quotient, ge ⟨depth + 2⟩ ⟨depth⟩ ⟨depth + 1⟩]

section

variable (hquotient : quotient.index < depth)
  (ht : Wiped (depth + 3) (division depth quotient s rest step count) t)

include hquotient ht

/-- What the four cells of a division hold: the rest, the step, the count and whether the step fits into
the rest. -/
theorem division_get : t.get ⟨depth⟩ = rest ∧ t.get ⟨depth + 1⟩ = step ∧ t.get quotient = count ∧
    t.get ⟨depth + 2⟩ = if step ≤ rest then 1 else 0 := by
  have hrest : (⟨depth⟩ : Slot) ≠ quotient := Slot.mk_ne_of_lt hquotient
  have hstep : (⟨depth + 1⟩ : Slot) ≠ quotient := Slot.mk_ne_of_lt (by omega)
  have hfits : quotient ≠ (⟨depth + 2⟩ : Slot) := (Slot.mk_ne_of_lt (by omega)).symm
  rw [ht.get_eq (by simp), ht.get_eq (by simp), ht.get_eq (by omega), ht.get_eq (by simp)]
  simp [division, hrest, hstep, hfits]

/-- A round takes the divisor from what is left, and counts. -/
theorem ensures_divisionRound (hle : step ≤ rest) (hlt : count.toNat + 1 < 0x10000000000000000) :
    Ensures ((divisionRound depth quotient).commands (depth + 3)) t
      (Wiped (depth + 3) (division depth quotient s (rest - step) step (count + 1))) := by
  have hrest : (⟨depth⟩ : Slot) ≠ quotient := Slot.mk_ne_of_lt hquotient
  have hstep : (⟨depth + 1⟩ : Slot) ≠ quotient := Slot.mk_ne_of_lt (by omega)
  obtain ⟨hgetr, hgets, hgetq, -⟩ := division_get hquotient ht
  rw [divisionRound, ensures_block_cons]
  refine (ensures_sub (by simp) (by simp) (by simp) (by rwa [hgetr, hgets])).mono fun u hu => ?_
  rw [hgetr, hgets] at hu
  have hugetq : u.get quotient = count := by
    rw [hu.get_eq (by omega), get_put_of_ne hrest.symm, hgetq]
  have hugetr : u.get ⟨depth⟩ = rest - step := by rw [hu.get_eq (by simp), get_put_self]
  have hugets : u.get ⟨depth + 1⟩ = step := by
    rw [hu.get_eq (by simp), get_put_of_ne (by simp), hgets]
  rw [ensures_block_cons, ensures_increment (by rwa [hugetq]), hugetq, ensures_block_cons]
  refine (ensures_le (by simp) (by simp) (by simp)).mono fun v hv => ?_
  rw [get_put_of_ne hrest, get_put_of_ne hstep, hugetr, hugets] at hv
  refine ensures_block_nil.mpr ⟨fun i => ?_, (hv.inputs.trans hu.inputs).trans ht.inputs,
    (hv.written.trans hu.written).trans ht.written⟩
  have h₁ := ht.cells i
  have h₂ := hu.cells i
  have h₃ := hv.cells i
  simp only [division, cells_put] at h₁ h₂ h₃ ⊢
  grind

end

/-- Before the first round all of the dividend is left. -/
theorem ensures_division_start (hquotient : quotient.index < depth) {a b : Cell}
    (ht : Wiped (depth + 2) ((s.put ⟨depth⟩ a).put ⟨depth + 1⟩ b) t) :
    Ensures ((ge ⟨depth + 2⟩ ⟨depth⟩ ⟨depth + 1⟩).commands (depth + 3)) (t.put quotient 0)
      (Wiped (depth + 3) (division depth quotient s a b 0)) := by
  have hrest : (⟨depth⟩ : Slot) ≠ quotient := Slot.mk_ne_of_lt hquotient
  have hstep : (⟨depth + 1⟩ : Slot) ≠ quotient := Slot.mk_ne_of_lt (by omega)
  refine (ensures_le (by simp) (by simp) (by simp)).mono fun u hu => ?_
  rw [get_put_of_ne hrest, get_put_of_ne hstep, ht.get_lhs, ht.get_rhs] at hu
  refine ⟨fun i => ?_, hu.inputs.trans ht.inputs, hu.written.trans ht.written⟩
  have h₁ := ht.cells i
  have h₂ := hu.cells i
  simp only [division, cells_put] at h₁ h₂ ⊢
  grind

/-! ## Division by a cell that is not zero -/

/-- The divisor fits `n` times into what is left, and what is left and what has been taken make up the
dividend. -/
def Divides (depth : Nat) (quotient : Slot) (s : Store) (a b : Cell) (n : Nat) (t : Store) : Prop :=
  ∃ rest count : Cell, rest.toNat / b.toNat = n ∧
    count.toNat * b.toNat + rest.toNat = a.toNat ∧
    Wiped (depth + 3) (division depth quotient s rest b count) t

namespace Divides

variable {a b : Cell} {n : Nat} (hb : b ≠ 0)

include hb

/-- With a quotient of zero to come, the step does not fit into what is left, and the loop stops. -/
theorem get_eq_zero (hquotient : quotient.index < depth) (h : Divides depth quotient s a b 0 t) :
    t.get ⟨depth + 2⟩ = 0 := by
  obtain ⟨rest, count, hzero, -, ht⟩ := h
  have hpos : 0 < b.toNat := Nat.pos_of_ne_zero (Cell.toNat_ne_zero hb)
  have hlt : rest.toNat < b.toNat := (Nat.div_eq_zero_iff_lt hpos).mp hzero
  rw [(division_get hquotient ht).2.2.2, if_neg]
  rw [UInt64.le_iff_toNat_le]
  omega

/-- A round with a quotient to come takes the divisor from the rest once more. The count has room for
it, since it is at most the dividend. -/
theorem round (hquotient : quotient.index < depth) (h : Divides depth quotient s a b (n + 1) t) :
    t.get ⟨depth + 2⟩ ≠ 0 ∧ Ensures ((divisionRound depth quotient).commands (depth + 3)) t
      (Divides depth quotient s a b n) := by
  obtain ⟨rest, count, hn, hsum, ht⟩ := h
  have hpos : 0 < b.toNat := Nat.pos_of_ne_zero (Cell.toNat_ne_zero hb)
  have hle : b.toNat ≤ rest.toNat := by
    apply Nat.le_of_not_lt
    intro hlt
    rw [Nat.div_eq_of_lt hlt] at hn
    cases hn
  have hrest : (rest - b).toNat = rest.toNat - b.toNat :=
    UInt64.toNat_sub_of_le _ _ (UInt64.le_iff_toNat_le.mpr hle)
  have hnext : (count.toNat + 1) * b.toNat + (rest - b).toNat = a.toNat := by
    rw [Nat.succ_mul, hrest]
    omega
  -- the quotient is no greater than the dividend
  have hlt : count.toNat + 1 < 0x10000000000000000 := by
    have := Nat.le_mul_of_pos_right (count.toNat + 1) hpos
    have := a.toNat_lt
    omega
  have hcount : (count + 1).toNat = count.toNat + 1 := Cell.toNat_add_of_lt hlt
  refine ⟨?_, (ensures_divisionRound hquotient ht (UInt64.le_iff_toNat_le.mpr hle) hlt).mono
    fun u hu => ⟨rest - b, count + 1, ?_, ?_, hu⟩⟩
  · rw [(division_get hquotient ht).2.2.2, if_pos (UInt64.le_iff_toNat_le.mpr hle)]
    decide
  · rw [Nat.div_eq_sub_div hpos hle] at hn
    rw [hrest]
    omega
  · rw [hcount, hnext]

/-- Behind the last round, quotient and remainder are what they should be. -/
theorem wiped (h : Divides depth quotient s a b 0 t) :
    Wiped (depth + 3) (division depth quotient s (a % b) b (a / b)) t := by
  obtain ⟨rest, count, hzero, hsum, ht⟩ := h
  have hpos : 0 < b.toNat := Nat.pos_of_ne_zero (Cell.toNat_ne_zero hb)
  have hlt : rest.toNat < b.toNat := (Nat.div_eq_zero_iff_lt hpos).mp hzero
  have hunique : a.toNat / b.toNat = count.toNat ∧ a.toNat % b.toNat = rest.toNat := by
    rw [Nat.div_mod_unique hpos]
    exact ⟨by rw [← hsum, Nat.mul_comm]; omega, hlt⟩
  have hcount : a / b = count := by rw [← UInt64.toNat_inj, UInt64.toNat_div, hunique.1]
  have hrest : a % b = rest := by rw [← UInt64.toNat_inj, UInt64.toNat_mod, hunique.2]
  rwa [hcount, hrest]

end Divides

/-- Division puts the quotient and the remainder of the divisor into two cells. -/
theorem ensures_divMod (hquotient : quotient.index < depth) (hremainder : remainder.index < depth)
    (hdividend : dividend.index < depth) (hdivisor : divisor.index < depth)
    (hne : quotient ≠ remainder) (hb : s.get divisor ≠ 0) :
    Ensures ((divMod quotient remainder dividend divisor).commands depth) s
      (Wiped depth ((s.put quotient (s.get dividend / s.get divisor)).put remainder
        (s.get dividend % s.get divisor))) := by
  refine ensures_holding_pair hdividend hdivisor fun t ht => ?_
  rw [ensures_block_cons, ensures_reset, ensures_block_cons, ensures_scratch, ensures_block_cons]
  refine (ensures_division_start hquotient ht).mono fun u hu => ?_
  have hstart : Divides depth quotient s (s.get dividend) (s.get divisor)
      ((s.get dividend).toNat / (s.get divisor).toNat) u := ⟨_, 0, rfl, by simp, hu⟩
  have hloop := ensures_loop (x := ⟨depth + 2⟩) (fun _ h => h.get_eq_zero hb hquotient)
    (fun _ _ h => h.round hb hquotient) hstart
  rw [ensures_block_cons]
  refine hloop.mono fun v hv => ?_
  have hv := hv.wiped hb
  have hrest : ((v.put ⟨depth + 1⟩ 0).put remainder 0).get ⟨depth⟩
      = s.get dividend % s.get divisor := by
    rw [get_put_of_ne (Slot.mk_ne_of_lt hremainder), get_put_of_ne (by simp),
      (division_get hquotient hv).1]
  rw [ensures_block_cons, ensures_reset, ensures_block_cons, ensures_reset, ensures_block_cons,
    ensures_transfer, hrest, get_put_self, UInt64.zero_add, ensures_block_nil, ensures_block_nil]
  -- the step does not fit into the remainder, so the flag is at zero like the scratch cells
  · have hne' := mt Slot.ext hne
    have hfits : ¬ s.get divisor ≤ s.get dividend % s.get divisor := by
      rw [UInt64.le_iff_toNat_le, UInt64.toNat_mod]
      exact Nat.not_le.mpr (Nat.mod_lt _ (Nat.pos_of_ne_zero (Cell.toNat_ne_zero hb)))
    refine ⟨fun i => ?_, hv.inputs, hv.written⟩
    have hi := hv.cells i
    simp only [division, cells_put, if_neg hfits] at hi ⊢
    grind
  · rw [hrest, get_put_self, UInt64.toNat_zero, Nat.add_zero]
    exact UInt64.toNat_lt _

/-! ## Division by zero -/

/-- The divisor is zero, all of the dividend is left, and the quotient has room for `n` more rounds. -/
def CountsOn (depth : Nat) (quotient : Slot) (s : Store) (a : Cell) (n : Nat) (t : Store) : Prop :=
  ∃ count : Cell, count.toNat + n < 0x10000000000000000 ∧
    Wiped (depth + 3) (division depth quotient s a 0 count) t

namespace CountsOn

variable {a : Cell} {n : Nat} (hquotient : quotient.index < depth)

include hquotient

/-- A step of zero fits into whatever is left, so the loop goes on. -/
theorem get_ne_zero (h : CountsOn depth quotient s a n t) : t.get ⟨depth + 2⟩ ≠ 0 := by
  obtain ⟨count, -, ht⟩ := h
  rw [(division_get hquotient ht).2.2.2, if_pos UInt64.zero_le]
  decide

/-- A round with a step of zero changes the count alone, as long as there is room for that. -/
theorem round (h : CountsOn depth quotient s a (n + 1) t) :
    Ensures ((divisionRound depth quotient).commands (depth + 3)) t
      (CountsOn depth quotient s a n) := by
  obtain ⟨count, hroom, ht⟩ := h
  have hcount : (count + 1).toNat = count.toNat + 1 := Cell.toNat_add_of_lt (by simp; omega)
  refine (ensures_divisionRound hquotient ht UInt64.zero_le (by omega)).mono fun u hu => ?_
  rw [UInt64.sub_zero] at hu
  exact ⟨count + 1, by omega, hu⟩

end CountsOn

/-- A division by zero has not ended after any number of rounds that a cell can count. -/
theorem unfinished_divMod (hquotient : quotient.index < depth) (hdividend : dividend.index < depth)
    (hdivisor : divisor.index < depth) (hb : s.get divisor = 0) {fuel : Nat}
    (hfuel : fuel < 0x10000000000000000) :
    runAll fuel ((divMod quotient remainder dividend divisor).commands depth) s = .unfinished := by
  have hbreaks := breaks_unfinished fuel
  refine holding_pair_of_inherited hdividend hdivisor hbreaks.toInherited fun t ht => ?_
  apply hbreaks.tail
  rw [ensures_reset]
  apply hbreaks.head
  apply hbreaks.scratch
  apply hbreaks.tail
  refine (ensures_division_start hquotient ht).mono fun u hu => hbreaks.head ?_
  rw [hb] at hu
  have hstart : CountsOn depth quotient s (s.get dividend) fuel u := ⟨0, by simpa using hfuel, hu⟩
  exact unfinished_loop (P := CountsOn depth quotient s (s.get dividend))
    (fun _ _ h => h.get_ne_zero hquotient) (fun _ _ h => h.round hquotient) hstart

end TapeLowering.Routine
