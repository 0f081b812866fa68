import TapeLowering.Proofs.ArithmeticEffects
import TapeLowering.Proofs.Calls

/-!
# Arithmetic on cells is arithmetic on numbers

The machine crosses the text of a sum, a difference or a product if that is a number of a cell, and the
number is in the result then. If it is too large, or less than zero, the machine fails, and it does so in
the cell of the result: no copy of an operand, and no count of rounds, ever leaves its range. The result
and the operands may be in the same cells.
-/

namespace TapeLowering.Routine

open Store

variable {e : Emitter} {result left right : Slot}

/-- The machine crosses the text of a sum that fits into a cell, and fails in the result if it does
not. -/
theorem add_crosses_or_overflows (hresult : result.index < e.depth) (hleft : left.index < e.depth)
    (hright : right.index < e.depth) :
    (Operation.binary .add result left right).Lowers e fun text cursor w =>
      (w.value left + w.value right < 0x10000000000000000 →
        ∃ w', w.Crosses text w' ∧ w'.tape.pointer = cursor ∧
          w.Puts e.depth result (w.value left + w.value right) w') ∧
      (w.FailsOn text (.cellOverflow result.index) ↔
        0x10000000000000000 ≤ w.value left + w.value right) := by
  have hslots : ∀ x ∈ (Operation.binary .add result left right).slots, x.index < e.depth :=
    Operation.forall_mem_slots_binary hresult hleft hright
  simp only [← Nat.not_lt]
  exact Operation.lowers_or_fails hslots nofun hresult
    (fun w hfits => ⟨_, Cell.toNat_add_of_lt hfits, ensures_add hresult hleft hright hfits⟩)
    (fun w hlarge => fails_add hresult hleft hright (Nat.not_lt.mp hlarge))

/-- A cell that is added to itself, into itself: the greatest double that fits, and the least one that
does not. -/
theorem add_crosses_or_overflows_doubled :
    let e : Emitter := Emitter.allocate {}
    let w (v : Cell) : Workspace := { tape := ⟨[], v, [5, 5, 5]⟩ }
    ∃ e', Emitter.emitAll ((add ⟨0⟩ ⟨0⟩ ⟨0⟩).commands 1) e = .ok e' ∧
      (∃ w', (w 0x7FFFFFFFFFFFFFFF).Crosses e'.code.text w' ∧ w'.value ⟨0⟩ = 0xFFFFFFFFFFFFFFFE) ∧
      (w 0x8000000000000000).FailsOn e'.code.text (.cellOverflow 0) := by
  intro e w
  have he : e.Between := .emit (c := .allocate) .start rfl
  have hlowers : (Operation.binary .add ⟨0⟩ ⟨0⟩ ⟨0⟩).Lowers e _ :=
    add_crosses_or_overflows (by decide) (by decide) (by decide)
  obtain ⟨e', he', hcall⟩ := hlowers.of_empty he (by decide) (by decide) rfl
  obtain ⟨w', hcrosses, -, hputs⟩ := (hcall (w 0x7FFFFFFFFFFFFFFF) rfl).1 (by decide)
  exact ⟨e', he', ⟨w', hcrosses, hputs.value_eq.trans (by decide)⟩,
    (hcall (w 0x8000000000000000) rfl).2.mpr (by decide)⟩

/-- The machine crosses the text of a difference that is not less than zero, and fails in the result if
it is. -/
theorem sub_crosses_or_underflows (hresult : result.index < e.depth) (hleft : left.index < e.depth)
    (hright : right.index < e.depth) :
    (Operation.binary .sub result left right).Lowers e fun text cursor w =>
      (w.value right ≤ w.value left →
        ∃ w', w.Crosses text w' ∧ w'.tape.pointer = cursor ∧
          w.Puts e.depth result (w.value left - w.value right) w') ∧
      (w.FailsOn text (.decrementOfZero result.index) ↔ w.value left < w.value right) := by
  have hslots : ∀ x ∈ (Operation.binary .sub result left right).slots, x.index < e.depth :=
    Operation.forall_mem_slots_binary hresult hleft hright
  simp only [← Nat.not_le]
  refine Operation.lowers_or_fails hslots nofun hresult (fun w hle => ?_) (fun w hless => ?_)
  · have hle' : w.store.get right ≤ w.store.get left := UInt64.le_iff_toNat_le.mpr hle
    exact ⟨_, UInt64.toNat_sub_of_le _ _ hle', ensures_sub hresult hleft hright hle'⟩
  · exact fails_sub hresult hleft hright (UInt64.lt_iff_toNat_lt.mpr (Nat.not_le.mp hless))

/-- Differences that replace their left operand. -/
theorem sub_crosses_or_underflows_in_place :
    let e : Emitter := Emitter.allocate (Emitter.allocate {})
    let w (v : Cell) : Workspace := { tape := ⟨[], v, [Cell.greatest, 5, 5, 5]⟩ }
    ∃ e', Emitter.emitAll ((sub ⟨0⟩ ⟨0⟩ ⟨1⟩).commands 2) e = .ok e' ∧
      (∃ w', (w Cell.greatest).Crosses e'.code.text w' ∧ w'.value ⟨0⟩ = 0 ∧
        w'.value ⟨1⟩ = 0xFFFFFFFFFFFFFFFF) ∧
      (w 3).FailsOn e'.code.text (.decrementOfZero 0) := by
  intro e w
  have he : e.Between := .emit (c := .allocate) (.emit (c := .allocate) .start rfl) rfl
  have hlowers : (Operation.binary .sub ⟨0⟩ ⟨0⟩ ⟨1⟩).Lowers e _ :=
    sub_crosses_or_underflows (by decide) (by decide) (by decide)
  obtain ⟨e', he', hcall⟩ := hlowers.of_empty he (by decide) (by decide) rfl
  obtain ⟨w', hcrosses, -, hputs⟩ := (hcall (w Cell.greatest) rfl).1 (by decide)
  have hkept : w'.value ⟨1⟩ = (w Cell.greatest).value ⟨1⟩ :=
    congrArg UInt64.toNat (hputs.live 1 (by decide) (by decide))
  exact ⟨e', he', ⟨w', hcrosses, hputs.value_eq.trans (by decide), hkept.trans (by decide)⟩,
    (hcall (w 3) rfl).2.mpr (by decide)⟩

/-- The machine crosses the text of a product that fits into a cell, and fails in the result if it does
not. -/
theorem mul_crosses_or_overflows (hresult : result.index < e.depth) (hleft : left.index < e.depth)
    (hright : right.index < e.depth) :
    (Operation.binary .mul result left right).Lowers e fun text cursor w =>
      (w.value left * w.value right < 0x10000000000000000 →
        ∃ w', w.Crosses text w' ∧ w'.tape.pointer = cursor ∧
          w.Puts e.depth result (w.value left * w.value right) w') ∧
      (w.FailsOn text (.cellOverflow result.index) ↔
        0x10000000000000000 ≤ w.value left * w.value right) := by
  have hslots : ∀ x ∈ (Operation.binary .mul result left right).slots, x.index < e.depth :=
    Operation.forall_mem_slots_binary hresult hleft hright
  simp only [← Nat.not_lt]
  exact Operation.lowers_or_fails hslots nofun hresult
    (fun w hfits => ⟨_, Cell.toNat_mul_of_lt hfits, ensures_mul hresult hleft hright hfits⟩)
    (fun w hlarge => fails_mul hresult hleft hright (Nat.not_lt.mp hlarge))

/-- A cell that is squared, in place: the greatest square that fits, and the least one that does not. -/
theorem mul_crosses_or_overflows_squared :
    let e : Emitter := Emitter.allocate {}
    let w (v : Cell) : Workspace := { tape := ⟨[], v, [5, 5, 5, 5]⟩ }
    ∃ e', Emitter.emitAll ((mul ⟨0⟩ ⟨0⟩ ⟨0⟩).commands 1) e = .ok e' ∧
      (∃ w', (w 0xFFFFFFFF).Crosses e'.code.text w' ∧ w'.value ⟨0⟩ = 0xFFFFFFFE00000001) ∧
      (w 0x100000000).FailsOn e'.code.text (.cellOverflow 0) := by
  intro e w
  have he : e.Between := .emit (c := .allocate) .start rfl
  have hlowers : (Operation.binary .mul ⟨0⟩ ⟨0⟩ ⟨0⟩).Lowers e _ :=
    mul_crosses_or_overflows (by decide) (by decide) (by decide)
  obtain ⟨e', he', hcall⟩ := hlowers.of_empty he (by decide) (by decide) rfl
  obtain ⟨w', hcrosses, -, hputs⟩ := (hcall (w 0xFFFFFFFF) rfl).1 (by decide)
  exact ⟨e', he', ⟨w', hcrosses, hputs.value_eq.trans (by decide)⟩,
    (hcall (w 0x100000000) rfl).2.mpr (by decide)⟩

end TapeLowering.Routine
