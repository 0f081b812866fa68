import TapeLowering.Proofs.Calls
import TapeLowering.Proofs.RoutineEffects

/-!
# Comparisons decide the order of the cells

Two cells are compared by taking them down together. The machine crosses the text for that, whatever the
two cells hold, and takes from both what the smaller one held (`cancel_crosses`).

The machine crosses the text that is emitted for a comparison, whatever two values are compared, and the
result is exactly one or exactly zero then (`comparison_crosses`). The result and the operands may be in
the same cells.
-/

namespace TapeLowering

/-- The relation between numbers that a comparison decides; other operations decide none. -/
def BinaryOperation.relation? : BinaryOperation → Option (Nat → Nat → Bool)
  | lt => some fun a b => a < b
  | le => some fun a b => a ≤ b
  | gt => some fun a b => a > b
  | ge => some fun a b => a ≥ b
  | add | sub | mul | and | or => none

namespace Routine

open Store

/-! ## Two cells taken down -/

/-- The machine crosses the text that takes two cells down, never below zero, and leaves what is not common
to both. No other live cell has changed then, and the cells above the live ones have not changed either or
hold zero. -/
theorem cancel_crosses {e : Emitter} {left right : Slot} (hleft : left.index < e.depth)
    (hright : right.index < e.depth) (hne : left ≠ right) :
    (Operation.cancel left right).LowersTo e fun w w' =>
      w'.value left = w.value left - min (w.value left) (w.value right) ∧
      w'.value right = w.value right - min (w.value left) (w.value right) ∧
      (∀ i, i < e.depth → i ≠ left.index → i ≠ right.index → w'.tape.cellAt i = w.tape.cellAt i) ∧
      (∀ i, e.depth ≤ i → w'.tape.cellAt i = w.tape.cellAt i ∨ w'.tape.cellAt i = 0) ∧
      w'.inputs = w.inputs ∧ w'.written = w.written := by
  have hslots : ∀ x ∈ (Operation.cancel left right).slots, x.index < e.depth := by
    simp [Operation.slots, hleft, hright]
  refine Operation.lowersTo hslots (by simp) fun w => (ensures_cancel hne hleft hright).mono ?_
  rintro t ht w' rfl
  have hgetl : w'.value left = w.value left - w.value right := by
    have hget := ht.get_eq hleft
    rw [get_put_of_ne hne, get_put_self] at hget
    exact (congrArg UInt64.toNat hget).trans Cell.toNat_monus
  have hgetr : w'.value right = w.value right - w.value left := by
    have hget := ht.get_eq hright
    rw [get_put_self] at hget
    exact (congrArg UInt64.toNat hget).trans Cell.toNat_monus
  -- only cells above the live ones may have been wiped
  have hother : ∀ i, i ≠ left.index → i ≠ right.index →
      w'.tape.cellAt i = w.tape.cellAt i ∨ e.depth ≤ i ∧ w'.tape.cellAt i = 0 := by
    intro i hl hr
    have hi := ht.cells i
    rwa [cells_put, if_neg hr, cells_put, if_neg hl] at hi
  refine ⟨by omega, by omega, fun i hi hl hr => ?_, fun i hi => ?_, ht.inputs, ht.written⟩
  · exact (hother i hl hr).resolve_right fun h => by omega
  · exact (hother i (by omega) (by omega)).imp_right And.right

/-- The greatest value is taken down with the one below it, next to cells that are not zero. -/
theorem cancel_crosses_greatest :
    let e : Emitter := Emitter.allocate (Emitter.allocate {})
    let w : Workspace := { tape := ⟨[], Cell.greatest, [Cell.greatest - 1, 5, 5, 5]⟩ }
    ∃ e' w', Emitter.emitAll ((cancel ⟨0⟩ ⟨1⟩).commands 2) e = .ok e' ∧ w.Crosses e'.code.text w' ∧
      w'.value ⟨0⟩ = 1 ∧ w'.value ⟨1⟩ = 0 := by
  intro e w
  have he : e.Between := .emit (c := .allocate) (.emit (c := .allocate) .start rfl) rfl
  have hlowers : (Operation.cancel ⟨0⟩ ⟨1⟩).Lowers e _ :=
    cancel_crosses (by decide) (by decide) (by decide)
  obtain ⟨e', he', hcall⟩ := hlowers.of_empty he (by decide) (by decide) rfl
  obtain ⟨w', hcrosses, -, hleft, hright, -⟩ := hcall w rfl
  exact ⟨e', w', he', hcrosses, hleft.trans (by decide), hright.trans (by decide)⟩

/-! ## Comparisons -/

/-- Every comparison ensures one in the result if its relation holds of the operands, and zero if not:
two of the four are the other two with the operands exchanged. -/
theorem ensures_comparison {depth : Nat} {s : Store} {o : BinaryOperation} {holds : Nat → Nat → Bool}
    {result left right : Slot} (ho : o.relation? = some holds) (hresult : result.index < depth)
    (hleft : left.index < depth) (hright : right.index < depth) :
    Command.Ensures ((o.routine result left right).commands depth) s (Wiped depth
      (s.put result (if holds (s.get left).toNat (s.get right).toNat then 1 else 0))) := by
  cases o with
  | lt =>
    cases ho
    simp only [decide_eq_true_eq, ← UInt64.lt_iff_toNat_lt]
    exact ensures_lt hresult hleft hright
  | le =>
    cases ho
    simp only [decide_eq_true_eq, ← UInt64.le_iff_toNat_le]
    exact ensures_le hresult hleft hright
  | gt =>
    cases ho
    simp only [decide_eq_true_eq, gt_iff_lt, ← UInt64.lt_iff_toNat_lt]
    exact ensures_lt hresult hright hleft
  | ge =>
    cases ho
    simp only [decide_eq_true_eq, ge_iff_le, ← UInt64.le_iff_toNat_le]
    exact ensures_le hresult hright hleft
  | add | sub | mul | and | or => cases ho

/-- The machine crosses the text of a comparison, and leaves one in the result if the comparison holds of
the operands, and zero if not. -/
theorem comparison_crosses {o : BinaryOperation} {holds : Nat → Nat → Bool}
    (ho : o.relation? = some holds) {e : Emitter} {result left right : Slot}
    (hresult : result.index < e.depth) (hleft : left.index < e.depth) (hright : right.index < e.depth) :
    (Operation.binary o result left right).Lowers e fun text cursor w =>
      ∃ w', w.Crosses text w' ∧ w'.tape.pointer = cursor ∧
        w.Puts e.depth result (if holds (w.value left) (w.value right) then 1 else 0) w' := by
  have hslots : ∀ x ∈ (Operation.binary o result left right).slots, x.index < e.depth :=
    Operation.forall_mem_slots_binary hresult hleft hright
  refine Operation.lowers hslots nofun fun text cursor w hputs _ => ?_
  obtain ⟨w', hcrosses, hpointer, hw'⟩ := hputs result _ hresult
    (ensures_comparison ho hresult hleft hright)
  rw [apply_ite UInt64.toNat] at hw'
  exact ⟨w', hcrosses, hpointer, hw'⟩

/-- The greatest value is at most itself, also where the result replaces the left operand and the cells
above are not zero. -/
theorem comparison_crosses_tie :
    let e : Emitter := Emitter.allocate (Emitter.allocate {})
    let w : Workspace := { tape := ⟨[], Cell.greatest, [Cell.greatest, 5, 5, 5, 5]⟩ }
    ∃ e' w', Emitter.emitAll ((BinaryOperation.le.routine ⟨0⟩ ⟨0⟩ ⟨1⟩).commands 2) e = .ok e' ∧
      w.Crosses e'.code.text w' ∧ w'.value ⟨0⟩ = 1 ∧ w'.tape.cellAt 1 = Cell.greatest := by
  intro e w
  have he : e.Between := .emit (c := .allocate) (.emit (c := .allocate) .start rfl) rfl
  have hlowers : (Operation.binary .le ⟨0⟩ ⟨0⟩ ⟨1⟩).Lowers e _ :=
    comparison_crosses rfl (by decide) (by decide) (by decide)
  obtain ⟨e', he', hcall⟩ := hlowers.of_empty he (by decide) (by decide) rfl
  obtain ⟨w', hcrosses, -, hputs⟩ := hcall w rfl
  exact ⟨e', w', he', hcrosses, hputs.value_eq.trans (by decide),
    (hputs.live 1 (by decide) (by decide)).trans (by decide)⟩

end Routine

end TapeLowering
