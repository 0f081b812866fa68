import TapeLowering.Proofs.Calls
import TapeLowering.Proofs.RoutineEffects

/-!
# Logic on cells

The machine crosses the text of a negation, a conjunction or a disjunction, whatever the operands hold:
any value but zero counts as true. The result is exactly one or exactly zero then (`logic_crosses`), so it
can be counted with, or be the operand of a further operation. The result and the operands may be in the
same cells.
-/

namespace TapeLowering

/-- A call that puts one into its result if a condition on the operands holds, and zero if not. -/
theorem Operation.lowersTo_puts_ite {o : Operation Slot} {e : Emitter} {result : Slot}
    {holds : Workspace → Prop} [DecidablePred holds] (hslots : ∀ x ∈ o.slots, x.index < e.depth)
    (hne : ∀ x, o ≠ .absorb x x) (hresult : result.index < e.depth)
    (h : ∀ w : Workspace, Command.Ensures (o.routine.commands e.depth) w.store
      (Store.Wiped e.depth (w.store.put result (if holds w then 1 else 0)))) :
    o.LowersTo e fun w w' => w.Puts e.depth result (if holds w then 1 else 0) w' := by
  refine lowersTo hslots hne fun w => (h w).mono ?_
  rintro t ht w' rfl
  have hputs := Workspace.puts_of_wiped hresult ht
  rwa [apply_ite UInt64.toNat] at hputs

namespace Routine

/-- The machine crosses the text of a logical operation, and leaves in the result one if the operation
holds of the operands, and zero if not. -/
theorem logic_crosses {e : Emitter} {result left right : Slot} (hresult : result.index < e.depth)
    (hleft : left.index < e.depth) (hright : right.index < e.depth) :
    ((Operation.not result left).LowersTo e fun w w' =>
      w.Puts e.depth result (if w.value left = 0 then 1 else 0) w') ∧
    ((Operation.binary .and result left right).LowersTo e fun w w' =>
      w.Puts e.depth result (if w.value left ≠ 0 ∧ w.value right ≠ 0 then 1 else 0) w') ∧
    ((Operation.binary .or result left right).LowersTo e fun w w' =>
      w.Puts e.depth result (if w.value left ≠ 0 ∨ w.value right ≠ 0 then 1 else 0) w') := by
  have hslots : ∀ o, ∀ x ∈ (Operation.binary o result left right).slots, x.index < e.depth :=
    fun o => Operation.forall_mem_slots_binary hresult hleft hright
  refine ⟨Operation.lowersTo_puts_ite (by simp [Operation.slots, hresult, hleft]) nofun hresult fun w => ?_,
    Operation.lowersTo_puts_ite (hslots _) nofun hresult fun w => ?_,
    Operation.lowersTo_puts_ite (hslots _) nofun hresult fun w => ?_⟩
  · simp only [Workspace.value_eq_zero_iff]
    exact ensures_not hresult hleft
  · simp only [ne_eq, Workspace.value_eq_zero_iff]
    exact ensures_and hresult hleft hright
  · simp only [ne_eq, Workspace.value_eq_zero_iff]
    exact ensures_or hresult hleft hright

/-- A cell with the greatest value replaced by its disjunction with itself, which is one, next to cells
that are not zero; and by its negation, which is zero. -/
theorem logic_crosses_in_place :
    let e : Emitter := Emitter.allocate {}
    let w : Workspace := { tape := ⟨[], Cell.greatest, [5, 5, 5]⟩ }
    (∃ e' w', Emitter.emitAll ((or ⟨0⟩ ⟨0⟩ ⟨0⟩).commands 1) e = .ok e' ∧ w.Crosses e'.code.text w' ∧
      w'.value ⟨0⟩ = 1) ∧
    (∃ e' w', Emitter.emitAll ((not ⟨0⟩ ⟨0⟩).commands 1) e = .ok e' ∧ w.Crosses e'.code.text w' ∧
      w'.value ⟨0⟩ = 0) := by
  intro e w
  have he : e.Between := .emit (c := .allocate) .start rfl
  obtain ⟨hnot, -, hor⟩ := @logic_crosses e ⟨0⟩ ⟨0⟩ ⟨0⟩ (by decide) (by decide) (by decide)
  obtain ⟨e', he', hcall⟩ := Operation.Lowers.of_empty hor he (by decide) (by decide) rfl
  obtain ⟨w', hcrosses, -, hputs⟩ := hcall w rfl
  refine ⟨⟨e', w', he', hcrosses, hputs.value_eq.trans (by decide)⟩, ?_⟩
  obtain ⟨e', he', hcall⟩ := Operation.Lowers.of_empty hnot he (by decide) (by decide) rfl
  obtain ⟨w', hcrosses, -, hputs⟩ := hcall w rfl
  exact ⟨e', w', he', hcrosses, hputs.value_eq.trans (by decide)⟩

end Routine

end TapeLowering
