import TapeLowering.Proofs.Calls
import TapeLowering.Proofs.RoutineEffects

/-!
# A copy loses nothing

The machine crosses the text of a copy, whatever the two cells hold. The source is emptied on the way,
and has its value again at the end (`copy_crosses`). The only scratch cell is the first one, and it is
zero then; no other cell has changed.
-/

namespace TapeLowering.Routine

open Store

/-- A copy of a cell into itself has no commands. -/
theorem commands_copy_self (x : Slot) (depth : Nat) : (copy x x).commands depth = [] := by
  rw [copy, if_pos rfl]
  rfl

/-- The machine crosses the text of a copy, and leaves the value of the source in the destination. It
changes no other cell, except that it leaves zero in the first one that is not live. If both slots are the
same, it changes none at all, and there is no text for it to cross. -/
theorem copy_crosses {e : Emitter} {destination source : Slot}
    (hdestination : destination.index < e.depth) (hsource : source.index < e.depth) :
    ((Operation.copy destination source).LowersTo e fun w w' =>
      w'.value destination = w.value source ∧ w'.value source = w.value source ∧
      (∀ i, i ≠ destination.index → i ≠ e.depth → w'.tape.cellAt i = w.tape.cellAt i) ∧
      w'.tape.cellAt e.depth = (if destination = source then w.tape.cellAt e.depth else 0) ∧
      w'.inputs = w.inputs ∧ w'.written = w.written) ∧
    (destination = source →
      Emitter.emitAll ((copy destination source).commands e.depth) e = .ok e) := by
  have hslots : ∀ x ∈ (Operation.copy destination source).slots, x.index < e.depth := by
    simp [Operation.slots, hdestination, hsource]
  refine ⟨Operation.lowersTo hslots (by simp) fun w => ?_, ?_⟩
  · rw [Operation.routine]
    by_cases heq : destination = source
    · rw [heq, commands_copy_self, Command.ensures_nil]
      intro w' hw'
      have hcell : ∀ i, w'.tape.cellAt i = w.tape.cellAt i := congrFun (congrArg Store.cells hw')
      have hvalue : w'.value source = w.value source := congrArg UInt64.toNat (hcell source.index)
      exact ⟨hvalue, hvalue, fun i _ _ => hcell i, by rw [if_pos rfl, hcell],
        congrArg Store.inputs hw', congrArg Store.written hw'⟩
    · refine (ensures_copy_of_ne heq (Slot.mk_ne_of_lt hdestination).symm
        (Slot.mk_ne_of_lt hsource).symm).mono ?_
      rintro t rfl w' hw'
      -- a copy between two slots is known in every cell, the spare one included
      have hcell : ∀ i, w'.tape.cellAt i = if i = e.depth then 0 else
          if i = destination.index then w.tape.cellAt source.index else w.tape.cellAt i :=
        congrFun (congrArg Store.cells hw')
      refine ⟨congrArg UInt64.toNat ?_, congrArg UInt64.toNat ?_, fun i hi hdepth => ?_, ?_,
        congrArg Store.inputs hw', congrArg Store.written hw'⟩
      · rw [hcell, if_neg (Nat.ne_of_lt hdestination), if_pos rfl]
      · rw [hcell, if_neg (Nat.ne_of_lt hsource), if_neg (mt Slot.ext fun h => heq h.symm)]
      · rw [hcell, if_neg hdepth, if_neg hi]
      · rw [hcell, if_pos rfl, if_neg heq]
  · rintro rfl
    rw [commands_copy_self]
    rfl

/-- The greatest value is copied, over a cell and next to cells that are not zero. -/
theorem copy_crosses_greatest :
    let e : Emitter := Emitter.allocate (Emitter.allocate {})
    let w : Workspace := { tape := ⟨[], 7, [Cell.greatest, 5, 6]⟩ }
    ∃ e' w', Emitter.emitAll ((copy ⟨0⟩ ⟨1⟩).commands 2) e = .ok e' ∧ w.Crosses e'.code.text w' ∧
      w'.value ⟨0⟩ = 0xFFFFFFFFFFFFFFFF ∧ w'.value ⟨1⟩ = 0xFFFFFFFFFFFFFFFF ∧
      w'.tape.cellAt 2 = 0 ∧ w'.tape.cellAt 3 = 6 := by
  intro e w
  have he : e.Between := .emit (c := .allocate) (.emit (c := .allocate) .start rfl) rfl
  have hlowers : (Operation.copy ⟨0⟩ ⟨1⟩).Lowers e _ :=
    (copy_crosses (by decide) (by decide)).1
  obtain ⟨e', he', hcall⟩ := hlowers.of_empty he (by decide) (by decide) rfl
  obtain ⟨w', hcrosses, -, hvalue, hsource, hother, hspare, -⟩ := hcall w rfl
  exact ⟨e', w', he', hcrosses, hvalue.trans (by decide), hsource.trans (by decide),
    hspare.trans (by decide), (hother 3 (by decide) (by decide)).trans (by decide)⟩

end TapeLowering.Routine
