import TapeLowering.Proofs.Crossing
import TapeLowering.Proofs.DivisionRounds

/-!
# Division is Euclidean division

The machine crosses the text that is emitted for a division, whatever two values are divided, as long as
the divisor is not zero. The quotient and the remainder are in two cells then, which may have been those
of the operands, and all other live cells are what they were (`divMod_crosses`).
-/

namespace TapeLowering.Routine

open Store

/-- The machine crosses the text of a division by a cell that is not zero, and leaves the quotient and
the remainder in the two cells for them. No other live cell has changed then, no input was read and no
output written, and the cells above the live ones have not changed either or hold zero. -/
theorem divMod_crosses {e e' : Emitter} {quotient remainder dividend divisor : Slot}
    (hquotient : quotient.index < e.depth) (hremainder : remainder.index < e.depth)
    (hdividend : dividend.index < e.depth) (hdivisor : divisor.index < e.depth)
    (hne : quotient ≠ remainder)
    (h : Emitter.emitAll ((divMod quotient remainder dividend divisor).commands e.depth) e = .ok e') :
    e'.depth = e.depth ∧ ∃ text, e'.code.text = e.code.text ++ text ∧
      ∀ w : Workspace, w.tape.pointer = e.cursor → w.tape.cellAt divisor.index ≠ 0 →
        ∃ w', w.Crosses text w' ∧ w'.tape.pointer = e'.cursor ∧
          (w'.tape.cellAt quotient.index).toNat
            = (w.tape.cellAt dividend.index).toNat / (w.tape.cellAt divisor.index).toNat ∧
          (w'.tape.cellAt remainder.index).toNat
            = (w.tape.cellAt dividend.index).toNat % (w.tape.cellAt divisor.index).toNat ∧
          (∀ i, i < e.depth → i ≠ quotient.index → i ≠ remainder.index →
            w'.tape.cellAt i = w.tape.cellAt i) ∧
          (∀ i, e.depth ≤ i → w'.tape.cellAt i = w.tape.cellAt i ∨ w'.tape.cellAt i = 0) ∧
          w'.inputs = w.inputs ∧ w'.written = w.written := by
  have hslots : ∀ x ∈ (Operation.divMod quotient remainder dividend divisor).slots,
      x.index < e.depth := by
    simp [Operation.slots, hquotient, hremainder, hdividend, hdivisor]
  obtain ⟨hdepth, text, htext, hcall⟩ := Operation.exists_text hslots h
  refine ⟨hdepth, text, htext, fun w hw hb => ?_⟩
  obtain ⟨w', hcrosses, hpointer, hwiped⟩ := (hcall w hw).1 _
    (ensures_divMod hquotient hremainder hdividend hdivisor hne hb)
  have hgetq : w'.store.get quotient = w.store.get dividend / w.store.get divisor := by
    rw [hwiped.get_eq hquotient, get_put_of_ne hne, get_put_self]
  have hgetr : w'.store.get remainder = w.store.get dividend % w.store.get divisor := by
    rw [hwiped.get_eq hremainder, get_put_self]
  have hother : ∀ i, i ≠ quotient.index → i ≠ remainder.index →
      w'.tape.cellAt i = w.tape.cellAt i ∨ e.depth ≤ i ∧ w'.tape.cellAt i = 0 := by
    intro i hq hr
    have hi := hwiped.cells i
    rwa [cells_put, if_neg hr, cells_put, if_neg hq] at hi
  refine ⟨w', hcrosses, hpointer, ?_, ?_, fun i hi hq hr => ?_, fun i hi => ?_, hwiped.inputs,
    hwiped.written⟩
  · exact (congrArg UInt64.toNat hgetq).trans (UInt64.toNat_div _ _)
  · exact (congrArg UInt64.toNat hgetr).trans (UInt64.toNat_mod _ _)
  · exact (hother i hq hr).resolve_right fun h => by omega
  · exact (hother i (by omega) (by omega)).imp_right And.right

/-- Seven by two, where the results replace the operands and the cells above are not zero. -/
theorem divMod_crosses_into_operands :
    let e : Emitter := Emitter.allocate (Emitter.allocate {})
    let w : Workspace := { tape := ⟨[], 7, [2, 5, 5, 5]⟩ }
    ∃ e' text w', Emitter.emitAll ((divMod ⟨0⟩ ⟨1⟩ ⟨0⟩ ⟨1⟩).commands 2) e = .ok e' ∧
      e'.code.text = text ∧ w.Crosses text w' ∧
      (w'.tape.cellAt 0).toNat = 3 ∧ (w'.tape.cellAt 1).toNat = 1 := by
  intro e w
  have hok : (Emitter.emitAll ((divMod ⟨0⟩ ⟨1⟩ ⟨0⟩ ⟨1⟩).commands 2) e).isOk = true := by
    decide +kernel
  cases he : Emitter.emitAll ((divMod ⟨0⟩ ⟨1⟩ ⟨0⟩ ⟨1⟩).commands 2) e with
  | error _ =>
    rw [he] at hok
    cases hok
  | ok e' =>
    obtain ⟨_, text, htext, hcall⟩ := divMod_crosses (e := e) (by decide) (by decide) (by decide)
      (by decide) (by decide) he
    obtain ⟨w', hcrosses, _, hquotient, hremainder, _⟩ := hcall w rfl (by decide)
    have hempty : e.code.text = "" := rfl
    rw [hempty, String.empty_append] at htext
    exact ⟨e', text, w', rfl, htext, hcrosses, hquotient.trans (by decide), hremainder.trans (by decide)⟩

end TapeLowering.Routine
