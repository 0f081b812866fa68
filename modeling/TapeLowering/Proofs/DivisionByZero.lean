import TapeLowering.Proofs.Crossing
import TapeLowering.Proofs.DivisionRounds
import TapeLowering.Proofs.StepLimit

/-!
# Division by zero

A division by zero goes on for longer than any number of steps that a cell can hold, so nothing is seen
of it but that the step limit is reached (`divMod_by_zero_lingers`). The overflow of the quotient, which
would end it, is further away.
-/

namespace TapeLowering

open Command

/-! ## Programs that read their operands -/

/-- Making slots live changes no cell. -/
theorem ensures_replicate_allocate (m : Nat) {s : Store} {Q : Store → Prop} :
    Ensures (List.replicate m .allocate) s Q ↔ Q s := by
  induction m with
  | zero => exact ensures_nil
  | succ m ih =>
    have hfirst : ∀ R, Ensures [.allocate] s R ↔ R s := fun _ => ensures_of_run fun _ => rfl
    rw [List.replicate_succ, ← List.singleton_append, ensures_append, hfirst, ih]

theorem areInline_replicate_allocate (m : Nat) :
    areInline (List.replicate m .allocate) = true := by
  induction m with
  | zero => rfl
  | succ m ih => rw [List.replicate_succ, areInline, ih, isInline, Bool.and_self]

/-- Every slot made live counts one more. -/
theorem depth_of_replicate_allocate {m : Nat} {e e' : Emitter}
    (h : Emitter.emitAll (List.replicate m .allocate) e = .ok e') : e'.depth = e.depth + m := by
  induction m generalizing e with
  | zero =>
    cases h
    rfl
  | succ m ih =>
    obtain ⟨e₁, ⟨⟩, h₂⟩ := Emitter.emitAll_cons_eq_ok_iff.mp h
    rw [ih h₂, show e.allocate.depth = e.depth + 1 from rfl]
    omega

/-- Takes a number of slots and reads two inputs. -/
def readOperands (m : Nat) (x y : Slot) : List Command :=
  List.replicate m .allocate ++ [.read x, .read y]

/-- A program that reads two operands needs no fragment. -/
theorem areInline_readOperands (m : Nat) (x y : Slot) : areInline (readOperands m x y) = true := by
  rw [readOperands, areInline_append, areInline_replicate_allocate]
  rfl

/-- A program that reads two operands has as many live slots as it makes. -/
theorem depth_of_readOperands {m : Nat} {x y : Slot} {e e' : Emitter}
    (h : Emitter.emitAll (readOperands m x y) e = .ok e') : e'.depth = e.depth + m := by
  rw [readOperands, Emitter.emitAll_append] at h
  obtain ⟨e₁, h₁, h⟩ := Violation.bind_eq_ok_iff.mp h
  have hx : x.index < max x.index y.index + 1 := Nat.lt_succ_of_le (Nat.le_max_left _ _)
  have hy : y.index < max x.index y.index + 1 := Nat.lt_succ_of_le (Nat.le_max_right _ _)
  have hreads : areLive (max x.index y.index + 1) [.read x, .read y] = true := by
    simp only [areLive, isLive, hx, hy, decide_true, Bool.and_true]
  rw [depth_of_emitAll hreads h, depth_of_replicate_allocate h₁]

/-- The second input is in its cell then, also where both cells are one. -/
theorem ensures_readOperands (m : Nat) (x y : Slot) (a b : Cell) :
    Ensures (readOperands m x y) { inputs := [a, b] } fun s => s.get y = b := by
  rw [readOperands, ensures_append, ensures_replicate_allocate]
  exact ⟨0, _, rfl, Store.get_put_self _ _ _⟩

/-! ## Division by zero -/

/-- With a divisor of zero, the machine stays on the text of a division for any number of steps that a
cell can hold, whatever the other cells hold. -/
theorem divMod_lingers {e e' : Emitter} {quotient remainder dividend divisor : Slot}
    (hquotient : quotient.index < e.depth) (hremainder : remainder.index < e.depth)
    (hdividend : dividend.index < e.depth) (hdivisor : divisor.index < e.depth)
    (h : Emitter.emitAll ((Routine.divMod quotient remainder dividend divisor).commands e.depth) e
      = .ok e') :
    ∃ text, e'.code.text = e.code.text ++ text ∧
      ∀ w : Workspace, w.tape.pointer = e.cursor → w.tape.cellAt divisor.index = 0 →
        ∀ count, count < 0x10000000000000000 → w.Lingers text count := by
  have hslots : ∀ x ∈ (Operation.divMod quotient remainder dividend divisor).slots,
      x.index < e.depth := by
    simp [Operation.slots, hquotient, hremainder, hdividend, hdivisor]
  obtain ⟨-, text, htext, hcall⟩ := Operation.exists_text hslots h
  refine ⟨text, htext, fun w hw hb count hcount => (hcall w hw).2 count ?_⟩
  exact Routine.unfinished_divMod (s := w.store) hquotient hdividend hdivisor hb hcount

/-- What the operands are read with is crossed from the start, and leaves the divisor in its cell. -/
theorem readOperands_crosses {m : Nat} {x y : Slot} {e : Emitter}
    (h : Emitter.emitAll (readOperands m x y) {} = .ok e) (a b : Cell) :
    ∃ w, (State.start [a, b]).toWorkspace.Crosses e.code.text w ∧ w.tape.pointer = e.cursor ∧
      w.tape.cellAt y.index = b := by
  obtain ⟨d, htext, hperf⟩ := Emitter.exists_performs (areInline_readOperands m x y) h
  obtain ⟨hstart, hstore⟩ := shows_start [a, b]
  have hread := ensures_readOperands m x y a b
  rw [← hstore] at hread
  have hempty : ({} : Emitter).code.text = "" := rfl
  rw [htext, hempty, String.empty_append]
  exact hperf.crosses hstart hread

/-- Wherever it stands, the text of a division by zero keeps the machine for more steps than a cell can
count, whatever the dividend is. So a program that reads two operands and divides them is cut off by
any step limit that fits into a cell if the divisor is zero, and does not fail before. -/
theorem divMod_by_zero_lingers :
    (∀ (e e' : Emitter) (quotient remainder dividend divisor : Slot),
      quotient.index < e.depth → remainder.index < e.depth → dividend.index < e.depth →
      divisor.index < e.depth →
      Emitter.emitAll ((Routine.divMod quotient remainder dividend divisor).commands e.depth) e
        = .ok e' →
      ∃ text, e'.code.text = e.code.text ++ text ∧
        ∀ w : Workspace, w.tape.pointer = e.cursor → w.tape.cellAt divisor.index = 0 →
          ∀ count, count < 0x10000000000000000 → w.Lingers text count) ∧
    ∀ (m : Nat) (quotient remainder dividend divisor : Slot) (rest : List Command) (code : Code),
      quotient.index < m → remainder.index < m → dividend.index < m → divisor.index < m →
      compile (readOperands m dividend divisor
        ++ (Routine.divMod quotient remainder dividend divisor).commands m ++ rest) = .ok code →
      ∀ (n : Cell) (limit fuel : Nat), limit < 0x10000000000000000 →
        let run := State.run (.ofText code.text) (some limit) fuel (.start [n, 0])
        (limit ≤ fuel → ∃ s, run = .failed (.stepLimitExceeded limit) s) ∧
        (fuel < limit → ∃ s, run = .running s) := by
  refine ⟨fun e e' quotient remainder dividend divisor hquotient hremainder hdividend hdivisor h =>
    divMod_lingers hquotient hremainder hdividend hdivisor h, ?_⟩
  intro m quotient remainder dividend divisor rest code hquotient hremainder hdividend hdivisor hcode
    n limit fuel hlimit
  obtain ⟨e, he, rfl⟩ := Violation.map_eq_ok_iff.mp hcode
  rw [Emitter.emitAll_append] at he
  obtain ⟨e₂, he₂, hrest⟩ := Violation.bind_eq_ok_iff.mp he
  rw [Emitter.emitAll_append] at he₂
  obtain ⟨e₁, hread, hdiv⟩ := Violation.bind_eq_ok_iff.mp he₂
  have hdepth : e₁.depth = m := (depth_of_readOperands hread).trans (Nat.zero_add m)
  subst hdepth
  obtain ⟨w, hcrosses, hpointer, hzero⟩ := readOperands_crosses hread n 0
  obtain ⟨text, htext, hlingers⟩ := divMod_lingers hquotient hremainder hdividend hdivisor hdiv
  -- the machine does not get to what is emitted behind the division
  obtain ⟨after, hafter⟩ := Emitter.extends_of_emitAll hrest
  intro run
  have hcut := (hcrosses.lingers (hlingers w hpointer hzero limit hlimit)).run (Nat.le_refl limit)
    (String.ofList (after.map Symbol.toChar)) fuel
  rwa [← htext, ← Code.text_of_symbols hafter] at hcut

/-- Four by zero is cut off after a million steps. -/
theorem divMod_by_zero_lingers_four :
    let cs := readOperands 4 ⟨2⟩ ⟨3⟩ ++ (Routine.divMod ⟨0⟩ ⟨1⟩ ⟨2⟩ ⟨3⟩).commands 4
      ++ [.write ⟨0⟩, .write ⟨1⟩, .write ⟨2⟩, .write ⟨3⟩]
    ∃ code s, compile cs = .ok code ∧
      State.run (.ofText code.text) (some 1000000) 1000000 (.start [4, 0])
        = .failed (.stepLimitExceeded 1000000) s := by
  intro cs
  have hok : (compile cs).isOk = true := by decide +kernel
  cases hcode : compile cs with
  | error _ =>
    rw [hcode] at hok
    cases hok
  | ok code =>
    obtain ⟨hcut, -⟩ := divMod_by_zero_lingers.2 4 ⟨0⟩ ⟨1⟩ ⟨2⟩ ⟨3⟩ _ code (by decide) (by decide)
      (by decide) (by decide) hcode 4 1000000 1000000 (by decide)
    obtain ⟨s, hs⟩ := hcut (Nat.le_refl _)
    exact ⟨code, s, rfl, hs⟩

end TapeLowering
