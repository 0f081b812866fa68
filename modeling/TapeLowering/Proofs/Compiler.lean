import TapeLowering.Proofs.Realization
import TapeLowering.Proofs.TextMeaning
import TapeLowering.Proofs.WholeRun

/-!
# Compiled commands do what they mean

Three levels meet here. The code of commands does what the commands mean (`Emitter.realizes_emitAll`),
the machine on the text of some code does what the code means (`State.follows_run`), and a run of a
program is what the machine does on the whole of its text.

The tracked cursor is what holds the first level together. It has no part in the statement: a store
has no pointer.
-/

namespace TapeLowering

open Outcome

theorem shows_start (inputs : List Cell) :
    Shows 0 { inputs } (State.start inputs).toWorkspace :=
  ⟨rfl, by rw [Workspace.store]; exact congrArg (Store.mk · inputs []) (funext Tape.cellAt_blank)⟩

namespace State

/-! ## The run on the text of some code -/

variable (d : Code) (inputs : List Cell)

/-- A machine on the whole text of some code follows what the code does. -/
theorem follows_whole (fuel : Nat) :
    Follows (.ofSymbols d.symbols) 0 (Program.ofSymbols d.symbols).size fuel (.start inputs)
      (d.run fuel (State.start inputs).toWorkspace) := by
  have h := follows_run fuel d (Program.holds_ofSymbols d.symbols) (s := .start inputs) rfl
  rwa [Nat.zero_add, ← Code.length_symbols, ← Program.size_ofSymbols] at h

/-- The machine halts if the code is done, and it halts with the workspace of the code. -/
theorem halted_iff {Q : Workspace → Prop} :
    (∃ n t, State.run (.ofSymbols d.symbols) none n (.start inputs) = .halted t ∧ Q t.toWorkspace) ↔
      ∃ fuel w, d.run fuel (State.start inputs).toWorkspace = .done w ∧ Q w := by
  constructor
  · rintro ⟨n, t, ht, hQ⟩
    have hleaves := (leaves_iff_halted (Nat.zero_le _) t.toWorkspace).mpr ⟨n, t, ht, rfl⟩
    obtain ⟨fuel, hw⟩ := (leaves_iff (follows_whole d inputs) _).mp hleaves
    exact ⟨fuel, t.toWorkspace, hw, hQ⟩
  · rintro ⟨fuel, w, hw, hQ⟩
    have hleaves := (leaves_iff (follows_whole d inputs) w).mpr ⟨fuel, hw⟩
    obtain ⟨n, t, ht, rfl⟩ := (leaves_iff_halted (Nat.zero_le _) w).mp hleaves
    exact ⟨n, t, ht, hQ⟩

/-- The machine fails if the code fails, with the same fault and the same workspace. -/
theorem failed_iff {fault : Fault} {Q : Workspace → Prop} :
    (∃ n t, State.run (.ofSymbols d.symbols) none n (.start inputs)
        = .failed (.fault t.counter fault) t ∧ Q t.toWorkspace) ↔
      ∃ fuel w, d.run fuel (State.start inputs).toWorkspace = .failed fault w ∧ Q w := by
  constructor
  · rintro ⟨n, t, ht, hQ⟩
    have hfails := (failsWithin_iff_failed (Nat.zero_le _) fault t.toWorkspace).mpr ⟨n, t, ht, rfl⟩
    obtain ⟨fuel, hw⟩ := (failsWithin_iff (follows_whole d inputs) fault _).mp hfails
    exact ⟨fuel, t.toWorkspace, hw, hQ⟩
  · rintro ⟨fuel, w, hw, hQ⟩
    have hfails := (failsWithin_iff (follows_whole d inputs) fault w).mpr ⟨fuel, hw⟩
    obtain ⟨n, t, ht, rfl⟩ := (failsWithin_iff_failed (Nat.zero_le _) fault w).mp hfails
    exact ⟨n, t, ht, hQ⟩

/-- The machine runs forever if the code does. -/
theorem running_iff :
    (∀ n, ∃ t, State.run (.ofSymbols d.symbols) none n (.start inputs) = .running t) ↔
      ∀ fuel, d.run fuel (State.start inputs).toWorkspace = .unfinished :=
  (staysWithin_iff_running (Nat.zero_le _)).symm.trans (staysWithin_iff (follows_whole d inputs))

end State

namespace Command

/-! ## Compiled commands -/

/-- The symbols of compiled commands are those of code that does what the commands mean. -/
theorem exists_performs_of_compile {cs : List Command} {code : Code}
    (hinline : areInline cs = true) (hcode : compile cs = .ok code) :
    ∃ (d : Code) (finish : Nat), code.symbols = d.symbols ∧
      d.Performs 0 finish fun fuel => runAll fuel cs := by
  obtain ⟨e, he, rfl⟩ := Violation.map_eq_ok_iff.mp hcode
  obtain ⟨d, hd, hperf⟩ := Emitter.realizes_emitAll cs hinline {} e he
  exact ⟨d, e.cursor, by rw [hd]; rfl, hperf⟩

/-- On the text of compiled commands, the machine halts, fails or runs forever exactly as the commands
do: it halts with the same cells, inputs and outputs, and it fails with the same fault, at the symbol
it cannot obey, after the same inputs and outputs. -/
theorem run_compile_iff {cs : List Command} {code : Code} (hinline : areInline cs = true)
    (hcode : compile cs = .ok code) (inputs : List Cell) :
    let run := fun n => State.run (Program.ofText code.text) none n (.start inputs)
    (∀ s, (∃ fuel, runAll fuel cs { inputs } = .done s) ↔
      ∃ n t, run n = .halted t ∧ t.toWorkspace.store = s) ∧
    (∀ fault left written,
      (∃ fuel s, runAll fuel cs { inputs } = .failed fault s ∧ s.inputs = left ∧ s.written = written) ↔
      ∃ n t, run n = .failed (.fault t.counter fault) t ∧ t.inputs = left ∧ t.written = written) ∧
    ((∀ fuel, runAll fuel cs { inputs } = .unfinished) ↔ ∀ n, ∃ t, run n = .running t) := by
  intro run
  obtain ⟨d, finish, hsymbols, hperf⟩ := exists_performs_of_compile hinline hcode
  have hprogram : Program.ofText code.text = .ofSymbols d.symbols := by
    rw [Code.text, Program.ofText_ofList, hsymbols]
  -- from the commands to the code, and from the code to the machine
  have hrefines := hperf _ _ (shows_start inputs)
  have hgrow := Code.growing_run d (State.start inputs).toWorkspace
  simp only [run, hprogram]
  refine ⟨fun s => ?_, fun fault left written => ?_, ?_⟩
  · have hmeant := hrefines.exists_done_iff hgrow (P := (· = s)) (Q := fun w => w.store = s)
      fun s' w hw => by rw [hw.2]
    rw [State.halted_iff d inputs (Q := fun w => w.store = s), ← hmeant]
    simp only [exists_eq_right]
  · rw [State.failed_iff d inputs (Q := fun w => w.inputs = left ∧ w.written = written)]
    exact hrefines.exists_failed_iff hgrow (P := fun s => s.inputs = left ∧ s.written = written)
      (fun s w hw => by rw [hw.1, hw.2]; rfl) fault
  · rw [State.running_iff d inputs]
    exact hrefines.unfinished_iff

/-- Two inputs are read, the first one is added to the second one, and the sum is written. -/
theorem run_compile_sum :
    let cs : List Command := [.allocate, .allocate, .read ⟨0⟩, .read ⟨1⟩, .transfer ⟨0⟩ ⟨1⟩, .write ⟨1⟩]
    let code : Code := [.read, .right .one, .read, .right .negOne,
      .loop [.add .negOne, .right .one, .add .one, .right .negOne], .right .one, .write]
    areInline cs = true ∧ compile cs = .ok code ∧
      ∃ n t, State.run (Program.ofText code.text) none n (.start [2, 3]) = .halted t ∧
        t.toWorkspace.store.get ⟨0⟩ = 0 ∧ t.written = [5] := by
  intro cs code
  have hinline : areInline cs = true := by decide
  have hcode : compile cs = .ok code := by decide +kernel
  obtain ⟨s, hs, hzero, hwritten⟩ : ∃ s, runAll 0 cs { inputs := [2, 3] } = .done s ∧
      s.get ⟨0⟩ = 0 ∧ s.written = [5] := by
    simp [cs, runAll, Command.run, Store.read, Store.transfer, Store.write, Store.get, Store.put]
  obtain ⟨n, t, ht, rfl⟩ := ((run_compile_iff hinline hcode [2, 3]).1 s).mp ⟨0, hs⟩
  exact ⟨hinline, hcode, n, t, ht, hzero, hwritten⟩

end Command

end TapeLowering
