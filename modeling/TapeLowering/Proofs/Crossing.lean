import TapeLowering.Proofs.Compiler
import TapeLowering.Proofs.Failures
import TapeLowering.Proofs.InlineRoutines
import TapeLowering.Proofs.TidyRoutines

/-!
# The machine on a piece of emitted text

Wherever the text of some code stands in a program, the machine crosses it, fails on it or stays on it
as the code is done, fails or does not end (`Code.crosses_iff`, `Code.failsOn_iff`,
`Code.forall_lingers_iff`).

So what commands ensure is true of the machine on the text that is emitted for them: it goes from a
workspace with one store to one with the other (`Code.Performs.crosses`). Where commands fail, it fails
with the same fault and with no other one (`Code.Performs.failsOn`). As long as commands have not ended
with some amount of fuel, it stays on the text for as many steps (`Code.Performs.lingers`).
-/

namespace TapeLowering

open Outcome

namespace Workspace

/-- Wherever a text stands in a program, and however many steps were done before, a machine that comes
to the text with the first workspace leaves it at its end with the second one. -/
def Crosses (text : String) (w w' : Workspace) : Prop :=
  ∀ (before after : String) (steps : Nat),
    State.Leaves (.ofText (before ++ text ++ after)) before.utf8ByteSize
      (before.utf8ByteSize + text.utf8ByteSize) ⟨w, before.utf8ByteSize, steps⟩ w'

/-- Wherever a text stands in a program, and however many steps were done before, a machine that comes
to the text with the workspace fails on it with a fault, and with that fault only. -/
def FailsOn (text : String) (w : Workspace) (fault : Fault) : Prop :=
  ∀ (before after : String) (steps : Nat) (fault' : Fault),
    (∃ w', State.FailsWithin (.ofText (before ++ text ++ after)) before.utf8ByteSize
      (before.utf8ByteSize + text.utf8ByteSize) ⟨w, before.utf8ByteSize, steps⟩ fault' w') ↔
    fault' = fault

/-- Wherever a text stands in a program, and however many steps were done before, a machine that comes
to the text with the workspace does a number of steps, none of which fails, and is still on the text. -/
def Lingers (text : String) (w : Workspace) (count : Nat) : Prop :=
  ∀ (before after : String) (steps : Nat), ∃ t : State,
    State.Passage (.ofText (before ++ text ++ after)) before.utf8ByteSize
      (before.utf8ByteSize + text.utf8ByteSize) count ⟨w, before.utf8ByteSize, steps⟩ t ∧
    before.utf8ByteSize ≤ t.counter ∧ t.counter < before.utf8ByteSize + text.utf8ByteSize

end Workspace

namespace Code

theorem utf8ByteSize_text (c : Code) : c.text.utf8ByteSize = c.size := by
  rw [← Program.size_ofText, text, Program.ofText_ofList, Program.size_ofSymbols, length_symbols]

variable {d : Code} {start finish : Nat} {cs : List Command} {w : Workspace}

/-- A machine in front of the text of some code does what the code does, wherever the text stands. -/
theorem follows_text (d : Code) (before after : String) (steps : Nat) (w : Workspace) (fuel : Nat) :
    State.Follows (.ofText (before ++ d.text ++ after)) before.utf8ByteSize
      (before.utf8ByteSize + d.text.utf8ByteSize) fuel ⟨w, before.utf8ByteSize, steps⟩
      (d.run fuel w) := by
  rw [utf8ByteSize_text]
  exact State.follows_run fuel d (Program.holds_context before after d) rfl

/-! ## The text of some code, by what the code does -/

/-- The machine crosses the text of some code if and only if the code is done. -/
theorem crosses_iff {w' : Workspace} : w.Crosses d.text w' ↔ ∃ fuel, d.run fuel w = .done w' := by
  have hleaves := fun before after steps =>
    State.leaves_iff (d.follows_text before after steps w) w'
  exact ⟨fun h => (hleaves "" "" 0).mp (h "" "" 0),
    fun h before after steps => (hleaves before after steps).mpr h⟩

/-- The machine fails on the text of some code if and only if the code fails, and with the fault of the
code only. -/
theorem failsOn_iff {fault : Fault} :
    w.FailsOn d.text fault ↔ ∃ fuel w', d.run fuel w = .failed fault w' := by
  have hfails := fun before after steps =>
    State.failsWithin_iff (d.follows_text before after steps w)
  constructor
  · intro h
    obtain ⟨w', hw'⟩ := (h "" "" 0 fault).mpr rfl
    obtain ⟨fuel, hfuel⟩ := (hfails "" "" 0 fault w').mp hw'
    exact ⟨fuel, w', hfuel⟩
  · rintro ⟨m, w', hw'⟩ before after steps fault'
    simp only [hfails]
    constructor
    · rintro ⟨u, n, hu⟩
      have hsame := (d.growing_run w).unique (n := n) (m := m) (by simp [hu]) (by simp [hw'])
      simp only [hu, hw', failed.injEq] at hsame
      exact hsame.1
    · rintro rfl
      exact ⟨w', m, hw'⟩

/-- As long as code is not done, the machine stays on its text. -/
theorem lingers_of_unfinished {fuel : Nat} (h : d.run fuel w = .unfinished) :
    w.Lingers d.text fuel := by
  intro before after steps
  obtain ⟨n, t, ht, hend⟩ := d.follows_text before after steps w fuel
  rw [h] at hend
  exact ht.take hend.1 hend.2.1 hend.2.2

/-- The machine stays on the text forever if and only if the code does not end. -/
theorem forall_lingers_iff :
    (∀ count, w.Lingers d.text count) ↔ ∀ fuel, d.run fuel w = .unfinished := by
  refine ⟨fun h => ?_, fun h count => lingers_of_unfinished (h count)⟩
  exact (State.staysWithin_iff (d.follows_text "" "" 0 w)).mp fun count => h count "" "" 0

/-! ## The text of commands -/

/-- Code that does what a computation means is done if the computation is. -/
theorem Performs.exists_done {m : Nat → Store → Outcome Store} (hd : d.Performs start finish m)
    (hw : w.tape.pointer = start) {n : Nat} {s : Store} (hs : m n w.store = .done s) :
    ∃ fuel w', d.run fuel w = .done w' ∧ w'.tape.pointer = finish ∧ w'.store = s := by
  obtain ⟨fuel, hfuel⟩ := (hd w.store w ⟨hw, rfl⟩).known n (by simp [hs])
  simp only [hs] at hfuel
  obtain ⟨w', hw', hpointer, hstore⟩ := matches_done_iff.mp hfuel
  exact ⟨fuel, w', hw', hpointer, hstore⟩

/-- The machine crosses the text of commands that are done. -/
theorem Performs.crosses (hd : d.Performs start finish fun fuel => Command.runAll fuel cs)
    (hw : w.tape.pointer = start) {Q : Store → Prop} (h : Command.Ensures cs w.store Q) :
    ∃ w', w.Crosses d.text w' ∧ w'.tape.pointer = finish ∧ Q w'.store := by
  obtain ⟨n, s, hs, hQ⟩ := h
  obtain ⟨fuel, w', hw', hpointer, hstore⟩ := hd.exists_done hw hs
  exact ⟨w', crosses_iff.mpr ⟨fuel, hw'⟩, hpointer, hstore ▸ hQ⟩

/-- The machine fails on the text of commands that fail. -/
theorem Performs.failsOn (hd : d.Performs start finish fun fuel => Command.runAll fuel cs)
    (hw : w.tape.pointer = start) {fault : Fault} (h : Command.Fails cs w.store fault) :
    w.FailsOn d.text fault := by
  obtain ⟨fuel, s, hs⟩ := h
  obtain ⟨m, hm⟩ := (hd w.store w ⟨hw, rfl⟩).known fuel (by simp [hs])
  simp only [hs] at hm
  obtain ⟨w', hw', -⟩ := matches_failed_iff.mp hm
  exact failsOn_iff.mpr ⟨m, w', hw'⟩

/-- The machine stays on the text of commands that have not ended. -/
theorem Performs.lingers (hd : d.Performs start finish fun fuel => Command.runAll fuel cs)
    (hw : w.tape.pointer = start) {fuel : Nat}
    (h : Command.runAll fuel cs w.store = .unfinished) : w.Lingers d.text fuel :=
  lingers_of_unfinished ((hd w.store w ⟨hw, rfl⟩).unfinished fuel h)

end Code

/-- The text that is emitted for commands is that of code that does what they mean. -/
theorem Emitter.exists_performs {cs : List Command} {e e' : Emitter}
    (hinline : Command.areInline cs = true) (h : emitAll cs e = .ok e') :
    ∃ d : Code, e'.code.text = e.code.text ++ d.text ∧
      d.Performs e.cursor e'.cursor fun fuel => Command.runAll fuel cs := by
  obtain ⟨d, hd, hperf⟩ := realizes_emitAll cs hinline e e' h
  exact ⟨d, Code.text_of_symbols hd, hperf⟩

/-- A call of the library leaves the number of live slots as it was, and adds the text of code that does
what the commands of the call mean. -/
theorem Operation.exists_performs {o : Operation Slot} {e e' : Emitter}
    (hslots : ∀ x ∈ o.slots, x.index < e.depth)
    (h : Emitter.emitAll (o.routine.commands e.depth) e = .ok e') :
    e'.depth = e.depth ∧ ∃ d : Code, e'.code.text = e.code.text ++ d.text ∧
      d.Performs e.cursor e'.cursor fun fuel => Command.runAll fuel (o.routine.commands e.depth) :=
  ⟨depth_of_emitAll (clean_routine hslots).live h,
    Emitter.exists_performs (o.inline_routine e.depth) h⟩

/-- The machine crosses the text of a call of the library if the call is done, and stays on it if not. -/
theorem Operation.exists_text {o : Operation Slot} {e e' : Emitter}
    (hslots : ∀ x ∈ o.slots, x.index < e.depth)
    (h : Emitter.emitAll (o.routine.commands e.depth) e = .ok e') :
    e'.depth = e.depth ∧ ∃ text, e'.code.text = e.code.text ++ text ∧
      ∀ w : Workspace, w.tape.pointer = e.cursor →
        (∀ Q, Command.Ensures (o.routine.commands e.depth) w.store Q →
          ∃ w', w.Crosses text w' ∧ w'.tape.pointer = e'.cursor ∧ Q w'.store) ∧
        ∀ fuel, Command.runAll fuel (o.routine.commands e.depth) w.store = .unfinished →
          w.Lingers text fuel := by
  obtain ⟨hdepth, d, hd, hperf⟩ := exists_performs hslots h
  refine ⟨hdepth, d.text, hd, fun w hw => ?_⟩
  exact ⟨fun Q hQ => hperf.crosses hw hQ, fun fuel hfuel => hperf.lingers hw hfuel⟩

end TapeLowering
