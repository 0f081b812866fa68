import TapeLowering.Symbol
import TapeLowering.Tape

/-!
# The workspace of a program

Everything the symbols of a program act on: the tape, the inputs not read yet and the outputs
written so far. An action either succeeds or fails with a fault, and one that fails has no result,
so a failure changes nothing.
-/

namespace TapeLowering

/-- A tape with its inputs and outputs. -/
structure Workspace where
  /-- The tape. -/
  tape : Tape := .blank
  /-- The inputs not read yet, the next one first. -/
  inputs : List Cell := []
  /-- The outputs, the latest one first. -/
  written : List Cell := []
  deriving Repr, DecidableEq

namespace Workspace

/-- The outputs in the order they were written. -/
def outputs (w : Workspace) : List Cell := w.written.reverse

/-- Whether the cell under the pointer is zero. -/
def isZero (w : Workspace) : Bool := w.tape.isZero

/-- The workspace with another tape. -/
def withTape (w : Workspace) (t : Tape) : Workspace := { w with tape := t }

/-- Stores the next input in the cell under the pointer. -/
def read (w : Workspace) : Except Fault Workspace :=
  match w.inputs with
  | [] => .error .inputExhausted
  | value :: rest => .ok { w with tape := w.tape.put value, inputs := rest }

/-- Outputs the cell under the pointer. -/
def write (w : Workspace) : Workspace := { w with written := w.tape.current :: w.written }

/-- Performs one action. -/
def perform (w : Workspace) : Action → Except Fault Workspace
  | .right => .ok (w.withTape w.tape.right)
  | .left => w.tape.left.map w.withTape
  | .increment => w.tape.increment.map w.withTape
  | .decrement => w.tape.decrement.map w.withTape
  | .read => w.read
  | .write => .ok w.write

/-- A write adds the cell under the pointer at the end of the outputs. -/
theorem outputs_write (w : Workspace) : w.write.outputs = w.outputs ++ [w.tape.current] := by
  simp [outputs, write]

/-! ## Actions on the cell under the pointer -/

variable {w w' : Workspace} {a : Action}

/-- An action that does not move the pointer changes no other cell. -/
theorem cellAt_of_perform (hright : a ≠ .right) (hleft : a ≠ .left) (h : w.perform a = .ok w') :
    w'.tape.pointer = w.tape.pointer ∧
      ∀ k, k ≠ w.tape.pointer → w'.tape.cellAt k = w.tape.cellAt k := by
  have hput : ∀ value, (w.tape.put value).pointer = w.tape.pointer ∧
      ∀ k, k ≠ w.tape.pointer → (w.tape.put value).cellAt k = w.tape.cellAt k :=
    fun value => ⟨rfl, fun k hk => by rw [Tape.cellAt_put, if_neg hk]⟩
  cases a with
  | right => exact absurd rfl hright
  | left => exact absurd rfl hleft
  | increment =>
    cases hv : w.tape.current.succ? <;> simp [perform, Tape.increment, hv, Except.map] at h
    exact h ▸ hput _
  | decrement =>
    cases hv : w.tape.current.pred? <;> simp [perform, Tape.decrement, hv, Except.map] at h
    exact h ▸ hput _
  | read =>
    cases hv : w.inputs <;> simp [perform, read, hv] at h
    exact h ▸ hput _
  | write =>
    cases h
    exact ⟨rfl, fun _ _ => rfl⟩

/-! ## What an action changes, and how it fails -/

/-- What an action on the tape leads to is the workspace with another tape. -/
theorem exists_tape_of_map {t : Except Fault Tape} (h : t.map w.withTape = .ok w') :
    ∃ t', w' = w.withTape t' := by
  cases t with
  | ok t' => exact ⟨t', (Except.ok.inj h).symm⟩
  | error fault => cases h

/-- A read takes the first input and stores it, a write adds an output, and every other action changes
the tape only. -/
theorem perform_eq_ok (h : w.perform a = .ok w') :
    (a = .read ∧ ∃ value rest, w.inputs = value :: rest ∧ w' = ⟨w.tape.put value, rest, w.written⟩) ∨
    (a = .write ∧ w' = w.write) ∨
    (a ≠ .read ∧ a ≠ .write ∧ ∃ t, w' = w.withTape t) := by
  cases a with
  | right => exact .inr (.inr ⟨nofun, nofun, _, (Except.ok.inj h).symm⟩)
  | left | increment | decrement => exact .inr (.inr ⟨nofun, nofun, exists_tape_of_map h⟩)
  | read =>
    cases hinputs : w.inputs with
    | nil => simp [perform, read, hinputs] at h
    | cons value rest =>
      simp only [perform, read, hinputs, Except.ok.injEq] at h
      exact .inl ⟨rfl, value, rest, rfl, h.symm⟩
  | write => exact .inr (.inl ⟨rfl, (Except.ok.inj h).symm⟩)

/-- Four actions can fail, each in one way. -/
theorem perform_eq_error {fault : Fault} (h : w.perform a = .error fault) :
    (a = .left ∧ w.tape.pointer = 0 ∧ fault = .leftOfOrigin) ∨
    (a = .increment ∧ w.tape.current.succ? = none ∧ fault = .cellOverflow w.tape.pointer) ∨
    (a = .decrement ∧ w.tape.current.pred? = none ∧ fault = .decrementOfZero w.tape.pointer) ∨
    (a = .read ∧ w.inputs = [] ∧ fault = .inputExhausted) := by
  cases a with
  | right | write => cases h
  | left =>
    cases ht : w.tape.left <;> simp [perform, ht, Except.map] at h
    obtain ⟨hpointer, rfl⟩ := Tape.left_eq_error_iff.mp ht
    exact .inl ⟨rfl, hpointer, h.symm⟩
  | increment =>
    cases hv : w.tape.current.succ? <;> simp [perform, Tape.increment, hv, Except.map] at h
    exact .inr (.inl ⟨rfl, rfl, h.symm⟩)
  | decrement =>
    cases hv : w.tape.current.pred? <;> simp [perform, Tape.decrement, hv, Except.map] at h
    exact .inr (.inr (.inl ⟨rfl, rfl, h.symm⟩))
  | read =>
    cases hv : w.inputs <;> simp [perform, read, hv] at h
    exact .inr (.inr (.inr ⟨rfl, rfl, h.symm⟩))

/-- An action that does not move the pointer cannot move it too far. -/
theorem ne_leftOfOrigin_of_perform (hleft : a ≠ .left) {fault : Fault}
    (h : w.perform a = .error fault) : fault ≠ .leftOfOrigin ∧ fault ≠ .unmatchedBracket := by
  obtain ⟨rfl, -⟩ | ⟨-, -, rfl⟩ | ⟨-, -, rfl⟩ | ⟨-, -, rfl⟩ := perform_eq_error h
  · exact absurd rfl hleft
  all_goals exact ⟨nofun, nofun⟩

/-- No action looks for a partner. -/
theorem ne_unmatchedBracket_of_perform {fault : Fault} (h : w.perform a = .error fault) :
    fault ≠ .unmatchedBracket := by
  obtain ⟨-, -, rfl⟩ | ⟨-, -, rfl⟩ | ⟨-, -, rfl⟩ | ⟨-, -, rfl⟩ := perform_eq_error h <;> nofun

end Workspace

end TapeLowering
