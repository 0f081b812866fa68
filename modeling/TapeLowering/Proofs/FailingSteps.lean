import Mathlib.Logic.Function.Iterate
import TapeLowering.Machine.InPlace
import TapeLowering.Proofs.Truncation

/-!
# Failing steps

A step that fails changes nothing. `Machine` writes its variables one after the other and takes nothing
back, so each operation has to look before it writes: a cell is written once it is known to have a next
value, the pointer is moved once there is a cell to move it to, an input is taken off the queue only if
there is one, and the counter is written once the partner of the bracket is found.

The machine in place does what `State.step` does, and where that has no next state it is left as it is
(`on_step`). So calls on the two machines return with the same results in the same states
(`returns_ofState_iff`), and what is known of runs holds for the machine in place.
-/

namespace TapeLowering

namespace Machine

/-- The variables that hold a state. -/
def ofState (s : State) : Machine where
  values := s.tape.cells
  pointer := s.tape.pointer
  inputs := s.inputs
  outputs := s.outputs
  counter := s.counter
  steps := s.steps

/-- What a call leaves behind that goes on to the next state, or back to where it was if there is no next
state. -/
def after {ε : Type} (s : State) : Except ε State → Except ε Unit × Machine
  | .ok t => (.ok (), ofState t)
  | .error e => (.error e, ofState s)

variable {p : Program} {limit : Option Nat} {inputs : List Cell} {s t : State} {m m' : Machine}

/-! ## The parts of a step -/

theorem current_ofState (s : State) : (ofState s).current = s.tape.current := by
  rw [current, List.getD_eq_getElem?_getD]
  exact congrArg (·.getD 0) s.tape.getElem?_cells_pointer

theorem ofState_withTape (s : State) (t : Tape) : ofState (s.withWorkspace (s.withTape t))
    = { ofState s with values := t.cells, pointer := t.pointer } := rfl

theorem put_ofState (value : Cell) (s : State) :
    (ofState s).put value = ofState (s.withWorkspace (s.withTape (s.tape.put value))) := by
  rw [ofState_withTape, Tape.cells_put]
  rfl

/-- The pointer is on the last of the materialized cells. -/
theorem last_ofState_iff (s : State) :
    (ofState s).pointer + 1 = (ofState s).values.length ↔ s.tape.after = [] := by
  simp [ofState, Tape.pointer, Tape.cells]

/-- A move to the right never fails. -/
theorem on_right (s : State) :
    right.on (ofState s) = after s (.ok (s.withWorkspace (s.withTape s.tape.right))) := by
  simp only [right, Attempt.on_bind, Attempt.on_modify, Attempt.on_get, Attempt.on_ite,
    last_ofState_iff, after, ofState_withTape, Tape.cells_right, Tape.pointer_right]
  split <;> rfl

/-- A move to the left looks for the origin before it writes, so it leaves everything as it is where it
fails. It drops the last cell if that is zero and under the pointer. -/
theorem on_left (s : State) :
    left.on (ofState s) = after s ((s.tape.left.map s.withTape).map s.withWorkspace) := by
  have hlt : (ofState s).pointer < (ofState s).values.length := s.tape.pointer_lt_length_cells
  have hlast : (ofState s).pointer = (ofState s).values.length - 1 ↔ s.tape.after = [] := by
    rw [← last_ofState_iff]
    omega
  simp only [left, Attempt.on_bind, Attempt.on_get, Attempt.on_ite, Attempt.on_modify, hlast,
    current_ofState]
  cases hleft : s.tape.left with
  | error fault =>
    obtain ⟨hzero, rfl⟩ := Tape.left_eq_error_iff.mp hleft
    exact if_pos hzero
  | ok u =>
    have hpointer : u.pointer + 1 = (ofState s).pointer := Tape.pointer_of_left hleft
    -- where the move is possible, the last cell is dropped if it is under the pointer and zero
    have hdrop : (s.tape.isZero && s.tape.after.isEmpty) = true
        ↔ s.tape.after = [] ∧ s.tape.current = 0 := by
      simp [Tape.isZero, and_comm]
    simp only [Except.map, after, ofState_withTape, Tape.cells_of_left hleft, hdrop,
      Nat.eq_sub_of_add_eq hpointer]
    rw [if_neg (by omega)]
    split
    · rename_i hzero
      -- without the last cell there are as many as the pointer has on its left
      have hlength := (last_ofState_iff s).mpr hzero.1
      have htake : (ofState s).values.dropLast = s.tape.cells.take s.tape.pointer := by
        rw [List.dropLast_eq_take, ← hlength]
        rfl
      rw [htake]
    · rfl

/-- An increment writes the cell only if there is a next value. -/
theorem on_increment (s : State) : increment.on (ofState s)
    = after s ((s.tape.increment.map s.withTape).map s.withWorkspace) := by
  simp only [increment, Attempt.on_bind, Attempt.on_get, current_ofState, Tape.increment]
  cases s.tape.current.succ? with
  | some value => exact congrArg _ (put_ofState value s)
  | none => rfl

/-- A decrement writes the cell only if there is a previous value. -/
theorem on_decrement (s : State) : decrement.on (ofState s)
    = after s ((s.tape.decrement.map s.withTape).map s.withWorkspace) := by
  simp only [decrement, Attempt.on_bind, Attempt.on_get, current_ofState, Tape.decrement]
  cases s.tape.current.pred? with
  | some value => exact congrArg _ (put_ofState value s)
  | none => rfl

/-- A read takes an input off the queue only if there is one. -/
theorem on_read (s : State) :
    read.on (ofState s) = after s (s.toWorkspace.read.map s.withWorkspace) := by
  have hinputs : (ofState s).inputs = s.inputs := rfl
  simp only [read, pop, Attempt.on_bind, Attempt.on_modifyGet, hinputs]
  cases hrest : s.inputs with
  | nil => simp [Workspace.read, hrest, after, Except.map, ofState]
  | cons value rest =>
    have hput := put_ofState value { s with inputs := rest }
    simp only [Workspace.read, hrest]
    exact congrArg (Prod.mk (Except.ok ())) hput

theorem on_write (s : State) :
    write.on (ofState s) = after s (.ok (s.withWorkspace s.toWorkspace.write)) := by
  simp only [write, Attempt.on_modify, current_ofState]
  simp [after, ofState, State.withWorkspace, Workspace.write, Workspace.outputs]

/-- A jump writes the counter only if there is a partner. -/
theorem on_jump (s : State) (partner : Nat → Option Nat) :
    (jump partner).on (ofState s) = after s (s.jump (partner s.counter)) := by
  have hcounter : (ofState s).counter = s.counter := rfl
  simp only [jump, Attempt.on_bind, Attempt.on_get, hcounter]
  cases partner s.counter <;> rfl

/-- Every action in place does what it does on the state, and nothing where it fails. -/
theorem on_perform (a : Action) (s : State) :
    (perform a).on (ofState s) = after s ((s.toWorkspace.perform a).map s.withWorkspace) := by
  cases a with
  | right => exact on_right s
  | left => exact on_left s
  | increment => exact on_increment s
  | decrement => exact on_decrement s
  | read => exact on_read s
  | write => exact on_write s

/-- A symbol that is obeyed in place does what it does on the state, and nothing where it fails. -/
theorem on_obey (p : Program) (x : Option Symbol) (s : State) :
    (obey p x).on (ofState s) = after s (s.obey p x) := by
  have hz : s.isZero = true ↔ s.tape.current = 0 := Tape.isZero_iff
  match x with
  | none => rfl
  | some (.act a) => exact on_perform a s
  | some .loopStart =>
    simp only [obey, Attempt.on_bind, Attempt.on_get, Attempt.on_ite, current_ofState, State.obey, hz]
    split
    · exact on_jump s p.closing?
    · rfl
  | some .loopEnd =>
    simp only [obey, Attempt.on_bind, Attempt.on_get, Attempt.on_ite, current_ofState, State.obey, hz,
      ite_not]
    split
    · rfl
    · exact on_jump s p.opening?

/-- The machine in place does what a step does, and a step that fails leaves it as it is. -/
theorem on_step (p : Program) (s : State) : (step p).on (ofState s) = after s (s.step p) := by
  have hcounter : (ofState s).counter = s.counter := rfl
  simp only [step, Attempt.on_bind, Attempt.on_get, State.step, hcounter]
  cases p[s.counter]? with
  | none => rfl
  | some byte =>
    simp only [Attempt.on_bind, Attempt.on_adapt, on_obey]
    cases s.obey p (Symbol.ofByte? byte) <;> rfl

/-- A step in place succeeds if the step of the state does, and leads to where that leads. -/
theorem on_step_eq_ok_iff :
    (step p).on (ofState s) = (.ok (), m') ↔ ∃ t, s.step p = .ok t ∧ m' = ofState t := by
  rw [on_step]
  cases s.step p <;> simp [after, eq_comm]

/-- A step in place fails if the step of the state does, and leaves the machine as it is. -/
theorem on_step_eq_error_iff {e : ExecutionError} :
    (step p).on (ofState s) = (.error e, m') ↔ s.step p = .error e ∧ m' = ofState s := by
  rw [on_step]
  cases s.step p <;> simp [after, eq_comm]

/-! ## Calls that run a machine to its end -/

/-- What a call returns with that has come this far. -/
def result (r : Progress) : Except ExecutionError Unit :=
  match r.error? with
  | some e => .error e
  | none => .ok ()

/-- A run that is over has returned in place: by induction on the fuel, one step after another. -/
theorem returns_of_run {fuel : Nat} (h : (s.run p limit fuel).isOver = true) :
    Returns p limit (ofState s) (result (s.run p limit fuel)) (ofState (s.run p limit fuel).state) := by
  fun_induction State.run p limit fuel s with
  | case1 fuel s hhalted => exact .halted hhalted
  | case2 fuel s hdue most hlimit => exact .exceeded (eq_false_of_ne_true hdue) hlimit
  | case3 => cases h
  | case4 s hdue hlimit fuel t hstep ih =>
    exact .next (eq_false_of_ne_true hdue) hlimit
      (on_step_eq_ok_iff.mpr ⟨t, hstep, rfl⟩) (ih h)
  | case5 s hdue hlimit fuel e hstep =>
    exact .failed (eq_false_of_ne_true hdue) hlimit
      (on_step_eq_error_iff.mpr ⟨hstep, rfl⟩)

/-- Calls on a machine in place return as calls on the machine do. -/
theorem returns_ofState_iff {r : Except ExecutionError Unit} : Returns p limit (ofState s) r m' ↔
    ∃ progress, s.Returns p limit progress ∧ r = result progress ∧ m' = ofState progress.state := by
  constructor
  · intro h
    -- by induction on the call in place, which meets nothing but machines of states
    generalize hm : ofState s = m at h
    induction h generalizing s with
    | halted hhalted =>
      subst hm
      refine ⟨.halted s, ⟨rfl, 0, State.run_of_isHalted hhalted limit 0⟩, rfl, rfl⟩
    | @exceeded _ most hdue hlimit =>
      subst hm
      exact ⟨.failed _ s, ⟨rfl, 0, State.run_of_exceeded hdue hlimit 0⟩, rfl, rfl⟩
    | failed hdue hlimit hstep =>
      subst hm
      obtain ⟨herror, rfl⟩ := on_step_eq_error_iff.mp hstep
      refine ⟨.failed _ s, ⟨rfl, 1, ?_⟩, rfl, rfl⟩
      rw [State.run_due_succ hdue hlimit, herror]
    | next hdue hlimit hstep _ ih =>
      subst hm
      obtain ⟨t, hok, rfl⟩ := on_step_eq_ok_iff.mp hstep
      obtain ⟨r, ⟨hover, fuel, hrun⟩, hresult⟩ := ih rfl
      refine ⟨r, ⟨hover, fuel + 1, ?_⟩, hresult⟩
      rw [State.run_due_succ hdue hlimit, hok]
      exact hrun
  · rintro ⟨_, ⟨hover, fuel, rfl⟩, rfl, rfl⟩
    exact returns_of_run hover

/-- The machine in place is only ever in states of the machine. -/
theorem Reached.exists_state (h : Reached p limit inputs m) :
    ∃ s, State.Reached p limit inputs s ∧ m = ofState s := by
  induction h with
  | start => exact ⟨.start inputs, .start, rfl⟩
  | step _ ih =>
    obtain ⟨s, hs, rfl⟩ := ih
    rw [next, on_step]
    cases hstep : s.step p with
    | ok t => exact ⟨t, hs.step hstep, rfl⟩
    | error e => exact ⟨s, hs, rfl⟩
  | run _ hreturns ih =>
    obtain ⟨s, hs, rfl⟩ := ih
    obtain ⟨r, hr, -, rfl⟩ := returns_ofState_iff.mp hreturns
    exact ⟨r.state, hs.run hr, rfl⟩

/-! ## Steps that succeed -/

/-- Outputs are never taken back. -/
theorem outputs_prefix_of_perform {w w' : Workspace} {a : Action} (h : w.perform a = .ok w') :
    w.outputs <+: w'.outputs := by
  obtain ⟨-, _, _, -, rfl⟩ | ⟨-, rfl⟩ | ⟨-, -, _, rfl⟩ := Workspace.perform_eq_ok h
  · exact List.prefix_rfl
  · rw [Workspace.outputs_write]
    exact List.prefix_append _ _
  · exact List.prefix_rfl

/-- A step takes no output back. -/
theorem outputs_prefix_of_step (hs : s.counter < p.size) (h : s.step p = .ok t) :
    s.outputs <+: t.outputs := by
  obtain ⟨u, hobey, rfl⟩ := (State.step_eq_ok_iff hs).mp h
  rcases State.workspace_of_obey hobey with ⟨-, hsame⟩ | ⟨a, -, ha⟩
  · have heq : u.advance.outputs = s.outputs := congrArg Workspace.outputs hsame
    exact heq ▸ List.prefix_refl _
  · exact outputs_prefix_of_perform ha

/-- A machine that has not halted is at a position of the program. -/
theorem counter_lt_of_due (hs : s.counter ≤ p.size) (h : (ofState s).isHalted p = false) :
    s.counter < p.size := by
  have hne : s.counter ≠ p.size := beq_eq_false_iff_ne.mp h
  exact Nat.lt_of_le_of_ne hs hne

/-- What steps that succeed do to the count of steps and to the outputs. -/
theorem Does.counts {k : Nat} (hs : s.counter ≤ p.size) (h : Does p k (ofState s) m') :
    m'.steps = s.steps + k ∧ s.outputs <+: m'.outputs := by
  generalize hm : ofState s = m at h
  induction h generalizing s with
  | none => exact hm ▸ ⟨rfl, List.prefix_refl _⟩
  | more hdue hstep _ ih =>
    subst hm
    obtain ⟨t, hok, rfl⟩ := on_step_eq_ok_iff.mp hstep
    have hlt := counter_lt_of_due hs hdue
    obtain ⟨hsteps, houtputs⟩ := ih (State.counter_le_of_step hs hok) rfl
    refine ⟨?_, (outputs_prefix_of_step hlt hok).trans houtputs⟩
    rw [hsteps, State.steps_of_step hlt hok, Nat.add_assoc, Nat.add_comm 1]

/-- A call that fails, and not because of the limit, has done the steps before the one that fails. -/
theorem exists_does_of_returns {e : ExecutionError} (h : Returns p limit (ofState s) (.error e) m')
    (he : ∀ most, e ≠ .stepLimitExceeded most) :
    ∃ k t, Does p k (ofState s) m' ∧ m' = ofState t ∧ t.step p = .error e := by
  generalize hm : ofState s = m at h
  generalize hr : (.error e : Except ExecutionError Unit) = r at h
  induction h generalizing s with
  | halted => cases hr
  | exceeded => exact absurd (Except.error.inj hr) (he _)
  | failed hdue hlimit hstep =>
    subst hm
    cases hr
    obtain ⟨herror, rfl⟩ := on_step_eq_error_iff.mp hstep
    exact ⟨0, s, .none, rfl, herror⟩
  | next hdue hlimit hstep _ ih =>
    subst hm
    obtain ⟨t, hok, rfl⟩ := on_step_eq_ok_iff.mp hstep
    obtain ⟨k, u, hdoes, hu⟩ := ih rfl hr
    exact ⟨k + 1, u, .more hdue hstep hdoes, hu⟩

/-- A step that fails changes nothing, and fails again whenever it is tried again. A step that succeeds
is counted once and does not lead out of the program, and a machine that has halted stays as it is. So a
call that fails, and not because of the limit, leaves the machine where the step that fails was about to
be done, which is where the error says it is, with all outputs of the steps before. The machine in place
is the machine in all of this. -/
theorem failing_step_changes_nothing (h : Reached p limit inputs m) :
    (∃ s, State.Reached p limit inputs s ∧ m = ofState s ∧ (step p).on m = after s (s.step p)) ∧
    (∀ e m', (step p).on m = (.error e, m') →
      m' = m ∧ ∀ n, (step p).on ((next p)^[n] m) = (.error e, m)) ∧
    (∀ m', m.isHalted p = false → (step p).on m = (.ok (), m') →
      m'.steps = m.steps + 1 ∧ m'.counter ≤ p.size) ∧
    (m.isHalted p = true → (step p).on m = (.ok (), m)) ∧
    ∀ e m', Returns p limit m (.error e) m' → (∀ most, e ≠ .stepLimitExceeded most) →
      (∃ fault, e = .fault m'.counter fault) ∧ (step p).on m' = (.error e, m') ∧
      ∃ k, Does p k m m' ∧ m'.steps = m.steps + k ∧ m.outputs <+: m'.outputs := by
  obtain ⟨s, hs, rfl⟩ := h.exists_state
  have hle := hs.counter_le
  refine ⟨⟨s, hs, rfl, on_step p s⟩, fun e m' hstep => ?_, fun m' hdue hstep => ?_, fun hhalted => ?_,
    fun e m' hreturns he => ?_⟩
  · obtain ⟨herror, rfl⟩ := on_step_eq_error_iff.mp hstep
    have hfixed : ∀ n, (next p)^[n] (ofState s) = ofState s :=
      Function.iterate_fixed (congrArg Prod.snd hstep)
    exact ⟨rfl, fun n => (congrArg (step p).on (hfixed n)).trans hstep⟩
  · obtain ⟨t, hok, rfl⟩ := on_step_eq_ok_iff.mp hstep
    have hlt := counter_lt_of_due hle hdue
    exact ⟨State.steps_of_step hlt hok, State.counter_le_of_step hle hok⟩
  · exact on_step_eq_ok_iff.mpr ⟨s, State.step_of_isHalted hhalted, rfl⟩
  · obtain ⟨k, t, hdoes, rfl, herror⟩ := exists_does_of_returns hreturns he
    obtain ⟨fault, hfault⟩ := State.exists_fault_of_step herror
    exact ⟨⟨fault, hfault⟩, on_step_eq_error_iff.mpr ⟨herror, rfl⟩, k, hdoes, hdoes.counts hle⟩

/-- A call that fails at the third position, behind an output, and a step that is then tried twice. -/
theorem failing_step_changes_nothing_decrement :
    let p := Program.ofText "+.--."
    let e : ExecutionError := .fault 3 (.decrementOfZero 0)
    let m : Machine := { outputs := [1], counter := 3, steps := 3 }
    Reached p none [] {} ∧ Returns p none {} (.error e) m ∧ Reached p none [] m ∧
    (step p).on m = (.error e, m) ∧ (step p).on (m.next p) = (.error e, m) ∧
    ∃ k, Does p k {} m ∧ m.steps = 0 + k := by
  intro p e m
  have hstart : Reached p none [] {} := .start
  have hcall : Returns p none {} (.error e) m := (returns_ofState_iff (s := .start [])).mpr
    ⟨.failed e { written := [1], counter := 3, steps := 3 }, ⟨rfl, 4, by decide +kernel⟩, rfl, rfl⟩
  obtain ⟨-, -, -, -, hfails⟩ := failing_step_changes_nothing hstart
  obtain ⟨-, hstep, k, hdoes, hsteps, -⟩ := hfails e m hcall (fun _ => nofun)
  have hreached : Reached p none [] m := hstart.run hcall
  obtain ⟨-, hagain, -⟩ := failing_step_changes_nothing hreached
  exact ⟨hstart, hcall, hreached, hstep, (hagain e m hstep).2 1, k, hdoes, hsteps⟩

end Machine

end TapeLowering
