import TapeLowering.Proofs.Truncation

/-!
# Inputs that are not read do not matter

A machine looks at its inputs only when it reads. A read takes the first of them and stores it, and fails
if there is none. So more inputs behind those of a machine (`State.supply`) change no step but such a
failure: every other step leads to the same state, with the additional inputs behind those that are left
(`State.step_supply`). The test for the end of the program and the limit on the steps do not see the
inputs at all, and what holds of a step therefore holds of a run (`State.run_supply`).

A run that fails because no input is left has been running in the same state before
(`State.exists_running_of_fault`). With more inputs it is running in that state as well, and the read that
is due there finds the first of the additional inputs.

A run reads its inputs in order: the values that its reads have stored (`State.readings`), and behind them
the inputs that are left, are the inputs that it was given.
-/

namespace TapeLowering

variable {more : List Cell}

/-! ## Actions -/

namespace Workspace

variable {w w' : Workspace} {a : Action}

/-- The workspace with more inputs behind those that are left. -/
def supply (more : List Cell) (w : Workspace) : Workspace := { w with inputs := w.inputs ++ more }

/-- An action on the tape has no part in the inputs. -/
theorem map_withTape_supply (w : Workspace) (t : Except Fault Tape) :
    t.map (w.supply more).withTape = (t.map w.withTape).map (supply more) := by
  cases t <;> rfl

/-- More inputs change no action, unless it fails because none is left. -/
theorem perform_supply (h : w.perform a ≠ .error .inputExhausted) :
    (w.supply more).perform a = (w.perform a).map (supply more) := by
  cases a with
  | right | write => rfl
  | left | increment | decrement => exact map_withTape_supply w _
  | read =>
    cases hinputs : w.inputs with
    | nil => exact absurd (by rw [perform, read, hinputs]) h
    | cons value rest => simp [perform, read, supply, hinputs, Except.map]

/-- An action fails for want of an input only if there is none. -/
theorem inputs_eq_nil_of_perform (h : w.perform a = .error .inputExhausted) : w.inputs = [] := by
  obtain ⟨-, -, ⟨⟩⟩ | ⟨-, -, ⟨⟩⟩ | ⟨-, -, ⟨⟩⟩ | ⟨-, hinputs, -⟩ := perform_eq_error h
  exact hinputs

/-- A read stores the first input, and nothing else takes one. -/
theorem inputs_of_perform (h : w.perform a = .ok w') :
    w.inputs = (if a = .read then [w'.tape.current] else []) ++ w'.inputs := by
  obtain ⟨rfl, _, _, hinputs, rfl⟩ | ⟨rfl, rfl⟩ | ⟨hread, -, _, rfl⟩ := perform_eq_ok h
  · exact hinputs
  · rfl
  · rw [if_neg hread]
    rfl

end Workspace

/-- The state with more inputs behind those that are left. -/
def State.supply (more : List Cell) (s : State) : State := { s with inputs := s.inputs ++ more }

/-- The progress with more inputs behind those that are left. -/
def Progress.supply (more : List Cell) : Progress → Progress
  | halted s => halted (s.supply more)
  | failed e s => failed e (s.supply more)
  | running s => running (s.supply more)

theorem Progress.isOver_supply (more : List Cell) (r : Progress) :
    (r.supply more).isOver = r.isOver := by
  cases r <;> rfl

namespace State

variable {p : Program} {limit : Option Nat} {s t : State} {x : Option Symbol} {n : Nat}

/-! ## Steps -/

theorem jump_supply (s : State) (target : Option Nat) :
    (s.supply more).jump target = (s.jump target).map (supply more) := by
  cases target <;> rfl

/-- More inputs change nothing of how a symbol is obeyed, unless it fails because none is left. -/
theorem obey_supply (h : s.obey p x ≠ .error .inputExhausted) :
    (s.supply more).obey p x = (s.obey p x).map (supply more) := by
  have hzero : (s.supply more).isZero = s.isZero := rfl
  match x with
  | none => rfl
  | some (.act a) =>
    have hperform : s.toWorkspace.perform a ≠ .error .inputExhausted := fun hw =>
      h (by rw [obey, hw]; rfl)
    have hsupply : (s.supply more).toWorkspace.perform a
        = (s.toWorkspace.perform a).map (Workspace.supply more) := Workspace.perform_supply hperform
    rw [obey, obey, hsupply]
    cases s.toWorkspace.perform a <;> rfl
  | some .loopStart =>
    rw [obey, obey, hzero]
    split
    · exact jump_supply s _
    · rfl
  | some .loopEnd =>
    rw [obey, obey, hzero]
    split
    · rfl
    · exact jump_supply s _

/-- More inputs change no step, unless it fails because none is left without them. -/
theorem step_supply (h : ∀ position, s.step p ≠ .error (.fault position .inputExhausted)) :
    (s.supply more).step p = (s.step p).map (supply more) := by
  rcases Nat.lt_or_ge s.counter p.size with hlt | hge
  · have hlt' : (s.supply more).counter < p.size := hlt
    have hobey : s.obey p (p.symbolAt? s.counter) ≠ .error .inputExhausted := fun hobey =>
      h s.counter ((step_eq_error_iff hlt).mpr ⟨_, hobey, rfl⟩)
    have hsupply : (s.supply more).obey p (p.symbolAt? (s.supply more).counter)
        = (s.obey p (p.symbolAt? s.counter)).map (supply more) := obey_supply hobey
    rw [step_of_lt hlt, step_of_lt hlt', hsupply]
    cases s.obey p (p.symbolAt? s.counter) <;> rfl
  · have hnone : p[s.counter]? = none := Array.getElem?_eq_none hge
    have hnone' : p[(s.supply more).counter]? = none := hnone
    rw [step, step, hnone, hnone']
    rfl

/-- A step fails for want of an input only if there is none. -/
theorem inputs_eq_nil_of_step {position : Nat}
    (h : s.step p = .error (.fault position .inputExhausted)) : s.inputs = [] := by
  obtain ⟨_, hobey, ⟨⟩⟩ := (step_eq_error_iff (counter_lt_of_error h)).mp h
  obtain ⟨_, -, ha⟩ | ⟨-, -, ⟨⟩⟩ | ⟨-, -, ⟨⟩⟩ := obey_eq_error hobey
  exact Workspace.inputs_eq_nil_of_perform ha

/-- A step that reads takes the first input and stores it, and no other step takes one. -/
theorem inputs_of_step (hs : s.counter < p.size) (h : s.step p = .ok t) :
    s.inputs
      = (if p.symbolAt? s.counter = some (.act .read) then [t.tape.current] else []) ++ t.inputs := by
  obtain ⟨u, hobey, rfl⟩ := (step_eq_ok_iff hs).mp h
  rcases workspace_of_obey hobey with ⟨hx, hsame⟩ | ⟨a, hx, ha⟩
  · rw [if_neg (hx .read)]
    exact (congrArg Workspace.inputs hsame).symm
  · have hread : p.symbolAt? s.counter = some (.act .read) ↔ a = .read := by
      rw [hx, Option.some.injEq, Symbol.act.injEq]
    simp only [hread]
    exact Workspace.inputs_of_perform ha

/-! ## Runs with more inputs -/

/-- More inputs change no run, unless it fails because none is left without them. -/
theorem run_supply
    (h : ∀ position, (s.run p limit n).error? ≠ some (.fault position .inputExhausted)) :
    (s.supply more).run p limit n = (s.run p limit n).supply more := by
  fun_induction run p limit n s with
  | case1 n s hhalted => exact run_of_isHalted (s := s.supply more) hhalted limit n
  | case2 n s hdue most hlimit =>
    exact run_of_exceeded (s := s.supply more) (eq_false_of_ne_true hdue) hlimit n
  | case3 s hdue hlimit =>
    exact run_due_zero (s := s.supply more) (eq_false_of_ne_true hdue) hlimit
  | case4 s hdue hlimit n t hstep ih =>
    have hmore : (s.supply more).step p = .ok (t.supply more) := by
      rw [step_supply (by simp [hstep]), hstep]
      rfl
    rw [run_due_succ (s := s.supply more) (eq_false_of_ne_true hdue) hlimit, hmore]
    exact ih h
  | case5 s hdue hlimit n e hstep =>
    -- the failure is another one, so more inputs do not prevent it
    have hother : ∀ position, s.step p ≠ .error (.fault position .inputExhausted) := by
      simpa [hstep, Progress.error?] using h
    have hmore : (s.supply more).step p = .error e := by
      rw [step_supply hother, hstep]
      rfl
    rw [run_due_succ (s := s.supply more) (eq_false_of_ne_true hdue) hlimit, hmore]
    rfl

/-- A call that does not fail for want of an input returns the same with more of them. -/
theorem returns_supply_iff {r r' : Progress} (h : s.Returns p limit r)
    (hr : ∀ position, r.error? ≠ some (.fault position .inputExhausted)) :
    (s.supply more).Returns p limit r' ↔ r' = r.supply more := by
  obtain ⟨hover, fuel, rfl⟩ := h
  have hrun : (s.supply more).run p limit fuel = (s.run p limit fuel).supply more := run_supply hr
  have hmore : ((s.supply more).run p limit fuel).isOver = true := by
    rw [hrun, Progress.isOver_supply, hover]
  rw [returns_of_isOver hmore, hrun]

/-- A run that fails because no input is left has none left there, and with more inputs it comes to the
same state with just these. -/
theorem run_of_exhausted (hs : s.counter ≤ p.size) (more : List Cell) {position : Nat}
    (h : s.Returns p limit (.failed (.fault position .inputExhausted) t)) :
    position = t.counter ∧ t.inputs = [] ∧ ∃ n, t.steps = s.steps + n ∧
      (s.supply more).run p limit n = .running { t with inputs := more } := by
  obtain ⟨-, fuel, hfuel⟩ := h
  obtain ⟨n, hn, hstep⟩ := exists_running_of_fault hfuel
  obtain ⟨_, ⟨⟩⟩ := exists_fault_of_step hstep
  have hinputs : t.inputs = [] := inputs_eq_nil_of_step hstep
  refine ⟨rfl, hinputs, n, steps_of_running hs hn, ?_⟩
  rw [run_supply (by rw [hn]; nofun), hn, Progress.supply, supply, hinputs, List.nil_append]

/-! ## The inputs that a run reads -/

/-- The values that reads store within a number of steps, in the order of the steps. -/
def readings (p : Program) : Nat → State → List Cell
  | 0, _ => []
  | n + 1, s =>
    match s.step p with
    | .ok t =>
      (if p.symbolAt? s.counter = some (.act .read) then [t.tape.current] else []) ++ readings p n t
    | .error _ => []

/-- What a passage has read, and behind it what is left, are the inputs it was given. -/
theorem inputs_of_passage {lo hi : Nat} (h : Passage p lo hi n s t) (hhi : hi ≤ p.size) :
    readings p n s ++ t.inputs = s.inputs := by
  induction h with
  | refl s => rfl
  | step _ hlt hs _ ih =>
    rw [readings, hs, List.append_assoc, ih]
    exact (inputs_of_step (Nat.lt_of_lt_of_le hlt hhi) hs).symm

/-- A run with some inputs determines the run with more inputs behind them. If it ends, and not because no
input is left, the other run ends in the same way and in the same state, with the additional inputs behind
those that are left. If it ends because no input is left, the other run comes to that state as well, with
just the additional inputs left. If it never ends, the other one never ends either, and comes to the same
states. In every state of a run, the values that its reads have stored, in their order, and then the
inputs that are left are the inputs of the run. -/
theorem unread_inputs_do_not_matter (p : Program) (limit : Option Nat) (inputs more : List Cell) :
    (∀ r, (start inputs).Returns p limit r →
      (∀ position, r.error? ≠ some (.fault position .inputExhausted)) →
      ∀ r', (start (inputs ++ more)).Returns p limit r' ↔ r' = r.supply more) ∧
    (∀ position s, (start inputs).Returns p limit (.failed (.fault position .inputExhausted) s) →
      position = s.counter ∧ s.inputs = [] ∧
      (start (inputs ++ more)).run p limit s.steps = .running { s with inputs := more }) ∧
    ((∀ n, ∃ s, (start inputs).run p limit n = .running s) →
      ∀ n, ∃ s, (start inputs).run p limit n = .running s ∧
        (start (inputs ++ more)).run p limit n = .running (s.supply more)) ∧
    ∀ n, let s := ((start inputs).run p limit n).state
      readings p s.steps (start inputs) ++ s.inputs = inputs := by
  have hstart : (start inputs).counter ≤ p.size := Nat.zero_le _
  refine ⟨fun r h hr r' => returns_supply_iff h hr, fun position s h => ?_, fun h n => ?_, fun n => ?_⟩
  · obtain ⟨hposition, hinputs, k, hsteps, hrun⟩ := run_of_exhausted hstart more h
    obtain rfl : s.steps = k := hsteps.trans (Nat.zero_add k)
    exact ⟨hposition, hinputs, hrun⟩
  · obtain ⟨s, hs⟩ := h n
    have hrun : (start (inputs ++ more)).run p limit n = ((start inputs).run p limit n).supply more :=
      run_supply (by rw [hs]; nofun)
    exact ⟨s, hs, by rw [hrun, hs]; rfl⟩
  · obtain ⟨k, hk⟩ := exists_passage_to_state hstart limit n
    have hsteps := steps_of_passage hk (Nat.le_refl _)
    intro s
    -- no step was done before the run, so the count of steps is the length of the passage
    obtain rfl : s.steps = k := hsteps.trans (Nat.zero_add k)
    exact inputs_of_passage hk (Nat.le_refl _)

/-- The program reads twice and then waits until the second value is zero. So the run fails with one
input, halts or never ends with two, and does not read a third one. -/
theorem unread_inputs_do_not_matter_third :
    let p := Program.ofText ",,[]"
    let s : State := { tape := ⟨[], 5, []⟩, counter := 1, steps := 1 }
    let t : State := { tape := ⟨[], 0, []⟩, counter := 4, steps := 3 }
    (start [5]).Returns p none (.failed (.fault 1 .inputExhausted) s) ∧
    (start [5, 0]).run p none 1 = .running { s with inputs := [0] } ∧
    (start [5, 0]).Returns p none (.halted t) ∧
    (start [5, 0, 9]).Returns p none (.halted { t with inputs := [9] }) ∧
    (∀ n, ∃ u, (start [5, 1]).run p none n = .running u) ∧
    ∀ n, ∃ u v, (start [5, 1]).run p none n = .running u ∧
      (start [5, 1, 9]).run p none n = .running v ∧ v.inputs = u.inputs ++ [9] := by
  intro p s t
  have hfails : (start [5]).Returns p none (.failed (.fault 1 .inputExhausted) s) :=
    ⟨rfl, 2, by decide +kernel⟩
  have hhalts : (start [5, 0]).Returns p none (.halted t) := ⟨rfl, 3, by decide +kernel⟩
  have hsize : 3 < p.size := by decide +kernel
  have hend : p.symbolAt? 3 = some .loopEnd := by decide +kernel
  have hopening : p.opening? 3 = some 2 := by decide +kernel
  -- the loop is never left, since its cell is one
  have hwaits : ∀ n steps, ∃ u,
      State.run p none n { tape := ⟨[], 1, []⟩, counter := 3, steps } = .running u := by
    intro n
    induction n with
    | zero => exact fun steps => ⟨_, run_zero hsize⟩
    | succ n ih =>
      intro steps
      rw [run_succ hsize (step_repeat hend rfl hopening)]
      exact ih (steps + 1)
  have hruns : ∀ n, ∃ u, (start [5, 1]).run p none n = .running u := by
    have hstart : (start [5, 1]).counter ≤ p.size := Nat.zero_le _
    have hthree : (start [5, 1]).run p none 3
        = .running { tape := ⟨[], 1, []⟩, counter := 3, steps := 3 } := by decide +kernel
    intro n
    obtain ⟨u, hu⟩ := hwaits n 3
    have hmore := run_of_passage ((run_eq_running_iff hstart).mp hthree).1 (Nat.le_refl _) n
    exact exists_running_of_le hstart (hmore.trans hu) (Nat.le_add_left n 3)
  obtain ⟨-, hexhausted, -, -⟩ := unread_inputs_do_not_matter p none [5] [0]
  obtain ⟨hends, -, -, -⟩ := unread_inputs_do_not_matter p none [5, 0] [9]
  obtain ⟨-, -, hforever, -⟩ := unread_inputs_do_not_matter p none [5, 1] [9]
  refine ⟨hfails, (hexhausted 1 s hfails).2.2, hhalts, (hends _ hhalts nofun _).mpr rfl, hruns,
    fun n => ?_⟩
  obtain ⟨u, hu, hv⟩ := hforever hruns n
  exact ⟨u, _, hu, hv, rfl⟩

end State

end TapeLowering
