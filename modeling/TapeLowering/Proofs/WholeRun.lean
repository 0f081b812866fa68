import TapeLowering.Proofs.Passage

/-!
# Runs of a whole program

A run without a step limit is a passage through the whole program: it halts if the passage leaves the
program at its end, fails if the last state of the passage does, and is still running if there are as
many steps as were asked for. The counter never gets beyond the end of the program, so there is no
other way to leave it.
-/

namespace TapeLowering.State

variable {p : Program} {s t : State} {n m : Nat}

/-! ## The counter -/

/-- A symbol that is obeyed leaves the counter within the program. -/
theorem counter_lt_of_obey (hs : s.counter < p.size) {x : Option Symbol}
    (h : s.obey p x = .ok t) : t.counter < p.size := by
  rcases counter_of_obey h with heq | ⟨_, hj⟩ | ⟨_, hj⟩
  · exact heq ▸ hs
  · have hlt := Program.lt_of_closingFrom? hj
    omega
  · exact Nat.lt_trans (Program.lt_of_openingFrom? hj) hs

/-- The counter never gets beyond the end of the program. -/
theorem counter_le_of_step (hs : s.counter ≤ p.size) (h : s.step p = .ok t) :
    t.counter ≤ p.size := by
  unfold step at h
  split at h
  · cases h
    exact hs
  · rename_i byte hbyte
    have hlt : s.counter < p.size := (Array.getElem?_eq_some_iff.mp hbyte).1
    split at h
    · rename_i next hnext
      cases h
      exact counter_lt_of_obey hlt hnext
    · cases h

theorem counter_le_of_passage {lo hi : Nat} (hs : s.counter ≤ p.size)
    (h : Passage p lo hi n s t) : t.counter ≤ p.size := by
  induction h with
  | refl => exact hs
  | step _ _ hstep _ ih => exact ih (counter_le_of_step hs hstep)

/-! ## One step of a run -/

section Due

variable {limit : Option Nat}

theorem run_of_isHalted (h : s.isHalted p = true) (limit : Option Nat) (n : Nat) :
    s.run p limit n = .halted s := by
  unfold run
  rw [if_pos h]

theorem run_of_exceeded (h : s.isHalted p = false) {l : Nat} (hlimit : s.exceeded? limit = some l)
    (n : Nat) : s.run p limit n = .failed (.stepLimitExceeded l) s := by
  unfold run
  simp [h, hlimit]

/-- A machine that may do another step waits for fuel. -/
theorem run_due_zero (h : s.isHalted p = false) (hlimit : s.exceeded? limit = none) :
    s.run p limit 0 = .running s := by
  unfold run
  simp [h, hlimit]

/-- A machine that may do another step does it. -/
theorem run_due_succ (h : s.isHalted p = false) (hlimit : s.exceeded? limit = none) (n : Nat) :
    s.run p limit (n + 1) = match s.step p with
      | .ok t => t.run p limit n
      | .error e => .failed e s := by
  conv => lhs; unfold run
  cases s.step p <;> simp [h, hlimit]

/-- A run that a step has stopped has been running in the same state before that step. -/
theorem exists_running_of_fault {position : Nat} {fault : Fault}
    (h : s.run p limit n = .failed (.fault position fault) t) :
    ∃ m, s.run p limit m = .running t ∧ t.step p = .error (.fault position fault) := by
  -- the cases of a run: halted, cut off, out of fuel, a step that succeeds, a step that fails
  fun_induction run p limit n s with
  | case1 | case2 | case3 => cases h
  | case4 s hdue hlimit n u hstep ih =>
    obtain ⟨m, hm, herror⟩ := ih h
    refine ⟨m + 1, ?_, herror⟩
    rw [run_due_succ (eq_false_of_ne_true hdue) hlimit, hstep]
    exact hm
  | case5 s hdue hlimit n e hstep =>
    cases h
    exact ⟨0, run_due_zero (eq_false_of_ne_true hdue) hlimit, hstep⟩

end Due

theorem isHalted_eq_true (h : s.counter = p.size) : s.isHalted p = true := by
  simpa [isHalted] using h

theorem isHalted_eq_false (h : s.counter < p.size) : s.isHalted p = false := by
  simp [isHalted, Nat.ne_of_lt h]

theorem run_of_halted (h : s.counter = p.size) (n : Nat) : s.run p none n = .halted s :=
  run_of_isHalted (isHalted_eq_true h) none n

theorem run_zero (h : s.counter < p.size) : s.run p none 0 = .running s :=
  run_due_zero (isHalted_eq_false h) rfl

theorem run_succ (h : s.counter < p.size) (hs : s.step p = .ok t) (n : Nat) :
    s.run p none (n + 1) = t.run p none n := by
  rw [run_due_succ (isHalted_eq_false h) rfl, hs]

/-- A run fails where its first step does. -/
theorem run_of_error (h : s.counter < p.size) {e : ExecutionError} (hs : s.step p = .error e)
    (n : Nat) : s.run p none (n + 1) = .failed e s := by
  rw [run_due_succ (isHalted_eq_false h) rfl, hs]

/-! ## Runs and passages -/

/-- A run may go on where a passage has come to. -/
theorem run_of_passage {lo hi : Nat} (h : Passage p lo hi n s t) (hhi : hi ≤ p.size) (m : Nat) :
    s.run p none (n + m) = t.run p none m := by
  induction h with
  | refl => rw [Nat.zero_add]
  | step _ hshi hs _ ih =>
    rw [Nat.succ_add, run_succ (Nat.lt_of_lt_of_le hshi hhi) hs, ih]

theorem state_run_zero (p : Program) (s : State) : (s.run p none 0).state = s := by
  unfold run
  split <;> rfl

/-- How a run of at most `n` steps stands after a passage of `m` steps. -/
def RunEnds (p : Program) (n m : Nat) : Progress → Prop
  | .halted t => t.counter = p.size
  | .failed e t => t.counter < p.size ∧ t.step p = .error e
  | .running t => t.counter < p.size ∧ m = n

/-- Every state that a run reaches is the end of a passage. -/
theorem exists_passage_of_run (hs : s.counter ≤ p.size) (n : Nat) :
    ∃ m, m ≤ n ∧ Passage p 0 p.size m s (s.run p none n).state ∧
      RunEnds p n m (s.run p none n) := by
  induction n generalizing s with
  | zero =>
    rcases Nat.eq_or_lt_of_le hs with heq | hlt
    · rw [run_of_halted heq]
      exact ⟨0, Nat.zero_le _, .refl s, heq⟩
    · rw [run_zero hlt]
      exact ⟨0, Nat.zero_le _, .refl s, hlt, rfl⟩
  | succ n ih =>
    rcases Nat.eq_or_lt_of_le hs with heq | hlt
    · rw [run_of_halted heq]
      exact ⟨0, Nat.zero_le _, .refl s, heq⟩
    · cases hstep : s.step p with
      | ok t =>
        rw [run_succ hlt hstep]
        obtain ⟨m, hle, hm, hends⟩ := ih (counter_le_of_step hs hstep)
        -- one step, and then the passage of the rest of the run
        refine ⟨m + 1, Nat.succ_le_succ hle, .step (Nat.zero_le _) hlt hstep hm, ?_⟩
        cases hr : t.run p none n with
        | halted u | failed e u =>
          rw [hr] at hends
          exact hends
        | running u =>
          rw [hr] at hends
          exact ⟨hends.1, congrArg (· + 1) hends.2⟩
      | error e =>
        rw [run_of_error hlt hstep]
        exact ⟨0, Nat.zero_le _, .refl s, hlt, hstep⟩

/-- A run that is not done has done all the steps that it was given. -/
theorem run_eq_running_iff (hs : s.counter ≤ p.size) :
    s.run p none n = .running t ↔ Passage p 0 p.size n s t ∧ t.counter < p.size := by
  constructor
  · intro h
    obtain ⟨m, _, hm, hends⟩ := exists_passage_of_run hs n
    rw [h] at hm hends
    obtain ⟨hlt, rfl⟩ := hends
    exact ⟨hm, hlt⟩
  · rintro ⟨hm, hlt⟩
    rw [← Nat.add_zero n, run_of_passage hm (Nat.le_refl _), run_zero hlt]

/-- A run that is not done after some steps is not done after fewer. -/
theorem exists_running_of_le (hs : s.counter ≤ p.size) (h : s.run p none n = .running t)
    (hle : m ≤ n) : ∃ u, s.run p none m = .running u := by
  obtain ⟨hn, hlt⟩ := (run_eq_running_iff hs).mp h
  obtain ⟨u, hu, _, hult⟩ := hn.take (Nat.zero_le _) hlt hle
  exact ⟨u, (run_eq_running_iff hs).mpr ⟨hu, hult⟩⟩

/-- A machine leaves the whole program if and only if its run halts. -/
theorem leaves_iff_halted (hs : s.counter ≤ p.size) (w : Workspace) :
    Leaves p 0 p.size s w ↔ ∃ n t, s.run p none n = .halted t ∧ t.toWorkspace = w := by
  constructor
  · rintro ⟨n, t, ht, hcounter, hw⟩
    exact ⟨n + 0, t, by rw [run_of_passage ht (Nat.le_refl _), run_of_halted hcounter], hw⟩
  · rintro ⟨n, t, ht, hw⟩
    obtain ⟨m, _, hm, hends⟩ := exists_passage_of_run hs n
    rw [ht] at hm hends
    exact ⟨m, t, hm, hends, hw⟩

/-- A machine fails in the whole program if and only if its run does. -/
theorem failsWithin_iff_failed (hs : s.counter ≤ p.size) (fault : Fault) (w : Workspace) :
    FailsWithin p 0 p.size s fault w ↔
      ∃ n t, s.run p none n = .failed (.fault t.counter fault) t ∧ t.toWorkspace = w := by
  constructor
  · rintro ⟨n, t, ht, _, hlt, hstep, hw⟩
    exact ⟨n + 1, t, by rw [run_of_passage ht (Nat.le_refl _), run_of_error hlt hstep], hw⟩
  · rintro ⟨n, t, ht, hw⟩
    obtain ⟨m, _, hm, hends⟩ := exists_passage_of_run hs n
    rw [ht] at hm hends
    exact ⟨m, t, hm, Nat.zero_le _, hends.1, hends.2, hw⟩

/-- A machine stays in the whole program if and only if its run never ends. -/
theorem staysWithin_iff_running (hs : s.counter ≤ p.size) :
    StaysWithin p 0 p.size s ↔ ∀ n, ∃ t, s.run p none n = .running t := by
  simp only [StaysWithin, run_eq_running_iff hs, Nat.zero_le, true_and]

end TapeLowering.State
