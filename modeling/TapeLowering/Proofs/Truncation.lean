import TapeLowering.Proofs.Sequencing

/-!
# A step limit truncates runs

A machine with a step limit does what it does without one, until the steps that the limit leaves it are
done. If it has neither halted nor failed by then, the run is cut off where it is (`run_some`). The
limit is on all steps of the machine, so steps done before leave it fewer, or none.

A run is given fuel here, and a call that runs the machine to its end is not: it returns what the run
comes to with enough fuel, if that is no more running (`Returns`). With a limit it always returns, and
what it returns is the run without a limit, cut off (`returns_some_iff`). Everything else about limits
follows from this equation.
-/

namespace TapeLowering

namespace Progress

/-- Whether a run has halted or failed, so that no more steps change it. -/
def isOver : Progress → Bool
  | halted _ | failed _ _ => true
  | running _ => false

/-- Cuts off a run in which another step is due. -/
def cutOff (limit : Nat) : Progress → Progress
  | running s => failed (.stepLimitExceeded limit) s
  | r => r

variable {r : Progress} {limit : Nat}

theorem isOver_cutOff (limit : Nat) (r : Progress) : (r.cutOff limit).isOver = true := by
  cases r <;> rfl

theorem state_cutOff (limit : Nat) (r : Progress) : (r.cutOff limit).state = r.state := by
  cases r <;> rfl

theorem cutOff_of_isOver (h : r.isOver = true) : r.cutOff limit = r := by
  cases r with
  | halted | failed => rfl
  | running => cases h

/-- A run that is not over is still running. -/
theorem isOver_eq_false_iff : r.isOver = false ↔ ∃ s, r = running s := by
  cases r <;> simp [isOver]

end Progress

namespace State

open Progress

variable {p : Program} {limit : Option Nat} {s t : State} {r : Progress} {n m : Nat}

/-! ## Runs with a limit and runs without one -/

/-- A limit is exceeded if as many steps are done. -/
theorem exceeded?_some (s : State) (limit : Nat) :
    s.exceeded? (some limit) = if limit ≤ s.steps then some limit else none := by
  rw [exceeded?, Option.filter_some]
  simp only [decide_eq_true_eq]

theorem exceeded?_of_lt {limit : Nat} (h : s.steps < limit) : s.exceeded? (some limit) = none := by
  rw [exceeded?_some, if_neg (Nat.not_le.mpr h)]

/-- Once the steps done have reached the limit, the machine stays where it is. -/
theorem run_some_of_le (hs : s.counter ≤ p.size) {limit : Nat} (h : limit ≤ s.steps) (n : Nat) :
    s.run p (some limit) n = (s.run p none 0).cutOff limit := by
  rcases Nat.eq_or_lt_of_le hs with heq | hlt
  · rw [run_of_isHalted (isHalted_eq_true heq), run_of_halted heq]
    rfl
  · rw [run_of_exceeded (isHalted_eq_false hlt) (by rw [exceeded?_some, if_pos h]), run_zero hlt]
    rfl

/-- Below the limit a run is the run without a limit, and beyond it the run is cut off at the limit. -/
theorem run_some (hs : s.counter ≤ p.size) (limit n : Nat) :
    s.run p (some limit) n =
      if s.steps + n < limit then s.run p none n
      else (s.run p none (limit - s.steps)).cutOff limit := by
  -- by induction on the fuel, with what the limit leaves going down alongside
  induction n generalizing s with
  | zero =>
    rw [Nat.add_zero]
    rcases Nat.lt_or_ge s.steps limit with hless | hge
    · rw [if_pos hless]
      rcases Nat.eq_or_lt_of_le hs with heq | hlt
      · rw [run_of_isHalted (isHalted_eq_true heq), run_of_halted heq]
      · rw [run_due_zero (isHalted_eq_false hlt) (exceeded?_of_lt hless), run_zero hlt]
    · rw [if_neg (Nat.not_lt.mpr hge), run_some_of_le hs hge, Nat.sub_eq_zero_of_le hge]
  | succ n ih =>
    rcases Nat.eq_or_lt_of_le hs with heq | hlt
    · rw [run_of_isHalted (isHalted_eq_true heq), run_of_halted heq, run_of_halted heq]
      exact (ite_self _).symm
    · rcases Nat.lt_or_ge s.steps limit with hless | hge
      · have hdue := isHalted_eq_false hlt
        obtain ⟨left, hleft⟩ : ∃ left, limit - s.steps = left + 1 := ⟨limit - s.steps - 1, by omega⟩
        rw [run_due_succ hdue (exceeded?_of_lt hless), hleft, run_due_succ hdue rfl,
          run_due_succ hdue rfl]
        cases hstep : s.step p with
        | ok t =>
          have hsteps := steps_of_step hlt hstep
          have hrest : limit - t.steps = left := by omega
          have hdone : t.steps + n = s.steps + (n + 1) := by omega
          exact (ih (counter_le_of_step hs hstep)).trans (by rw [hrest, hdone])
        | error e => exact (ite_self _).symm
      · rw [if_neg (by omega), run_some_of_le hs hge, Nat.sub_eq_zero_of_le hge]

/-- A run without a limit is still running if it has made as many steps and is not at the end. -/
theorem run_none_eq_running_iff (hs : s.counter ≤ p.size) :
    s.run p none n = .running t ↔ Passage p 0 p.size n s t ∧ t.isHalted p = false := by
  rw [run_eq_running_iff hs]
  refine and_congr_right fun h => ?_
  have hle := counter_le_of_passage hs h
  simp only [isHalted, beq_eq_false_iff_ne]
  omega

/-- Without a limit, no run fails because of one. -/
theorem run_none_ne_exceeded (hs : s.counter ≤ p.size) (limit : Nat) :
    s.run p none n ≠ .failed (.stepLimitExceeded limit) t := by
  intro h
  obtain ⟨m, _, hm, hends⟩ := exists_passage_of_run hs n
  rw [h] at hends
  obtain ⟨fault, hfault⟩ := exists_fault_of_step hends.2
  cases hfault

/-- With or without a limit, every state that a run reaches is the end of a passage. -/
theorem exists_passage_to_state (hs : s.counter ≤ p.size) (limit : Option Nat) (n : Nat) :
    ∃ m, Passage p 0 p.size m s (s.run p limit n).state := by
  have hnone : ∀ n, ∃ m, Passage p 0 p.size m s (s.run p none n).state := fun n => by
    obtain ⟨m, _, hm, _⟩ := exists_passage_of_run hs n
    exact ⟨m, hm⟩
  cases limit with
  | none => exact hnone n
  | some limit =>
    rw [run_some hs]
    split
    · exact hnone n
    · rw [state_cutOff]
      exact hnone _

theorem counter_run_le (hs : s.counter ≤ p.size) (limit : Option Nat) (n : Nat) :
    (s.run p limit n).state.counter ≤ p.size := by
  obtain ⟨_, hm⟩ := exists_passage_to_state hs limit n
  exact counter_le_of_passage hs hm

/-- A run that may go on has done all the steps that it was given. -/
theorem steps_of_running (hs : s.counter ≤ p.size) (h : s.run p limit n = .running t) :
    t.steps = s.steps + n := by
  have hnone : s.run p none n = .running t := by
    cases limit with
    | none => exact h
    | some limit =>
      rw [run_some hs] at h
      split at h
      · exact h
      · exact absurd (congrArg isOver h) (by rw [isOver_cutOff]; nofun)
  exact steps_of_passage ((run_eq_running_iff hs).mp hnone).1 (Nat.le_refl _)

/-! ## Calls that return -/

/-- A run that is over does not change with more fuel. -/
theorem run_of_isOver (h : (s.run p limit n).isOver = true) (hle : n ≤ m) :
    s.run p limit m = s.run p limit n := by
  fun_induction run p limit n s generalizing m with
  | case1 n s hhalted => exact run_of_isHalted hhalted limit m
  | case2 n s hdue most hlimit => exact run_of_exceeded (eq_false_of_ne_true hdue) hlimit m
  | case3 => cases h
  | case4 s hdue hlimit n t hstep ih =>
    obtain ⟨m, rfl⟩ : ∃ k, m = k + 1 := ⟨m - 1, by omega⟩
    rw [run_due_succ (eq_false_of_ne_true hdue) hlimit, hstep]
    exact ih h (Nat.le_of_succ_le_succ hle)
  | case5 s hdue hlimit n e hstep =>
    obtain ⟨m, rfl⟩ : ∃ k, m = k + 1 := ⟨m - 1, by omega⟩
    rw [run_due_succ (eq_false_of_ne_true hdue) hlimit, hstep]

/-- A call that runs the machine to its end returns, and this is how far the machine has come. -/
def Returns (p : Program) (limit : Option Nat) (s : State) (r : Progress) : Prop :=
  r.isOver = true ∧ ∃ fuel, s.run p limit fuel = r

/-- A call returns what a run comes to that is over, as more fuel changes nothing of it. -/
theorem returns_of_isOver (h : (s.run p limit n).isOver = true) :
    s.Returns p limit r ↔ r = s.run p limit n := by
  constructor
  · rintro ⟨hover, fuel, rfl⟩
    rcases Nat.le_total n fuel with hle | hle
    · exact run_of_isOver h hle
    · exact (run_of_isOver hover hle).symm
  · rintro rfl
    exact ⟨h, n, rfl⟩

/-- With a limit a call always returns: the run without a limit, cut off after as many steps as the
limit leaves. -/
theorem returns_some_iff (hs : s.counter ≤ p.size) {limit : Nat} :
    s.Returns p (some limit) r ↔ r = (s.run p none (limit - s.steps)).cutOff limit := by
  have hrun : s.run p (some limit) (limit - s.steps)
      = (s.run p none (limit - s.steps)).cutOff limit := by
    rw [run_some hs, if_neg (by omega)]
  have hover : (s.run p (some limit) (limit - s.steps)).isOver = true := by
    rw [hrun]
    exact isOver_cutOff limit _
  rw [returns_of_isOver hover, hrun]

/-- The states that a machine comes to by any mix of single steps and calls that run it to its end. A
step that fails, and a call that does not return, lead to no other state. -/
inductive Reached (p : Program) (limit : Option Nat) (inputs : List Cell) : State → Prop where
  | start : Reached p limit inputs (.start inputs)
  | step {s t : State} : Reached p limit inputs s → s.step p = .ok t → Reached p limit inputs t
  | run {s : State} {r : Progress} : Reached p limit inputs s → s.Returns p limit r →
      Reached p limit inputs r.state

/-- A machine that is reached has its counter within the program, or at its end. -/
theorem Reached.counter_le {inputs : List Cell} (h : Reached p limit inputs s) :
    s.counter ≤ p.size := by
  induction h with
  | start => exact Nat.zero_le _
  | step _ hstep ih => exact counter_le_of_step ih hstep
  | run _ hreturns ih =>
    obtain ⟨_, fuel, rfl⟩ := hreturns
    exact counter_run_le ih limit fuel

/-! ## What a limit changes -/

/-- A call is cut off exactly if the machine does all the steps that the limit leaves, and then has not
halted. -/
theorem returns_exceeded_iff (hs : s.counter ≤ p.size) {limit : Nat} :
    s.Returns p (some limit) (.failed (.stepLimitExceeded n) t) ↔
      n = limit ∧ Passage p 0 p.size (limit - s.steps) s t ∧ t.isHalted p = false := by
  rw [returns_some_iff hs, ← run_none_eq_running_iff hs]
  cases hr : s.run p none (limit - s.steps) with
  | halted u => simp [cutOff]
  | failed e u =>
    have hne : e ≠ .stepLimitExceeded n := fun he =>
      run_none_ne_exceeded hs n (hr.trans (congrArg (failed · u) he))
    simp [cutOff, Ne.symm hne]
  | running u => simp [cutOff, eq_comm]

/-- A call that is not cut off returns what the run without a limit comes to in the same steps. -/
theorem run_none_of_returns (hs : s.counter ≤ p.size) {limit : Nat} (h : s.Returns p (some limit) r)
    (hr : ∀ n, r.error? ≠ some (.stepLimitExceeded n)) : s.run p none (limit - s.steps) = r := by
  rw [returns_some_iff hs] at h
  cases hrun : s.run p none (limit - s.steps) with
  | halted | failed =>
    rw [hrun] at h
    exact h.symm
  | running t =>
    rw [hrun] at h
    exact absurd (congrArg error? h) (hr limit)

/-- A run that halts within the limit is not cut off, also where the last step is the last one that the
limit allows. -/
theorem returns_some_of_halted (hs : s.counter ≤ p.size) {limit : Nat}
    (h : s.Returns p none (.halted t)) (ht : t.steps ≤ limit) :
    s.Returns p (some limit) (.halted t) := by
  obtain ⟨_, fuel, hfuel⟩ := h
  obtain ⟨m, _, hm, hends⟩ := exists_passage_of_run hs fuel
  rw [hfuel] at hm hends
  have hsteps : t.steps = s.steps + m := steps_of_passage hm (Nat.le_refl _)
  have hleft : limit - s.steps = m + (limit - t.steps) := by omega
  rw [returns_some_iff hs, hleft, run_of_passage hm (Nat.le_refl _)]
  exact congrArg (cutOff limit) (run_of_halted hends _).symm

/-- A limit on the steps only truncates a run. The call returns what the run without a limit comes to in
the steps that are left, and fails if another one is due; otherwise it returns what the call without a
limit returns. So a greater limit changes no other result, a program that halts within the limit is not
cut off, and to call again what was cut off changes nothing. -/
theorem limit_truncates {inputs : List Cell} {limit : Nat} (h : Reached p (some limit) inputs s) :
    let left := limit - s.steps
    (∀ r, s.Returns p (some limit) r ↔ r = (s.run p none left).cutOff limit) ∧
    (∀ n t, s.Returns p (some limit) (.failed (.stepLimitExceeded n) t) ↔
      n = limit ∧ Passage p 0 p.size left s t ∧ t.isHalted p = false) ∧
    ((¬ ∃ t, Passage p 0 p.size left s t ∧ t.isHalted p = false) →
      ∀ r, s.Returns p (some limit) r ↔ s.Returns p none r) ∧
    (∀ r, s.Returns p (some limit) r → (∀ n, r.error? ≠ some (.stepLimitExceeded n)) →
      s.Returns p none r ∧ ∀ greater, limit ≤ greater → s.Returns p (some greater) r) ∧
    (∀ t, s.Returns p none (.halted t) → t.steps ≤ limit → s.Returns p (some limit) (.halted t)) ∧
    ∀ n t, s.Returns p (some limit) (.failed (.stepLimitExceeded n) t) →
      ∀ r, t.Returns p (some limit) r ↔ r = .failed (.stepLimitExceeded n) t := by
  have hs := h.counter_le
  refine ⟨fun r => returns_some_iff hs, fun n t => returns_exceeded_iff hs, fun hends r => ?_,
    fun r hr hne => ?_, fun t => returns_some_of_halted hs, fun n t hcut r => ?_⟩
  · have hover : (s.run p none (limit - s.steps)).isOver = true := by
      rw [← Bool.not_eq_false, isOver_eq_false_iff]
      rintro ⟨t, ht⟩
      exact hends ⟨t, (run_none_eq_running_iff hs).mp ht⟩
    rw [returns_some_iff hs, cutOff_of_isOver hover, returns_of_isOver hover]
  · have hrun := run_none_of_returns hs hr hne
    refine ⟨⟨hr.1, _, hrun⟩, fun greater hle => ?_⟩
    have hover : (s.run p none (limit - s.steps)).isOver = true := hrun ▸ hr.1
    have hmore : s.run p none (greater - s.steps) = r :=
      (run_of_isOver hover (Nat.sub_le_sub_right hle _)).trans hrun
    rw [returns_some_iff hs, hmore, cutOff_of_isOver hr.1]
  · obtain ⟨rfl, hpassage, hhalted⟩ := (returns_exceeded_iff hs).mp hcut
    have hsteps := steps_of_passage hpassage (Nat.le_refl _)
    have ht := counter_le_of_passage hs hpassage
    -- the steps done have used up the limit
    have hleft : n - t.steps = 0 := by omega
    have hrun : t.run p none 0 = .running t := (run_none_eq_running_iff ht).mpr ⟨.refl t, hhalted⟩
    rw [returns_some_iff ht, hleft, hrun]
    rfl

/-- The third command fails, and it is due when the limit is reached: the limit comes first, and again
when the call is repeated. With one step more the command is reached. -/
theorem limit_truncates_two :
    let p := Program.ofText "+--"
    let t : State := { counter := 2, steps := 2 }
    Reached p (some 2) [] (.start []) ∧ Reached p (some 2) [] t ∧
    (start []).Returns p (some 2) (.failed (.stepLimitExceeded 2) t) ∧
    t.Returns p (some 2) (.failed (.stepLimitExceeded 2) t) ∧
    (start []).Returns p (some 3) (.failed (.fault 2 (.decrementOfZero 0)) t) := by
  intro p t
  have hstart : ∀ {limit}, Reached p limit [] (.start []) := .start
  have hcut : (start []).Returns p (some 2) (.failed (.stepLimitExceeded 2) t) :=
    ((limit_truncates hstart).1 _).mpr (by decide +kernel)
  have hrepeat := (limit_truncates hstart).2.2.2.2.2 2 t hcut (.failed (.stepLimitExceeded 2) t)
  have hfault : (start []).Returns p (some 3) (.failed (.fault 2 (.decrementOfZero 0)) t) :=
    ((limit_truncates hstart).1 _).mpr (by decide +kernel)
  exact ⟨hstart, .run hstart hcut, hcut, hrepeat.mpr rfl, hfault⟩

end State

end TapeLowering
