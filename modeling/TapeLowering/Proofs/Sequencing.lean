import TapeLowering.Proofs.Balance
import TapeLowering.Proofs.Embedding
import TapeLowering.Proofs.WholeRun

/-!
# One program behind another

If the first of two programs is balanced, its loops end within it, and a scan back from an unmatched
end in the second one finds no start in it. So a machine on both runs the first program as if it
were alone, and once that has halted it runs the second one, with all positions moved by the size of
the first (`run_text_append`). The second program need not be balanced.
-/

namespace TapeLowering

namespace Program

variable {p : Program}

/-- The first of two programs stands where it is. -/
theorem embeds_left (p q : Program) : Embeds id p (p ++ q) where
  symbol h := ⟨symbolAt?_append_of_some h q, rfl⟩
  comment hi h := .inr ⟨(symbolAt?_append_of_lt hi q).trans h, rfl⟩

/-- The second of two programs stands behind the first one. -/
theorem embeds_right (p q : Program) : Embeds (p.size + ·) q (p ++ q) where
  symbol h := ⟨(symbolAt?_append_size p q _).trans h, rfl⟩
  comment _ h := .inr ⟨(symbolAt?_append_size p q _).trans h, rfl⟩

/-- A scan forward over positions of the first program. -/
theorem closingFrom?_append_left (p q : Program) {remaining depth position : Nat}
    (hle : position + remaining ≤ p.size) : (p ++ q).closingFrom? remaining depth position
      = p.closingFrom? remaining depth position := by
  have hscan : (p ++ q).closingFrom? (position + remaining - position) depth position
      = (p.closingFrom? remaining depth position).map id := (embeds_left p q).closingFrom? hle
  rwa [Nat.add_sub_cancel_left, Option.map_id_apply] at hscan

/-- A scan back over positions of the first program. -/
theorem openingFrom?_append_left (p q : Program) {bound depth : Nat} (hle : bound ≤ p.size) :
    (p ++ q).openingFrom? bound depth = p.openingFrom? bound depth := by
  have hscan : (p ++ q).openingFrom? bound depth = (p.openingFrom? bound depth).map id :=
    (embeds_left p q).openingFrom? (fun _ => rfl) hle
  rwa [Option.map_id_apply] at hscan

/-- In a balanced program, a symbol is obeyed as it is with another program behind. -/
theorem Balanced.obeyedAt_left (hp : p.Balanced) (q : Program) {i : Nat} (hi : i < p.size) :
    ObeyedAt id p (p ++ q) i where
  lt := by
    rw [Array.size_append]
    exact Nat.lt_add_right q.size hi
  symbol := symbolAt?_append_of_lt hi q
  closing h := by
    obtain ⟨j, hj⟩ := hp.exists_closing? h
    have hscan : (p ++ q).closingFrom? (p.size - (i + 1)) 0 (i + 1) = some j :=
      (closingFrom?_append_left p q (by omega)).trans hj
    -- the scan stops in the first program, although it might go on through the second one
    rw [hj]
    exact closingFrom?_prolong hscan (by rw [Array.size_append]; simp only [id]; omega)
  opening _ := by
    rw [Option.map_id_apply]
    exact openingFrom?_append_left p q (Nat.le_of_lt hi)
  succ := rfl
  succ_partner _ _ := rfl

/-- Behind a balanced program, a symbol is obeyed as it is in the second program alone. -/
theorem Balanced.obeyedAt_right (hp : p.Balanced) (q : Program) {i : Nat} (hi : i < q.size) :
    ObeyedAt (p.size + ·) q (p ++ q) i := by
  have hbefore : ∀ depth, (p ++ q).openingFrom? (p.size + 0) depth = none := fun depth =>
    (openingFrom?_append_left p q (Nat.le_refl p.size)).trans (hp.openingFrom?_size depth)
  have hsymbol : ∀ {x}, q.symbolAt? i = some x → ObeyedAt (p.size + ·) q (p ++ q) i :=
    (embeds_right p q).obeyedAt Array.size_append.symm hbefore
  exact {
    lt := by
      rw [Array.size_append]
      exact Nat.add_lt_add_left hi p.size
    symbol := symbolAt?_append_size p q i
    closing := fun h => (hsymbol h).closing h
    opening := fun h => (hsymbol h).opening h
    succ := rfl
    succ_partner := fun _ _ => rfl }

end Program

/-- The error in a program that stands behind so many other positions. -/
def ExecutionError.shift (offset : Nat) : ExecutionError → ExecutionError
  | fault position f => fault (offset + position) f
  | stepLimitExceeded limit => stepLimitExceeded limit

/-- The state on a program that stands behind so many other positions. -/
def State.shift (offset : Nat) (s : State) : State := { s with counter := offset + s.counter }

/-- The progress on a program that stands behind so many other positions. -/
def Progress.shift (offset : Nat) : Progress → Progress
  | halted s => halted (s.shift offset)
  | failed e s => failed (e.shift offset) (s.shift offset)
  | running s => running (s.shift offset)

theorem Progress.state_shift (offset : Nat) (r : Progress) :
    (r.shift offset).state = r.state.shift offset := by
  cases r <;> rfl

namespace State

open Program

variable {p : Program} {s t : State} {n : Nat}

/-! ## The count of steps -/

/-- What a machine does next does not depend on the count, so one step more is counted whatever it
was before. -/
theorem steps_of_step (hs : s.counter < p.size) (h : s.step p = .ok t) :
    t.steps = s.steps + 1 := by
  have hself : p.ObeyedAt id p s.counter :=
    ⟨hs, rfl, fun _ => Option.map_id_apply.symm, fun _ => Option.map_id_apply.symm, rfl,
      fun _ _ => rfl⟩
  have hstep : s.step p = .ok (t.renumber id (s.steps + 1)) := step_renumber_ok hself hs h s.steps
  exact congrArg (·.steps) (Except.ok.inj (h.symm.trans hstep))

/-- A passage counts its steps. -/
theorem steps_of_passage {lo hi : Nat} (h : Passage p lo hi n s t) (hhi : hi ≤ p.size) :
    t.steps = s.steps + n := by
  induction h with
  | refl => rfl
  | step _ hlt hs _ ih =>
    rw [ih, steps_of_step (Nat.lt_of_lt_of_le hlt hhi) hs]
    omega

/-! ## The first program -/

/-- In a balanced program, a step is the same with another program behind. -/
theorem step_append_left (hp : p.Balanced) (q : Program) (hs : s.counter < p.size) :
    s.step (p ++ q) = s.step p := by
  have hobey := hp.obeyedAt_left q hs
  cases h : s.step p with
  | ok t =>
    have hstep := step_renumber_ok hobey hs h s.steps
    rw [← steps_of_step hs h] at hstep
    exact hstep
  | error e =>
    obtain ⟨fault, rfl⟩ := exists_fault_of_step h
    exact step_renumber_error hobey hs h s.steps

/-- Through a balanced program, a passage is the same with another program behind. -/
theorem passage_append_left (hp : p.Balanced) (q : Program) (h : Passage p 0 p.size n s t) :
    Passage (p ++ q) 0 p.size n s t := by
  induction h with
  | refl s => exact .refl s
  | step hlo hhi hs _ ih => exact .step hlo hhi ((step_append_left hp q hhi).trans hs) ih

/-- As long as the first program has not halted, the second one does not matter. -/
theorem run_append_left (hp : p.Balanced) (q : Program) (hs : s.counter ≤ p.size) (n : Nat)
    (h : ∀ t, s.run p none n ≠ .halted t) : s.run (p ++ q) none n = s.run p none n := by
  have hsize : p.size ≤ (p ++ q).size := by simp
  induction n generalizing s with
  | zero =>
    rcases Nat.eq_or_lt_of_le hs with heq | hlt
    · exact absurd (run_of_halted heq 0) (h s)
    · rw [run_zero hlt, run_zero (Nat.lt_of_lt_of_le hlt hsize)]
  | succ n ih =>
    rcases Nat.eq_or_lt_of_le hs with heq | hlt
    · exact absurd (run_of_halted heq (n + 1)) (h s)
    · have hlt' := Nat.lt_of_lt_of_le hlt hsize
      have hstep := step_append_left hp q hlt
      cases hr : s.step p with
      | ok t =>
        rw [run_succ hlt hr] at h ⊢
        rw [run_succ hlt' (hstep.trans hr)]
        exact ih (counter_le_of_step hs hr) h
      | error e => rw [run_of_error hlt hr, run_of_error hlt' (hstep.trans hr)]

/-! ## The second program -/

/-- Behind a balanced program, a run of the second program is the run of that alone, further back. By
induction on the steps, one step after another. -/
theorem run_append_right (hp : p.Balanced) (q : Program) (hs : s.counter ≤ q.size) (n : Nat) :
    (s.shift p.size).run (p ++ q) none n = (s.run q none n).shift p.size := by
  have hsize : (p ++ q).size = p.size + q.size := Array.size_append
  induction n generalizing s with
  | zero =>
    rcases Nat.eq_or_lt_of_le hs with heq | hlt
    · rw [run_of_halted heq, run_of_halted (by rw [hsize, ← heq]; rfl)]
      rfl
    · rw [run_zero hlt, run_zero (by rw [hsize]; exact Nat.add_lt_add_left hlt _)]
      rfl
  | succ n ih =>
    rcases Nat.eq_or_lt_of_le hs with heq | hlt
    · rw [run_of_halted heq, run_of_halted (by rw [hsize, ← heq]; rfl)]
      rfl
    · have hlt' : (s.shift p.size).counter < (p ++ q).size := by
        rw [hsize]
        exact Nat.add_lt_add_left hlt _
      have hobey := hp.obeyedAt_right q hlt
      cases hr : s.step q with
      | ok t =>
        have hstep := step_renumber_ok hobey hlt hr s.steps
        rw [← steps_of_step hlt hr] at hstep
        rw [run_succ hlt hr, run_succ hlt' hstep]
        exact ih (counter_le_of_step hs hr)
      | error e =>
        obtain ⟨fault, rfl⟩ := exists_fault_of_step hr
        have hstep := step_renumber_error hobey hlt hr s.steps
        rw [run_of_error hlt hr, run_of_error hlt' hstep]
        rfl

/-- Once the first program has halted, a run is one of the second program. -/
theorem run_append_of_halted (hp : p.Balanced) (q : Program) (hs : s.counter ≤ p.size)
    (h : s.run p none n = .halted t) : t.counter = p.size ∧ ∃ k, t.steps = s.steps + k ∧
      ∀ m, s.run (p ++ q) none (k + m)
        = (({ t with counter := 0 } : State).run q none m).shift p.size := by
  obtain ⟨k, _, hk, hends⟩ := exists_passage_of_run hs n
  rw [h] at hk hends
  have hcounter : t.counter = p.size := hends
  refine ⟨hcounter, k, steps_of_passage hk (Nat.le_refl _), fun m => ?_⟩
  have ht : t = State.shift p.size { t with counter := 0 } := by
    rw [shift, Nat.add_zero, ← hcounter]
  calc s.run (p ++ q) none (k + m)
      = t.run (p ++ q) none m := run_of_passage (passage_append_left hp q hk) (by simp) m
    _ = (State.shift p.size { t with counter := 0 }).run (p ++ q) none m := by rw [← ht]
    _ = (({ t with counter := 0 } : State).run q none m).shift p.size :=
        run_append_right hp q (Nat.zero_le _) m

/-- A balanced text runs as if nothing were behind it, and the text behind it then runs as if
nothing were before it, but for the positions that it tells. -/
theorem run_text_append (p q : String) (hp : (ofText p).Balanced) (inputs : List Cell) :
    (∀ n e s, (start inputs).run (ofText p) none n = .failed e s →
      (start inputs).run (ofText (p ++ q)) none n = .failed e s) ∧
    (∀ n s, (start inputs).run (ofText p) none n = .running s →
      (start inputs).run (ofText (p ++ q)) none n = .running s) ∧
    ∀ n s, (start inputs).run (ofText p) none n = .halted s →
      s.counter = p.utf8ByteSize ∧
      ((start inputs).run (ofText (p ++ q)) none s.steps).state = s ∧
      ∀ m, (start inputs).run (ofText (p ++ q)) none (s.steps + m)
        = (({ s with counter := 0 } : State).run (ofText q) none m).shift p.utf8ByteSize := by
  have hstart : (start inputs).counter ≤ (ofText p).size := Nat.zero_le _
  have hleft := run_append_left hp (ofText q) hstart
  rw [ofText_append]
  refine ⟨fun n e s h => ?_, fun n s h => ?_, fun n s h => ?_⟩
  · rw [hleft n (by simp [h]), h]
  · rw [hleft n (by simp [h]), h]
  · obtain ⟨hcounter, k, hsteps, hrun⟩ := run_append_of_halted hp (ofText q) hstart h
    obtain rfl : s.steps = k := hsteps.trans (Nat.zero_add k)
    refine ⟨hcounter, ?_, hrun⟩
    -- no step of the second text is done yet
    calc ((start inputs).run (ofText p ++ ofText q) none s.steps).state
        = (({ s with counter := 0 } : State).run (ofText q) none 0).state.shift p.utf8ByteSize := by
          rw [← Progress.state_shift]
          exact congrArg Progress.state (hrun 0)
      _ = s := by
          rw [state_run_zero, shift, Nat.add_zero, ← size_ofText, ← hcounter]

/-- The end of a loop in the second text finds no start, and the error tells its position in both. -/
theorem run_text_append_unmatched :
    (start []).run (ofText "+[-]+") none 9
      = .halted { tape := ⟨[], 1, []⟩, counter := 5, steps := 5 } ∧
    (start []).run (ofText ("+[-]+" ++ "]")) none (5 + 1)
      = .failed (.fault 5 .unmatchedBracket) { tape := ⟨[], 1, []⟩, counter := 5, steps := 5 } := by
  have hhalted : (start []).run (ofText "+[-]+") none 9
      = .halted { tape := ⟨[], 1, []⟩, counter := 5, steps := 5 } := by decide +kernel
  obtain ⟨_, _, hrun⟩ := (run_text_append "+[-]+" "]" (by decide +kernel) []).2.2 9 _ hhalted
  exact ⟨hhalted, (hrun 1).trans (by decide +kernel)⟩

end State

end TapeLowering
