import TapeLowering.Proofs.Ensures

/-!
# What commands fail with

`Command.Fails` says that some commands fail, and with which fault. A failure breaks off all commands
that have the failing ones in them, wherever these come to run. A loop fails if one of its rounds does:
until then, every round leaves it with one round less (`fails_loop`).
-/

namespace TapeLowering

open Outcome

namespace Command

variable {cs ds : List Command} {s : Store} {fault : Fault}

/-- With enough fuel the commands fail. -/
def Fails (cs : List Command) (s : Store) (fault : Fault) : Prop :=
  ∃ fuel t, runAll fuel cs s = .failed fault t

/-- A failure breaks off whatever follows. -/
theorem breaks_fails (fault : Fault) : Breaks fun cs s => Fails cs s fault where
  append := by
    rintro cs ds s ⟨n, t, ht, m, u, hu⟩
    exact ⟨max n m, u, (runAll_append_of_done ht (by simp [hu])).trans hu⟩
  scope := by
    rintro body s ⟨fuel, t, ht⟩
    exact ⟨fuel, t, (runAll_scope fuel body s).trans ht⟩
  append_left := by
    rintro cs ds s ⟨fuel, t, ht⟩
    exact ⟨fuel, t, by rw [runAll_append, ht, andThen_failed]⟩

/-- A command whose failure does not depend on fuel, and which has not changed anything before. -/
theorem fails_of_run {c : Command} (h : ∀ fuel, c.run fuel s = .failed fault s) :
    Fails [c] s fault :=
  ⟨0, s, by simp only [runAll, h, andThen_failed]⟩

/-! ## Loops -/

variable {x : Slot} {body : List Command}

/-- A loop fails if the first round of its body does. -/
theorem Fails.loop_of_round (h : s.get x ≠ 0) (hround : Fails body s fault) :
    Fails [.loop x body] s fault := by
  obtain ⟨n, t, ht⟩ := hround
  have hfirst : runAll (n + 1) body s = .failed fault t :=
    (growing_runAll body s).failed ht (Nat.le_succ n)
  refine ⟨n + 1, t, ?_⟩
  rw [runAll_loop, repeatWhile_succ_of_test (by simp [h]), hfirst, andThen_failed]

/-- A loop fails if it does so behind the first round. -/
theorem Fails.loop_of_rest (h : s.get x ≠ 0)
    (hrest : Ensures body s fun t => Fails [.loop x body] t fault) :
    Fails [.loop x body] s fault := by
  obtain ⟨n, t, ht, m, u, hu⟩ := hrest
  exact ⟨max n m + 1, u, (runAll_loop_of_done h ht (by simp [hu])).trans hu⟩

/-- A loop fails if every round fails or leaves it with one round less, and none of them is the
last. -/
theorem fails_loop {P : Nat → Store → Prop} (hstop : ∀ s, ¬ P 0 s)
    (hround : ∀ n s, P (n + 1) s → s.get x ≠ 0 ∧ (Ensures body s (P n) ∨ Fails body s fault))
    {n : Nat} (h : P n s) : Fails [.loop x body] s fault := by
  induction n generalizing s with
  | zero => exact absurd h (hstop s)
  | succ n ih =>
    obtain ⟨hne, hdone | hfails⟩ := hround n s h
    · exact .loop_of_rest hne (hdone.mono fun t ht => ih ht)
    · exact .loop_of_round hne hfails

end Command

namespace Routine

open Command

variable {depth : Nat} {s : Store} {x y : Slot}

/-! ## Branches -/

/-- A branch fails if its condition is not zero and its body fails. -/
theorem fails_branch_of_ne_zero {r : Routine} {fault : Fault} (h : s.get x ≠ 0)
    (hbody : Fails (r.commands depth) s fault) : Fails ((branch x r).commands depth) s fault := by
  obtain ⟨fuel, t, ht⟩ := hbody
  refine ⟨fuel, t, ?_⟩
  simp only [branch, runAll, run, if_neg h, ht, andThen_failed]

/-! ## Moves -/

/-- A transfer overflows the destination that has no room for the sum. -/
theorem fails_transfer (h : 0x10000000000000000 ≤ (s.get x).toNat + (s.get y).toNat) :
    Fails ((transfer x y).commands depth) s (.cellOverflow y.index) := by
  refine fails_of_run fun _ => ?_
  rw [run, Store.transfer, if_neg (Nat.not_lt.mpr h)]

/-- A deduction takes from zero if the destination holds less than the source. -/
theorem fails_deduct (h : s.get y < s.get x) :
    Fails ((deduct x y).commands depth) s (.decrementOfZero y.index) := by
  refine fails_of_run fun _ => ?_
  rw [run, Store.deduct, if_neg (UInt64.not_le.mpr h)]

end Routine

end TapeLowering
