import TapeLowering.Fault

/-!
# Outcomes

The outcome of a computation on states that may fail, and that may go on forever. A computation is
given fuel, and only a loop uses it up: what is `unfinished` with every amount of fuel never ends.
A failure keeps the state in which it happened.
-/

namespace TapeLowering

/-- How a computation on `σ` ends. -/
inductive Outcome (σ : Type) where
  /-- It ends in a state. -/
  | done (state : σ)
  /-- It fails in a state. -/
  | failed (fault : Fault) (state : σ)
  /-- It has not ended within its fuel. -/
  | unfinished
  deriving Repr, DecidableEq

namespace Outcome

variable {σ : Type}

/-- Goes on after a computation that ends in a state. -/
def andThen (o : Outcome σ) (next : σ → Outcome σ) : Outcome σ :=
  match o with
  | done s => next s
  | failed f s => failed f s
  | unfinished => unfinished

/-- The outcome of a single action in a state. -/
def ofExcept (s : σ) : Except Fault σ → Outcome σ
  | .ok next => done next
  | .error f => failed f s

/-- Repeats a computation a number of times. -/
def times (step : σ → Outcome σ) : Nat → σ → Outcome σ
  | 0, s => done s
  | n + 1, s => (step s).andThen (times step n)

/-- Repeats a computation while a test holds, at most `fuel` times. -/
def repeatWhile (test : σ → Bool) (body : σ → Outcome σ) (fuel : Nat) (s : σ) : Outcome σ :=
  if test s then
    match fuel with
    | 0 => unfinished
    | fuel + 1 => (body s).andThen (repeatWhile test body fuel)
  else done s

@[simp] theorem andThen_done (s : σ) (next : σ → Outcome σ) : (done s).andThen next = next s := rfl

@[simp] theorem andThen_failed (f : Fault) (s : σ) (next : σ → Outcome σ) :
    (failed f s).andThen next = failed f s := rfl

@[simp] theorem andThen_unfinished (next : σ → Outcome σ) :
    (unfinished : Outcome σ).andThen next = unfinished := rfl

/-- Of three computations it does not matter which two are put together first. -/
theorem andThen_assoc (o : Outcome σ) (f g : σ → Outcome σ) :
    (o.andThen f).andThen g = o.andThen fun s => (f s).andThen g := by
  cases o <;> rfl

/-- A loop whose test does not hold at its start is done there. -/
theorem repeatWhile_of_not {test : σ → Bool} {s : σ} (h : test s = false) (body : σ → Outcome σ)
    (fuel : Nat) : repeatWhile test body fuel s = done s := by
  unfold repeatWhile
  simp [h]

/-- A round is due, and there is no fuel for it. -/
theorem repeatWhile_zero_of_test {test : σ → Bool} {s : σ} (h : test s = true)
    (body : σ → Outcome σ) : repeatWhile test body 0 s = unfinished := by
  unfold repeatWhile
  simp [h]

/-- A loop whose test holds does a round, and goes on with less fuel. -/
theorem repeatWhile_succ_of_test {test : σ → Bool} {s : σ} (h : test s = true)
    (body : σ → Outcome σ) (fuel : Nat) :
    repeatWhile test body (fuel + 1) s = (body s).andThen (repeatWhile test body fuel) := by
  conv => lhs; unfold repeatWhile
  simp [h]

/-- A round that is unfinished is the last one. -/
theorem repeatWhile_of_unfinished {test : σ → Bool} {s : σ} (h : test s = true)
    {body : σ → Outcome σ} (hbody : body s = unfinished) (fuel : Nat) :
    repeatWhile test body fuel s = unfinished := by
  cases fuel with
  | zero => exact repeatWhile_zero_of_test h body
  | succ fuel => rw [repeatWhile_succ_of_test h, hbody, andThen_unfinished]

end Outcome

end TapeLowering
