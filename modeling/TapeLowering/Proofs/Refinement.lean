import TapeLowering.Code.Meaning

/-!
# Refinement of outcomes

A computation is given by its outcomes for all amounts of fuel. `Growing` says that fuel only decides
whether an outcome is known: one that is known stays the same with more fuel.

`Refines` says that one computation does what another one says: it is done or fails whenever the other
one is or does, perhaps with more fuel, and it is unfinished whenever the other one is. The last part
compares the two fuel by fuel. That is what makes it pass through a loop, whose every round is given
the same fuel; for all amounts of fuel together it says that what never ends is refined by what never
ends.
-/

namespace TapeLowering

namespace Outcome

variable {σ τ υ : Type}

@[simp] theorem andThen_done_right (o : Outcome σ) : o.andThen .done = o := by
  cases o <;> rfl

theorem times_one (step : σ → Outcome σ) : times step 1 = step := by
  funext s
  exact andThen_done_right (step s)

/-! ## Fuel -/

/-- An outcome that is known is the same with more fuel. -/
def Growing (f : Nat → Outcome σ) : Prop := ∀ n m, n ≤ m → f n ≠ .unfinished → f m = f n

theorem growing_const (o : Outcome σ) : Growing fun _ => o := fun _ _ _ _ => rfl

namespace Growing

variable {f : Nat → Outcome σ}

/-- A computation that is done stays so with more fuel. -/
theorem done (hf : Growing f) {n m : Nat} {s : σ} (h : f n = .done s) (hle : n ≤ m) :
    f m = .done s := by
  rw [hf n m hle (by simp [h]), h]

/-- A computation that has failed stays so with more fuel. -/
theorem failed (hf : Growing f) {n m : Nat} {fault : Fault} {s : σ} (h : f n = .failed fault s)
    (hle : n ≤ m) : f m = .failed fault s := by
  rw [hf n m hle (by simp [h]), h]

/-- Two known outcomes are the same. -/
theorem unique (hf : Growing f) {n m : Nat} (hn : f n ≠ .unfinished) (hm : f m ≠ .unfinished) :
    f n = f m := by
  rcases Nat.le_total n m with hle | hle
  · exact (hf n m hle hn).symm
  · exact hf m n hle hm

/-- Two computations in a row grow with the fuel of both. -/
theorem andThen (hf : Growing f) {g : Nat → σ → Outcome σ} (hg : ∀ s, Growing fun n => g n s) :
    Growing fun n => (f n).andThen (g n) := by
  intro n m hle hne
  cases h : f n with
  | done s =>
    simp only [h, andThen_done] at hne
    simp only [hf.done h hle, h, andThen_done]
    exact hg s n m hle hne
  | failed fault s => simp only [hf.failed h hle, h, andThen_failed]
  | unfinished => simp [h] at hne

/-- Once a computation is done, what is known of the next one is known of both. -/
theorem andThen_of_done (hf : Growing f) {g : Nat → σ → Outcome σ}
    (hg : ∀ s, Growing fun n => g n s) {n m : Nat} {s : σ} (hs : f n = .done s)
    (hne : g m s ≠ .unfinished) : (f (max n m)).andThen (g (max n m)) = g m s := by
  rw [hf.done hs (Nat.le_max_left n m), andThen_done]
  exact hg s m _ (Nat.le_max_right n m) hne

end Growing

/-- The rounds of a loop and the fuel of each round may grow apart. -/
theorem growing_rounds {test : σ → Bool} {body : Nat → σ → Outcome σ}
    (hbody : ∀ s, Growing fun n => body n s) {n m : Nat} (hle : n ≤ m) {k j : Nat} (hkj : k ≤ j)
    (s : σ) (hne : repeatWhile test (body n) k s ≠ .unfinished) :
    repeatWhile test (body m) j s = repeatWhile test (body n) k s := by
  -- by induction on the smaller number of rounds, with the greater one ahead all the time
  induction k generalizing j s with
  | zero =>
    cases ht : test s with
    | false => rw [repeatWhile_of_not ht, repeatWhile_of_not ht]
    | true =>
      exact absurd (repeatWhile_zero_of_test ht (body n)) hne
  | succ k ih =>
    cases ht : test s with
    | false => rw [repeatWhile_of_not ht, repeatWhile_of_not ht]
    | true =>
      obtain ⟨j, rfl⟩ : ∃ i, j = i + 1 := ⟨j - 1, by omega⟩
      rw [repeatWhile_succ_of_test ht] at hne
      rw [repeatWhile_succ_of_test ht, repeatWhile_succ_of_test ht]
      cases h : body n s with
      | done t =>
        rw [h] at hne
        rw [(hbody s).done h hle]
        exact ih (by omega) t hne
      | failed fault t => rw [(hbody s).failed h hle, andThen_failed, andThen_failed]
      | unfinished => simp [h] at hne

/-- A loop grows with the fuel of its rounds, and with the number of rounds that the fuel allows. -/
theorem growing_repeatWhile (test : σ → Bool) {body : Nat → σ → Outcome σ}
    (hbody : ∀ s, Growing fun n => body n s) (s : σ) :
    Growing fun n => repeatWhile test (body n) n s :=
  fun _ _ hle hne => growing_rounds hbody hle hle s hne

/-- Once a round is done, what is known of the rest of a loop is known of the loop. -/
theorem repeatWhile_of_done {test : σ → Bool} {body : Nat → σ → Outcome σ}
    (hbody : ∀ s, Growing fun n => body n s) {n m : Nat} {s t : σ} (hs : test s = true)
    (ht : body n s = .done t) (hne : repeatWhile test (body m) m t ≠ .unfinished) :
    repeatWhile test (body (max n m + 1)) (max n m + 1) s = repeatWhile test (body m) m t := by
  have hfirst : body (max n m + 1) s = .done t := (hbody s).done ht (by omega)
  rw [repeatWhile_succ_of_test hs, hfirst, andThen_done]
  exact growing_rounds hbody (by omega) (Nat.le_max_right n m) t hne

end Outcome

open Outcome

mutual

/-- With more fuel, an instruction does the same unless it was unfinished. -/
theorem Instruction.growing_run (i : Instruction) (w : Workspace) :
    Growing fun fuel => i.run fuel w := by
  cases i with
  | right | add | read | write => exact growing_const _
  | loop body => exact growing_repeatWhile _ (Code.growing_run body) w

/-- With more fuel, code that has ended ends in the same way. -/
theorem Code.growing_run (c : Code) (w : Workspace) : Growing fun fuel => Code.run fuel c w := by
  match c with
  | [] => exact growing_const _
  | i :: rest => exact (Instruction.growing_run i w).andThen (Code.growing_run rest)

end

namespace Outcome

/-! ## Refinement -/

variable {R F : σ → τ → Prop}

/-- Two outcomes are known and of the same kind: the states are related by `R` where both are done,
and by `F` where both fail. -/
def Matches (R F : σ → τ → Prop) : Outcome σ → Outcome τ → Prop
  | done s, done t => R s t
  | failed fault s, failed fault' t => fault = fault' ∧ F s t
  | _, _ => False

/-- What matches a computation that is done is done. -/
theorem matches_done_iff {s : σ} {o : Outcome τ} :
    Matches R F (.done s) o ↔ ∃ t, o = .done t ∧ R s t := by
  cases o <;> simp [Matches]

/-- What matches a computation that has failed has failed, with the same fault. -/
theorem matches_failed_iff {fault : Fault} {s : σ} {o : Outcome τ} :
    Matches R F (.failed fault s) o ↔ ∃ t, o = .failed fault t ∧ F s t := by
  cases o <;> simp [Matches, eq_comm, and_assoc]

theorem Matches.known {o : Outcome σ} {o' : Outcome τ} (h : Matches R F o o') :
    o ≠ .unfinished ∧ o' ≠ .unfinished := by
  cases o <;> cases o' <;> simp_all [Matches]

/-- The second computation does what the first one says. -/
structure Refines (R F : σ → τ → Prop) (f : Nat → Outcome σ) (g : Nat → Outcome τ) : Prop where
  /-- What is known of the first one is known of the second one, with some fuel. -/
  known (n : Nat) : f n ≠ .unfinished → ∃ m, Matches R F (f n) (g m)
  /-- The second one has not ended earlier than the first one. -/
  unfinished (n : Nat) : f n = .unfinished → g n = .unfinished

/-- Outcomes that match refine each other, whatever the fuel. -/
theorem Matches.refines {o : Outcome σ} {o' : Outcome τ} (h : Matches R F o o') :
    Refines R F (fun _ => o) (fun _ => o') where
  known _ _ := ⟨0, h⟩
  unfinished _ ho := absurd ho h.known.1

namespace Refines

variable {f : Nat → Outcome σ} {g : Nat → Outcome τ}

/-- What is known of the second computation is known of the first one with the same fuel. -/
theorem matches_of_known (h : Refines R F f g) (hg : Growing g) {n : Nat}
    (hn : g n ≠ .unfinished) : Matches R F (f n) (g n) := by
  have hf : f n ≠ .unfinished := fun hf => hn (h.unfinished n hf)
  obtain ⟨m, hm⟩ := h.known n hf
  rwa [hg.unique hn hm.known.2]

/-- Refinement passes through two computations in a row. -/
theorem andThen (h : Refines R F f g) (hg : Growing g) {R' : σ → τ → Prop}
    {f' : Nat → σ → Outcome σ} {g' : Nat → τ → Outcome τ} (hg' : ∀ t, Growing fun n => g' n t)
    (hnext : ∀ s t, R s t → Refines R' F (fun n => f' n s) (fun n => g' n t)) :
    Refines R' F (fun n => (f n).andThen (f' n)) (fun n => (g n).andThen (g' n)) where
  known n hne := by
    cases hf : f n with
    | done s =>
      obtain ⟨m, hm⟩ := h.known n (by simp [hf])
      obtain ⟨t, ht, hR⟩ := matches_done_iff.mp (hf ▸ hm)
      simp only [hf, andThen_done] at hne
      obtain ⟨k, hk⟩ := (hnext s t hR).known n hne
      -- both parts are known with the greater amount of fuel
      have hk' : g' (max m k) t = g' k t := hg' t k (max m k) (Nat.le_max_right m k) hk.known.2
      exact ⟨max m k, by rwa [hg.done ht (Nat.le_max_left m k), andThen_done, andThen_done, hk']⟩
    | failed fault s =>
      obtain ⟨m, hm⟩ := h.known n (by simp [hf])
      obtain ⟨t, ht, hF⟩ := matches_failed_iff.mp (hf ▸ hm)
      exact ⟨m, by rw [ht]; exact ⟨rfl, hF⟩⟩
    | unfinished => simp [hf] at hne
  unfinished n hs := by
    by_cases hgn : g n = .unfinished
    · simp only [hgn, andThen_unfinished]
    · have hn := h.matches_of_known hg hgn
      cases hf : f n with
      | done s =>
        obtain ⟨t, ht, hR⟩ := matches_done_iff.mp (hf ▸ hn)
        simp only [hf, andThen_done] at hs
        simp only [ht, andThen_done]
        exact (hnext s t hR).unfinished n hs
      | failed fault s => simp [hf] at hs
      | unfinished => exact absurd hf hn.known.1

section Loop

variable {test : σ → Bool} {test' : τ → Bool} {f : Nat → σ → Outcome σ} {g : Nat → τ → Outcome τ}

/-- What is known of some rounds is known of some rounds of the loop that refines them. -/
theorem exists_rounds (hg : ∀ t, Growing fun n => g n t) (htest : ∀ s t, R s t → test s = test' t)
    (hbody : ∀ s t, R s t → Refines R F (fun n => f n s) (fun n => g n t)) (n : Nat) {k : Nat}
    {s : σ} {t : τ} (hst : R s t) (hne : Outcome.repeatWhile test (f n) k s ≠ .unfinished) :
    ∃ m, Matches R F (.repeatWhile test (f n) k s) (.repeatWhile test' (g m) m t) := by
  induction k generalizing s t with
  | zero =>
    cases ht : test s with
    | false =>
      rw [repeatWhile_of_not ht]
      exact ⟨0, by rwa [repeatWhile_of_not (htest s t hst ▸ ht)]⟩
    | true =>
      exact absurd (repeatWhile_zero_of_test ht (f n)) hne
  | succ k ih =>
    cases ht : test s with
    | false =>
      rw [repeatWhile_of_not ht]
      exact ⟨0, by rwa [repeatWhile_of_not (htest s t hst ▸ ht)]⟩
    | true =>
      have ht' := htest s t hst ▸ ht
      rw [repeatWhile_succ_of_test ht] at hne ⊢
      have hround : f n s ≠ .unfinished := fun hf => by simp [hf] at hne
      obtain ⟨m, hm⟩ := (hbody s t hst).known n hround
      cases hf : f n s with
      | done s₁ =>
        obtain ⟨t₁, ht₁, hR⟩ := matches_done_iff.mp (hf ▸ hm)
        rw [hf, andThen_done] at hne
        obtain ⟨j, hj⟩ := ih hR hne
        -- one amount of fuel for this round and for all the others
        refine ⟨max m j + 1, ?_⟩
        rw [repeatWhile_succ_of_test ht', (hg t).done ht₁ (by omega), andThen_done, andThen_done,
          growing_rounds hg (show j ≤ max m j + 1 by omega) (Nat.le_max_right m j) t₁ hj.known.2]
        exact hj
      | failed fault s₁ =>
        obtain ⟨t₁, ht₁, hF⟩ := matches_failed_iff.mp (hf ▸ hm)
        refine ⟨m + 1, ?_⟩
        rw [repeatWhile_succ_of_test ht', (hg t).failed ht₁ (Nat.le_succ m)]
        exact ⟨rfl, hF⟩
      | unfinished => exact absurd hf hround

/-- Of two loops whose rounds refine each other, the second one is unfinished if the first one is, with
the same fuel and the same number of rounds. By induction on that number. -/
theorem rounds_unfinished (hg : ∀ t, Growing fun n => g n t)
    (htest : ∀ s t, R s t → test s = test' t)
    (hbody : ∀ s t, R s t → Refines R F (fun n => f n s) (fun n => g n t)) (n : Nat) {k : Nat}
    {s : σ} {t : τ} (hst : R s t) (hs : Outcome.repeatWhile test (f n) k s = .unfinished) :
    Outcome.repeatWhile test' (g n) k t = .unfinished := by
  induction k generalizing s t with
  | zero =>
    cases ht : test s with
    | false => simp [repeatWhile_of_not ht] at hs
    | true =>
      exact repeatWhile_zero_of_test (htest s t hst ▸ ht) (g n)
  | succ k ih =>
    cases ht : test s with
    | false => simp [repeatWhile_of_not ht] at hs
    | true =>
      rw [repeatWhile_succ_of_test ht] at hs
      rw [repeatWhile_succ_of_test (htest s t hst ▸ ht)]
      -- a round that is unfinished on one side is so on the other, with the same fuel
      by_cases hgn : g n t = .unfinished
      · rw [hgn, andThen_unfinished]
      · have hn := (hbody s t hst).matches_of_known (hg t) hgn
        cases hf : f n s with
        | done s₁ =>
          obtain ⟨t₁, ht₁, hR⟩ := matches_done_iff.mp (hf ▸ hn)
          rw [hf, andThen_done] at hs
          rw [ht₁, andThen_done]
          exact ih hR hs
        | failed fault s₁ => simp [hf] at hs
        | unfinished => exact absurd hf hn.known.1

/-- A loop is refined by a loop with the same test whose rounds refine its own. -/
theorem repeatWhile (hg : ∀ t, Growing fun n => g n t) (htest : ∀ s t, R s t → test s = test' t)
    (hbody : ∀ s t, R s t → Refines R F (fun n => f n s) (fun n => g n t)) {s : σ} {t : τ}
    (hst : R s t) : Refines R F (fun n => .repeatWhile test (f n) n s)
      (fun n => .repeatWhile test' (g n) n t) where
  known n := exists_rounds hg htest hbody n hst
  unfinished n := rounds_unfinished hg htest hbody n hst

end Loop

/-- A refinement of a refinement is one, by what the two relations come to together. -/
theorem trans {S G : τ → υ → Prop} {T H : σ → υ → Prop} {h : Nat → Outcome υ}
    (hfg : Refines R F f g) (hgh : Refines S G g h) (hT : ∀ s t u, R s t → S t u → T s u)
    (hH : ∀ s t u, F s t → G t u → H s u) : Refines T H f h where
  known n hn := by
    obtain ⟨m, hm⟩ := hfg.known n hn
    obtain ⟨k, hk⟩ := hgh.known m hm.known.2
    refine ⟨k, ?_⟩
    cases hf : f n with
    | done s =>
      obtain ⟨t, ht, hR⟩ := matches_done_iff.mp (hf ▸ hm)
      obtain ⟨u, hu, hS⟩ := matches_done_iff.mp (ht ▸ hk)
      exact matches_done_iff.mpr ⟨u, hu, hT s t u hR hS⟩
    | failed fault s =>
      obtain ⟨t, ht, hF⟩ := matches_failed_iff.mp (hf ▸ hm)
      obtain ⟨u, hu, hG⟩ := matches_failed_iff.mp (ht ▸ hk)
      exact matches_failed_iff.mpr ⟨u, hu, hH s t u hF hG⟩
    | unfinished => exact absurd hf hn
  unfinished n hf := hgh.unfinished n (hfg.unfinished n hf)

/-! ### Both ways -/

/-- What is known of outcomes that match is true of both computations with some fuel, or of neither. -/
theorem exists_iff_of_matches (h : Refines R F f g) (hg : Growing g) {P : Outcome σ → Prop}
    {Q : Outcome τ → Prop} (hP : ¬ P .unfinished) (hQ : ¬ Q .unfinished)
    (hPQ : ∀ o o', Matches R F o o' → (P o ↔ Q o')) : (∃ n, P (f n)) ↔ ∃ n, Q (g n) := by
  constructor
  · rintro ⟨n, hn⟩
    obtain ⟨m, hm⟩ := h.known n fun hf => hP (hf ▸ hn)
    exact ⟨m, (hPQ _ _ hm).mp hn⟩
  · rintro ⟨n, hn⟩
    have hmatches := h.matches_of_known hg fun hgn => hQ (hgn ▸ hn)
    exact ⟨n, (hPQ _ _ hmatches).mpr hn⟩

/-- Of two computations that refine each other, one is done with some fuel if and only if the other one
is, and what corresponds holds then. -/
theorem exists_done_iff (h : Refines R F f g) (hg : Growing g) {P : σ → Prop} {Q : τ → Prop}
    (hPQ : ∀ s t, R s t → (P s ↔ Q t)) :
    (∃ n s, f n = .done s ∧ P s) ↔ ∃ n t, g n = .done t ∧ Q t := by
  refine h.exists_iff_of_matches hg (P := fun o => ∃ s, o = .done s ∧ P s)
    (Q := fun o => ∃ t, o = .done t ∧ Q t) (by simp) (by simp) fun o o' ho => ?_
  constructor
  · rintro ⟨s, rfl, hs⟩
    obtain ⟨t, rfl, hR⟩ := matches_done_iff.mp ho
    exact ⟨t, rfl, (hPQ s t hR).mp hs⟩
  · rintro ⟨t, rfl, ht⟩
    cases o with
    | done s => exact ⟨s, rfl, (hPQ s t ho).mpr ht⟩
    | failed | unfinished => cases ho

/-- Of two computations that refine each other, one fails with some fuel if and only if the other one
does, and what corresponds holds then. -/
theorem exists_failed_iff (h : Refines R F f g) (hg : Growing g) {P : σ → Prop} {Q : τ → Prop}
    (hPQ : ∀ s t, F s t → (P s ↔ Q t)) (fault : Fault) :
    (∃ n s, f n = .failed fault s ∧ P s) ↔ ∃ n t, g n = .failed fault t ∧ Q t := by
  refine h.exists_iff_of_matches hg (P := fun o => ∃ s, o = .failed fault s ∧ P s)
    (Q := fun o => ∃ t, o = .failed fault t ∧ Q t) (by simp) (by simp) fun o o' ho => ?_
  constructor
  · rintro ⟨s, rfl, hs⟩
    obtain ⟨t, rfl, hF⟩ := matches_failed_iff.mp ho
    exact ⟨t, rfl, (hPQ s t hF).mp hs⟩
  · rintro ⟨t, rfl, ht⟩
    cases o with
    | failed fault' s =>
      obtain ⟨rfl, hF⟩ := ho
      exact ⟨s, rfl, (hPQ s t hF).mpr ht⟩
    | done | unfinished => cases ho

/-- Of two computations that refine each other, one goes on forever if and only if the other one
does. -/
theorem unfinished_iff (h : Refines R F f g) :
    (∀ n, f n = .unfinished) ↔ ∀ n, g n = .unfinished := by
  constructor
  · exact fun hf n => h.unfinished n (hf n)
  · intro hgn n
    apply Classical.byContradiction
    intro hf
    obtain ⟨m, hm⟩ := h.known n hf
    exact hm.known.2 (hgn m)

end Refines

end Outcome

end TapeLowering
