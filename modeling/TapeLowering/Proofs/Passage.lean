import TapeLowering.Machine.Run
import TapeLowering.Proofs.Brackets

/-!
# Passages

A passage is a run through a stretch of the program: some number of steps, each of which starts at
a position of the stretch. It may end at any position, in particular where it leaves the stretch.

A machine has one next state only, so two passages from the same state go the same way for as long
as both last (`Passage.prolong`). The first state outside of the stretch, a state that fails in it,
and staying in it forever therefore exclude each other.
-/

namespace TapeLowering

namespace State

variable {p : Program}

/-! ## One step, by the symbol under the counter -/

/-- Within the program, a step obeys the symbol under the counter and advances. -/
theorem step_of_lt {s : State} (h : s.counter < p.size) :
    s.step p = match s.obey p (p.symbolAt? s.counter) with
      | .ok t => .ok t.advance
      | .error fault => .error (.fault s.counter fault) := by
  rw [step, Program.symbolAt?, Array.getElem?_eq_getElem h]
  rfl

/-- A step succeeds if the symbol is obeyed. -/
theorem step_eq_ok_iff {s t : State} (h : s.counter < p.size) :
    s.step p = .ok t ↔ ∃ u, s.obey p (p.symbolAt? s.counter) = .ok u ∧ u.advance = t := by
  rw [step_of_lt h]
  cases s.obey p (p.symbolAt? s.counter) <;> simp

/-- A step fails if the symbol is not obeyed, with the fault at the counter. -/
theorem step_eq_error_iff {s : State} {e : ExecutionError} (h : s.counter < p.size) :
    s.step p = .error e ↔
      ∃ fault, s.obey p (p.symbolAt? s.counter) = .error fault ∧ .fault s.counter fault = e := by
  rw [step_of_lt h]
  cases s.obey p (p.symbolAt? s.counter) <;> simp

theorem step_of_obey_ok {s t : State} {x : Symbol} (h : p.symbolAt? s.counter = some x)
    (ht : s.obey p (some x) = .ok t) : s.step p = .ok t.advance :=
  (step_eq_ok_iff (Program.lt_size_of_symbolAt? h)).mpr ⟨t, by rwa [h], rfl⟩

theorem step_of_obey_error {s : State} {x : Symbol} {fault : Fault}
    (h : p.symbolAt? s.counter = some x) (hf : s.obey p (some x) = .error fault) :
    s.step p = .error (.fault s.counter fault) :=
  (step_eq_error_iff (Program.lt_size_of_symbolAt? h)).mpr ⟨fault, by rwa [h], rfl⟩

theorem step_act_ok {s : State} {a : Action} (h : p.symbolAt? s.counter = some (.act a))
    {w : Workspace} (hw : s.toWorkspace.perform a = .ok w) :
    s.step p = .ok (s.withWorkspace w).advance :=
  step_of_obey_ok h (by rw [obey, hw]; rfl)

theorem step_act_error {s : State} {a : Action} (h : p.symbolAt? s.counter = some (.act a))
    {fault : Fault} (hf : s.toWorkspace.perform a = .error fault) :
    s.step p = .error (.fault s.counter fault) :=
  step_of_obey_error h (by rw [obey, hf]; rfl)

/-- On a cell that is not zero, the body of a loop is entered. -/
theorem step_enter {s : State} (h : p.symbolAt? s.counter = some .loopStart)
    (hz : s.isZero = false) : s.step p = .ok s.advance :=
  step_of_obey_ok h (by rw [obey, hz]; rfl)

/-- On a zero cell, a loop is left out. -/
theorem step_skip {s : State} (h : p.symbolAt? s.counter = some .loopStart) (hz : s.isZero = true)
    {finish : Nat} (hf : p.closing? s.counter = some finish) :
    s.step p = .ok { s with counter := finish }.advance :=
  step_of_obey_ok h (by rw [obey, hz, hf]; rfl)

/-- On a zero cell, the body of a loop is not repeated. -/
theorem step_leave {s : State} (h : p.symbolAt? s.counter = some .loopEnd)
    (hz : s.isZero = true) : s.step p = .ok s.advance :=
  step_of_obey_ok h (by rw [obey, hz]; rfl)

/-- On a cell that is not zero, a machine goes from the end of a loop to behind its start. -/
theorem step_repeat {s : State} (h : p.symbolAt? s.counter = some .loopEnd) (hz : s.isZero = false)
    {start : Nat} (hs : p.opening? s.counter = some start) :
    s.step p = .ok { s with counter := start }.advance :=
  step_of_obey_ok h (by rw [obey, hz, hs]; rfl)

/-- A symbol that is obeyed is an action that succeeds, or a bracket that jumps to its partner. Comments and
all other brackets change nothing. -/
theorem obey_eq_ok {s t : State} {x : Option Symbol} (h : s.obey p x = .ok t) :
    ((∀ a, x ≠ some (.act a)) ∧ t = s) ∨
    (∃ a w, x = some (.act a) ∧ s.toWorkspace.perform a = .ok w ∧ t = s.withWorkspace w) ∨
    ∃ j, (x = some .loopStart ∧ p.closing? s.counter = some j ∨
      x = some .loopEnd ∧ p.opening? s.counter = some j) ∧ t = { s with counter := j } := by
  have hjump : ∀ {target}, s.jump target = .ok t →
      ∃ j, target = some j ∧ t = { s with counter := j } := by
    intro target h
    cases target <;> cases h
    exact ⟨_, rfl, rfl⟩
  match x with
  | none => exact .inl ⟨nofun, (Except.ok.inj h).symm⟩
  | some (.act a) =>
    rw [obey] at h
    cases hw : s.toWorkspace.perform a <;> simp [hw, Except.map] at h
    exact .inr (.inl ⟨a, _, rfl, hw, h.symm⟩)
  | some .loopStart =>
    rw [obey] at h
    split at h
    · obtain ⟨j, hj, ht⟩ := hjump h
      exact .inr (.inr ⟨j, .inl ⟨rfl, hj⟩, ht⟩)
    · exact .inl ⟨nofun, (Except.ok.inj h).symm⟩
  | some .loopEnd =>
    rw [obey] at h
    split at h
    · exact .inl ⟨nofun, (Except.ok.inj h).symm⟩
    · obtain ⟨j, hj, ht⟩ := hjump h
      exact .inr (.inr ⟨j, .inr ⟨rfl, hj⟩, ht⟩)

/-- Only a bracket moves the counter, and it does so to its partner. -/
theorem counter_of_obey {s t : State} {x : Option Symbol} (h : s.obey p x = .ok t) :
    t.counter = s.counter ∨ x = some .loopStart ∧ p.closing? s.counter = some t.counter ∨
      x = some .loopEnd ∧ p.opening? s.counter = some t.counter := by
  obtain ⟨-, rfl⟩ | ⟨_, _, -, -, rfl⟩ | ⟨_, hpartner, rfl⟩ := obey_eq_ok h
  · exact .inl rfl
  · exact .inl rfl
  · exact .inr hpartner

/-- Only an action changes the workspace, and it does so as it does without a program. -/
theorem workspace_of_obey {s t : State} {x : Option Symbol} (h : s.obey p x = .ok t) :
    ((∀ a, x ≠ some (.act a)) ∧ t.toWorkspace = s.toWorkspace) ∨
      ∃ a, x = some (.act a) ∧ s.toWorkspace.perform a = .ok t.toWorkspace := by
  obtain ⟨hx, rfl⟩ | ⟨a, _, hx, hw, rfl⟩ | ⟨_, hpartner, rfl⟩ := obey_eq_ok h
  · exact .inl ⟨hx, rfl⟩
  · exact .inr ⟨a, hx, hw⟩
  · refine .inl ⟨?_, rfl⟩
    rintro a rfl
    simp at hpartner

/-- A symbol that fails is an action that does, or a bracket that is to jump and has no partner. -/
theorem obey_eq_error {s : State} {x : Option Symbol} {fault : Fault}
    (h : s.obey p x = .error fault) :
    (∃ a, x = some (.act a) ∧ s.toWorkspace.perform a = .error fault) ∨
    (x = some .loopStart ∧ p.closing? s.counter = none ∧ fault = .unmatchedBracket) ∨
    (x = some .loopEnd ∧ p.opening? s.counter = none ∧ fault = .unmatchedBracket) := by
  have hjump : ∀ {target}, s.jump target = .error fault →
      target = none ∧ fault = .unmatchedBracket := by
    intro target h
    cases target <;> cases h
    exact ⟨rfl, rfl⟩
  match x with
  | none => cases h
  | some (.act a) =>
    rw [obey] at h
    cases hw : s.toWorkspace.perform a <;> simp [hw, Except.map] at h
    exact .inl ⟨a, rfl, by rw [hw, h]⟩
  | some .loopStart =>
    rw [obey] at h
    split at h
    · exact .inr (.inl ⟨rfl, hjump h⟩)
    · cases h
  | some .loopEnd =>
    rw [obey] at h
    split at h
    · cases h
    · exact .inr (.inr ⟨rfl, hjump h⟩)

/-- Nothing fails behind the end of the program. -/
theorem counter_lt_of_error {s : State} {e : ExecutionError} (h : s.step p = .error e) :
    s.counter < p.size := by
  apply Nat.lt_of_not_le
  intro hle
  simp [step, Array.getElem?_eq_none hle] at h

/-! ## The two ends of a loop -/

/-- At both ends of a loop the machine goes behind the loop if the cell is zero. -/
theorem exists_step_behind {lo : Nat} {t u : List Symbol} (ht : Nested t)
    (h : p.Holds lo (.loopStart :: (t ++ .loopEnd :: u))) {s : State}
    (hs : s.counter = lo ∨ s.counter = lo + 1 + t.length) (hz : s.isZero = true) :
    ∃ r, s.step p = .ok r ∧ r.counter = lo + 1 + t.length + 1 ∧
      r.toWorkspace = s.toWorkspace := by
  have hclosing := Program.closing?_of_holds ht h
  have hclose := (Program.holds_append.mp h.2).2.1
  rcases hs with hs | hs <;> rw [← hs] at hclosing hclose ⊢
  · exact ⟨_, step_skip (hs ▸ h.1) hz hclosing, rfl, rfl⟩
  · exact ⟨_, step_leave hclose hz, rfl, rfl⟩

/-- At both ends of a loop the machine goes to the start of the body if the cell is not zero. -/
theorem exists_step_into {lo : Nat} {t u : List Symbol} (ht : Nested t)
    (h : p.Holds lo (.loopStart :: (t ++ .loopEnd :: u))) {s : State}
    (hs : s.counter = lo ∨ s.counter = lo + 1 + t.length) (hz : s.isZero = false) :
    ∃ r, s.step p = .ok r ∧ r.counter = lo + 1 ∧ r.toWorkspace = s.toWorkspace := by
  have hopening := Program.opening?_of_holds ht h
  have hclose := (Program.holds_append.mp h.2).2.1
  rcases hs with hs | hs
  · exact ⟨_, step_enter (hs ▸ h.1) hz, by rw [advance, hs], rfl⟩
  · rw [← hs] at hopening hclose
    exact ⟨_, step_repeat hclose hz hopening, rfl, rfl⟩

/-- The counter of a machine that fails is the position that the error names. -/
theorem exists_fault_of_step {s : State} {e : ExecutionError} (h : s.step p = .error e) :
    ∃ fault, e = .fault s.counter fault := by
  unfold step at h
  split at h
  · cases h
  · split at h <;> cases h
    exact ⟨_, rfl⟩

/-! ## Runs within a stretch of the program -/

/-- So many steps lead from the first state to the second, and each of them starts at a position
from `lo` on and below `hi`. -/
inductive Passage (p : Program) (lo hi : Nat) : Nat → State → State → Prop where
  | refl (s : State) : Passage p lo hi 0 s s
  | step {n : Nat} {s t u : State} : lo ≤ s.counter → s.counter < hi → s.step p = .ok t →
      Passage p lo hi n t u → Passage p lo hi (n + 1) s u

namespace Passage

variable {lo hi n m : Nat} {s t u : State}

theorem single (hlo : lo ≤ s.counter) (hhi : s.counter < hi) (h : s.step p = .ok t) :
    Passage p lo hi 1 s t :=
  .step hlo hhi h (.refl t)

/-- A passage may go on where another one has come to. -/
theorem trans (h : Passage p lo hi n s t) (h' : Passage p lo hi m t u) :
    Passage p lo hi (n + m) s u := by
  induction h with
  | refl => rwa [Nat.zero_add]
  | step hlo hhi hs _ ih =>
    rw [Nat.succ_add]
    exact .step hlo hhi hs (ih h')

/-- A passage through a part is a passage through the whole. -/
theorem widen {lo' hi' : Nat} (hlo : lo ≤ lo') (hhi : hi' ≤ hi) (h : Passage p lo' hi' n s t) :
    Passage p lo hi n s t := by
  induction h with
  | refl => exact .refl _
  | step hslo hshi hs _ ih =>
    exact .step (Nat.le_trans hlo hslo) (Nat.lt_of_lt_of_le hshi hhi) hs ih

/-- Of two passages from the same state the longer one goes on from the end of the shorter one. -/
theorem prolong (h : Passage p lo hi n s t) (h' : Passage p lo hi m s u) (hle : n ≤ m) :
    Passage p lo hi (m - n) t u := by
  induction h generalizing m with
  | refl => exact h'
  | @step n s _ _ hlo hhi hs _ ih =>
    cases h' with
    | refl => omega
    | @step m _ _ _ _ _ hs' h' =>
      obtain rfl := Except.ok.inj (hs.symm.trans hs')
      rw [Nat.add_sub_add_right]
      exact ih h' (Nat.le_of_succ_le_succ hle)

/-- A passage that ends within the stretch has been within it all the time. -/
theorem take (h : Passage p lo hi m s u) (hlo : lo ≤ u.counter) (hhi : u.counter < hi)
    (hle : n ≤ m) : ∃ t, Passage p lo hi n s t ∧ lo ≤ t.counter ∧ t.counter < hi := by
  induction h generalizing n with
  | refl s =>
    obtain rfl := Nat.le_zero.mp hle
    exact ⟨s, .refl s, hlo, hhi⟩
  | @step m s _ _ hslo hshi hs _ ih =>
    cases n with
    | zero => exact ⟨s, .refl s, hslo, hshi⟩
    | succ n =>
      obtain ⟨t, ht, htin⟩ := ih hlo hhi (Nat.le_of_succ_le_succ hle)
      exact ⟨t, .step hslo hshi hs ht, htin⟩

/-- No passage is longer than one whose last state is outside of the stretch or fails. -/
theorem le_of_last (h : Passage p lo hi n s t)
    (ht : lo ≤ t.counter → t.counter < hi → ∃ e, t.step p = .error e)
    (h' : Passage p lo hi m s u) : m ≤ n := by
  apply Nat.le_of_not_lt
  intro hlt
  -- a longer passage would make a step from the last state
  have hrest := h.prolong h' (Nat.le_of_lt hlt)
  obtain ⟨k, hk⟩ : ∃ k, m - n = k + 1 := ⟨m - n - 1, by omega⟩
  rw [hk] at hrest
  cases hrest with
  | step hlo hhi hs _ =>
    obtain ⟨e, he⟩ := ht hlo hhi
    rw [he] at hs
    cases hs

/-- There is one last state only. -/
theorem eq_of_last (h : Passage p lo hi n s t)
    (ht : lo ≤ t.counter → t.counter < hi → ∃ e, t.step p = .error e)
    (h' : Passage p lo hi m s u)
    (hu : lo ≤ u.counter → u.counter < hi → ∃ e, u.step p = .error e) : t = u := by
  obtain rfl : m = n := Nat.le_antisymm (h.le_of_last ht h') (h'.le_of_last hu h)
  have hrest := h.prolong h' (Nat.le_refl m)
  rw [Nat.sub_self] at hrest
  cases hrest
  rfl

end Passage

/-! ## The ends of a run within a stretch of the program -/

/-- The machine reaches the end of the stretch with a workspace. -/
def Leaves (p : Program) (lo hi : Nat) (s : State) (w : Workspace) : Prop :=
  ∃ n t, Passage p lo hi n s t ∧ t.counter = hi ∧ t.toWorkspace = w

/-- A step of the machine within the stretch fails, and the workspace is as it was before. -/
def FailsWithin (p : Program) (lo hi : Nat) (s : State) (fault : Fault) (w : Workspace) : Prop :=
  ∃ n t, Passage p lo hi n s t ∧ lo ≤ t.counter ∧ t.counter < hi ∧
    t.step p = .error (.fault t.counter fault) ∧ t.toWorkspace = w

/-- The machine is within the stretch after every number of steps. -/
def StaysWithin (p : Program) (lo hi : Nat) (s : State) : Prop :=
  ∀ n, ∃ t, Passage p lo hi n s t ∧ lo ≤ t.counter ∧ t.counter < hi

end State

end TapeLowering
