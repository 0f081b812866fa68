import TapeLowering.Code.Meaning
import TapeLowering.Proofs.Passage

/-!
# The text of code means the code

A machine knows no structure. It finds the ends of a loop by counting brackets, enters a body without
testing the cell again, and obeys one symbol at a time. `run_text_iff` says that on the text of some
code, whatever stands around it, this comes to what `Code.run` says of the tree.

`State.Follows` is what the machine does for one amount of fuel: it leaves the stretch of the text at
its end, fails in it, or stays in it for at least as many steps as there was fuel. The last part is
what turns a run that is unfinished with every amount of fuel into a machine that never leaves.
`follows_run` is the induction over the code, and `follows_repeatWhile`, inside of it, the one over
the iterations of a loop.
-/

namespace TapeLowering

namespace State

variable {p : Program}

/-- How a machine stands after `n` steps between two positions, by the outcome of its workspace. -/
def Ends (p : Program) (lo hi fuel n : Nat) (t : State) : Outcome Workspace → Prop
  | .done w => t.counter = hi ∧ t.toWorkspace = w
  | .failed fault w => lo ≤ t.counter ∧ t.counter < hi ∧
      t.step p = .error (.fault t.counter fault) ∧ t.toWorkspace = w
  | .unfinished => lo ≤ t.counter ∧ t.counter < hi ∧ fuel ≤ n

/-- What a machine does between two positions, by the outcome of its workspace. -/
def Follows (p : Program) (lo hi fuel : Nat) (s : State) (o : Outcome Workspace) : Prop :=
  ∃ n t, Passage p lo hi n s t ∧ Ends p lo hi fuel n t o

/-- An end within a stretch is one within a longer stretch that ends at the same place. -/
theorem Ends.widen {lo lo' hi fuel fuel' n n' : Nat} {t : State} {o : Outcome Workspace}
    (h : Ends p lo' hi fuel n t o) (hlo : lo ≤ lo') (hfuel : fuel ≤ n → fuel' ≤ n') :
    Ends p lo hi fuel' n' t o := by
  cases o with
  | done w => exact h
  | failed fault w => exact ⟨Nat.le_trans hlo h.1, h.2⟩
  | unfinished => exact ⟨Nat.le_trans hlo h.1, h.2.1, hfuel h.2.2⟩

namespace Follows

variable {lo lo' mid hi fuel fuel' n : Nat} {s t : State} {o : Outcome Workspace}

/-- A passage comes before what the machine does from its end on. -/
theorem prepend (hs : Passage p lo hi n s t) (h : Follows p lo' hi fuel t o) (hlo : lo ≤ lo')
    (hfuel : fuel' ≤ n + fuel) : Follows p lo hi fuel' s o := by
  obtain ⟨m, u, hu, hend⟩ := h
  exact ⟨n + m, u, hs.trans (hu.widen hlo (Nat.le_refl hi)), hend.widen hlo fun _ => by omega⟩

/-- A machine that leaves a part of the stretch at its end goes on from there. -/
theorem andThen {next : Workspace → Outcome Workspace} (h : Follows p lo' mid fuel s o)
    (hlo : lo ≤ lo') (hmid : mid ≤ hi)
    (hnext : ∀ t : State, t.counter = mid → Follows p lo hi fuel t (next t.toWorkspace)) :
    Follows p lo hi fuel s (o.andThen next) := by
  obtain ⟨n, t, ht, hend⟩ := h
  have ht := ht.widen hlo hmid
  cases o with
  | done w =>
    obtain ⟨htmid, rfl⟩ := hend
    exact (hnext t htmid).prepend ht (Nat.le_refl lo) (Nat.le_add_left fuel n)
  | failed fault w =>
    obtain ⟨htlo, hthi, hend⟩ := hend
    exact ⟨n, t, ht, Nat.le_trans hlo htlo, Nat.lt_of_lt_of_le hthi hmid, hend⟩
  | unfinished =>
    obtain ⟨htlo, hthi, hend⟩ := hend
    exact ⟨n, t, ht, Nat.le_trans hlo htlo, Nat.lt_of_lt_of_le hthi hmid, hend⟩

end Follows

/-! ## Actions -/

/-- The machine performs the action under its counter, or fails there. -/
theorem follows_perform {s : State} {a : Action} (h : p.symbolAt? s.counter = some (.act a))
    (fuel : Nat) : Follows p s.counter (s.counter + 1) fuel s
      (.ofExcept s.toWorkspace (s.toWorkspace.perform a)) := by
  cases hw : s.toWorkspace.perform a with
  | ok w =>
    exact ⟨1, _, .single (Nat.le_refl _) (Nat.lt_succ_self _) (step_act_ok h hw), rfl, rfl⟩
  | error fault =>
    exact ⟨0, s, .refl s, Nat.le_refl _, Nat.lt_succ_self _, step_act_error h hw, rfl⟩

/-- The machine performs an action as often as it is written, or fails at the first one that fails. -/
theorem follows_performTimes {a : Action} {lo : Nat} (count : Nat)
    (h : p.Holds lo (List.replicate count (.act a))) (fuel : Nat) {s : State}
    (hs : s.counter = lo) :
    Follows p lo (lo + count) fuel s (s.toWorkspace.performTimes a count) := by
  induction count generalizing lo s with
  | zero => exact ⟨0, s, .refl s, hs, rfl⟩
  | succ count ih =>
    subst hs
    obtain ⟨hact, hrest⟩ := h
    refine (follows_perform hact fuel).andThen (Nat.le_refl _) (by omega) fun t ht => ?_
    have hrest := ih hrest ht
    rw [show s.counter + 1 + count = s.counter + (count + 1) by omega] at hrest
    exact hrest.prepend (.refl t) (Nat.le_succ _) (Nat.le_add_left _ _)

/-! ## Loops -/

/-- At either bracket of a loop, a machine on a zero cell leaves the loop. -/
theorem follows_repeatWhile_of_isZero {lo : Nat} {t : List Symbol} (ht : Nested t)
    (h : p.Holds lo (.loopStart :: (t ++ [.loopEnd]))) {s : State}
    (hs : s.counter = lo ∨ s.counter = lo + 1 + t.length) (hz : s.isZero = true)
    (body : Workspace → Outcome Workspace) (k : Nat) :
    Follows p lo (lo + 1 + t.length + 1) k s
      (.repeatWhile (fun w => !w.isZero) body k s.toWorkspace) := by
  obtain ⟨r, hr, hend⟩ := exists_step_behind ht h hs hz
  rw [Outcome.repeatWhile_of_not (by simp [hz])]
  exact ⟨1, r, .single (by omega) (by omega) hr, hend⟩

/-- At both ends of a loop the machine tests its cell, and goes behind the loop or into the body. -/
theorem follows_repeatWhile {lo : Nat} {t : List Symbol} (ht : Nested t)
    (h : p.Holds lo (.loopStart :: (t ++ [.loopEnd]))) {fuel : Nat}
    {body : Workspace → Outcome Workspace}
    (hbody : ∀ s : State, s.counter = lo + 1 →
      Follows p (lo + 1) (lo + 1 + t.length) fuel s (body s.toWorkspace))
    {k : Nat} (hk : k ≤ fuel) {s : State}
    (hs : s.counter = lo ∨ s.counter = lo + 1 + t.length) :
    Follows p lo (lo + 1 + t.length + 1) k s
      (.repeatWhile (fun w => !w.isZero) body k s.toWorkspace) := by
  induction k generalizing s with
  | zero =>
    cases hz : s.isZero with
    | true => exact follows_repeatWhile_of_isZero ht h hs hz body 0
    | false =>
      rw [Outcome.repeatWhile_zero_of_test (by simp [hz])]
      -- no fuel is left for a round, and no steps are asked for
      exact ⟨0, s, .refl s, by omega, by omega, Nat.le_refl 0⟩
  | succ k ih =>
    cases hz : s.isZero with
    | true => exact follows_repeatWhile_of_isZero ht h hs hz body (k + 1)
    | false =>
      obtain ⟨r, hr, hcounter, hws⟩ := exists_step_into ht h hs hz
      rw [Outcome.repeatWhile_succ_of_test (by simp [hz]), ← hws]
      -- the step into the body makes up for the unit of fuel that the round costs
      have hround : Follows p lo (lo + 1 + t.length + 1) k r
          ((body r.toWorkspace).andThen (.repeatWhile (fun w => !w.isZero) body k)) := by
        obtain ⟨n, u, hu, hend⟩ := hbody r hcounter
        have hbody' : Follows p (lo + 1) (lo + 1 + t.length) k r (body r.toWorkspace) :=
          ⟨n, u, hu, hend.widen (Nat.le_refl _) fun hn => by omega⟩
        exact hbody'.andThen (Nat.le_succ lo) (Nat.le_succ _) fun t ht => ih (by omega) (.inr ht)
      exact hround.prepend (.single (by omega) (by omega) hr) (Nat.le_refl lo) (by omega)

/-! ## Code -/

mutual

/-- The machine on the symbols of an instruction follows what the instruction does. By induction on the
instruction, together with `follows_run`. -/
theorem follows_run_instruction (fuel : Nat) (i : Instruction) {lo : Nat}
    (h : p.Holds lo i.symbols) {s : State} (hs : s.counter = lo) :
    Follows p lo (lo + i.size) fuel s (i.run fuel s.toWorkspace) := by
  cases i with
  | right a => exact follows_performTimes a.magnitude h fuel hs
  | add a => exact follows_performTimes a.magnitude h fuel hs
  | read => exact follows_performTimes 1 h fuel hs
  | write => exact follows_performTimes 1 h fuel hs
  | loop body =>
    have hbody : ∀ s : State, s.counter = lo + 1 → Follows p (lo + 1)
        (lo + 1 + (Code.symbols body).length) fuel s (Code.run fuel body s.toWorkspace) := by
      intro s hs
      rw [Code.length_symbols]
      exact follows_run fuel body (Program.holds_append.mp h.2).1 hs
    have hloop := follows_repeatWhile (Code.nested_symbols body) h hbody (Nat.le_refl fuel) (.inl hs)
    rw [Code.length_symbols, show lo + 1 + Code.size body + 1 = lo + (Code.size body + 2) by omega]
      at hloop
    exact hloop

/-- The machine on the text of some code does what the code means. -/
theorem follows_run (fuel : Nat) (c : Code) {lo : Nat} (h : p.Holds lo c.symbols) {s : State}
    (hs : s.counter = lo) : Follows p lo (lo + c.size) fuel s (c.run fuel s.toWorkspace) := by
  match c with
  | [] => exact ⟨0, s, .refl s, hs, rfl⟩
  | i :: rest =>
    obtain ⟨hi, hrest⟩ := Program.holds_append.mp h
    rw [Instruction.length_symbols] at hrest
    have hsize : lo + Code.size (i :: rest) = lo + i.size + Code.size rest := by
      rw [Code.size, Nat.add_assoc]
    rw [hsize]
    refine (follows_run_instruction fuel i hi hs).andThen (Nat.le_refl lo) (by omega) fun t ht => ?_
    exact (follows_run fuel rest hrest ht).prepend (.refl t) (by omega) (by omega)

end

/-! ## From one amount of fuel to the whole run -/

/-- Where the outcome is known, the machine has left the stretch or fails. -/
theorem Ends.last {lo hi fuel n : Nat} {t : State} {o : Outcome Workspace}
    (h : Ends p lo hi fuel n t o) (ho : o ≠ .unfinished) :
    lo ≤ t.counter → t.counter < hi → ∃ e, t.step p = .error e := by
  cases o with
  | done w => exact fun _ hlt => absurd h.1 (Nat.ne_of_lt hlt)
  | failed fault w => exact fun _ _ => ⟨_, h.2.2.1⟩
  | unfinished => exact absurd rfl ho

/-- With more fuel than steps the outcome is the one that the last state shows. -/
theorem Follows.ends_of_last {lo hi n : Nat} {s t : State} {o : Outcome Workspace}
    (h : Follows p lo hi (n + 1) s o) (ht : Passage p lo hi n s t)
    (hlast : lo ≤ t.counter → t.counter < hi → ∃ e, t.step p = .error e) :
    o ≠ .unfinished ∧ Ends p lo hi (n + 1) n t o := by
  obtain ⟨m, u, hu, hend⟩ := h
  have hle := ht.le_of_last hlast hu
  cases o with
  | done w => exact ⟨by simp, ht.eq_of_last hlast hu (hend.last (by simp)) ▸ hend⟩
  | failed fault w => exact ⟨by simp, ht.eq_of_last hlast hu (hend.last (by simp)) ▸ hend⟩
  -- an unfinished outcome takes more steps than there are up to the last state
  | unfinished => exact absurd hend.2.2 (by omega)

variable {lo hi : Nat} {s : State} {run : Nat → Outcome Workspace}

/-- The machine leaves the text of some code if and only if the code is done with some fuel. One unit of
fuel more than the steps to the end will do. -/
theorem leaves_iff (h : ∀ fuel, Follows p lo hi fuel s (run fuel)) (w : Workspace) :
    Leaves p lo hi s w ↔ ∃ fuel, run fuel = .done w := by
  constructor
  · rintro ⟨n, t, ht, hcounter, hw⟩
    have hlast : lo ≤ t.counter → t.counter < hi → ∃ e, t.step p = .error e :=
      fun _ hlt => absurd hcounter (Nat.ne_of_lt hlt)
    obtain ⟨hne, hend⟩ := (h (n + 1)).ends_of_last ht hlast
    refine ⟨n + 1, ?_⟩
    cases ho : run (n + 1) with
    | done w' =>
      rw [ho] at hend
      rw [← hw, ← hend.2]
    | failed fault w' =>
      rw [ho] at hend
      exact absurd hcounter (Nat.ne_of_lt hend.2.1)
    | unfinished => exact absurd ho hne
  · rintro ⟨fuel, ho⟩
    obtain ⟨n, t, ht, hend⟩ := h fuel
    rw [ho] at hend
    exact ⟨n, t, ht, hend⟩

/-- The machine fails in the text of some code if and only if the code fails with some fuel, and with
the same fault. -/
theorem failsWithin_iff (h : ∀ fuel, Follows p lo hi fuel s (run fuel)) (fault : Fault)
    (w : Workspace) : FailsWithin p lo hi s fault w ↔ ∃ fuel, run fuel = .failed fault w := by
  constructor
  · rintro ⟨n, t, ht, _, hhi, hstep, hw⟩
    -- with more fuel than there were steps, the outcome is known
    obtain ⟨hne, hend⟩ := (h (n + 1)).ends_of_last ht fun _ _ => ⟨_, hstep⟩
    refine ⟨n + 1, ?_⟩
    cases ho : run (n + 1) with
    | done w' =>
      rw [ho] at hend
      exact absurd hend.1 (Nat.ne_of_lt hhi)
    | failed fault' w' =>
      rw [ho] at hend
      obtain ⟨_, _, hstep', hw'⟩ := hend
      rw [hstep] at hstep'
      injection hstep' with hfault
      injection hfault with _ hfault
      rw [hfault, ← hw, ← hw']
    | unfinished => exact absurd ho hne
  · rintro ⟨fuel, ho⟩
    obtain ⟨n, t, ht, hend⟩ := h fuel
    rw [ho] at hend
    exact ⟨n, t, ht, hend⟩

/-- The machine stays in the text of some code forever if and only if no fuel is enough for the code. -/
theorem staysWithin_iff (h : ∀ fuel, Follows p lo hi fuel s (run fuel)) :
    StaysWithin p lo hi s ↔ ∀ fuel, run fuel = .unfinished := by
  constructor
  · intro hstays fuel
    obtain ⟨n, t, ht, hend⟩ := h fuel
    obtain ⟨u, hu, _⟩ := hstays (n + 1)
    by_cases ho : run fuel = .unfinished
    · exact ho
    · exact absurd (ht.le_of_last (hend.last ho) hu) (by omega)
  · intro hrun n
    obtain ⟨m, u, hu, hend⟩ := h n
    rw [hrun n] at hend
    exact hu.take hend.1 hend.2.1 hend.2.2

/-- Between any two texts, and from any workspace, a machine on the text of some code does what the
code means: it comes to the end of the text, fails in it or never leaves it exactly as the code is
done, fails or never is, with the same workspace and the same fault. Every bracket of the text has
its partner there, and no bracket outside of it has. -/
theorem run_text_iff (c : Code) (before after : String) (w : Workspace) (steps : Nat) :
    let p := Program.ofText (before ++ c.text ++ after)
    let lo := before.utf8ByteSize
    let hi := lo + c.size
    let s : State := ⟨w, lo, steps⟩
    (∀ w', Leaves p lo hi s w' ↔ ∃ fuel, c.run fuel w = .done w') ∧
    (∀ fault w', FailsWithin p lo hi s fault w' ↔ ∃ fuel, c.run fuel w = .failed fault w') ∧
    (StaysWithin p lo hi s ↔ ∀ fuel, c.run fuel w = .unfinished) ∧
    (∀ i, lo ≤ i → i < hi → p.symbolAt? i = some .loopStart ∨ p.symbolAt? i = some .loopEnd →
      ∃ j, p.Partner i j) ∧
    ∀ i j, p.Partner i j → ((lo ≤ i ∧ i < hi) ↔ (lo ≤ j ∧ j < hi)) := by
  intro p lo hi s
  have hholds : p.Holds lo c.symbols := Program.holds_context before after c
  have hfollows : ∀ fuel, Follows p lo hi fuel s (c.run fuel w) :=
    fun fuel => follows_run fuel c hholds rfl
  have hnested := Code.nested_symbols c
  have hsize : hi = lo + c.symbols.length := by rw [Code.length_symbols]
  refine ⟨leaves_iff hfollows, failsWithin_iff hfollows, staysWithin_iff hfollows, ?_, ?_⟩
  · intro i hlo hhi hi
    obtain ⟨j, hj, _⟩ := Program.exists_partner_of_nested hnested hholds hlo (hsize ▸ hhi) hi
    exact ⟨j, hj⟩
  · intro i j hij
    rw [hsize]
    exact Program.Partner.inside_iff hnested hholds hij

end State

end TapeLowering
