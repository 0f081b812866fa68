import TapeLowering.Proofs.WholeRun

/-!
# Outlines

An outline of a stretch of a program says for each of its positions what holds of the workspace
whenever the machine is there. It speaks of every visit, in every round of every loop, and of runs
that fail or never end. So it is proved without an induction over a run: each step from a position of
the stretch leads to a later or earlier position of the stretch, and the assertion there holds.

`Outlined` hides the assertions and keeps what is known of them: they follow from `P` at the first
position, they entail `Q` at the last one, and they entail the goal `G` everywhere. There is one rule
for each way of putting code together, and `Outlined.sound` is the induction over a run.

Something may be `given`, which the machine is only known to meet while a run lasts: an assertion may
rely on it at every position that was reached.
-/

namespace TapeLowering

open State

/-- Assertions for the positions of a stretch that no step of the machine breaks. -/
structure Outline (p : Program) (given : Nat → Workspace → Prop) (lo hi : Nat)
    (P Q : Workspace → Prop) (G A : Nat → Workspace → Prop) : Prop where
  enter {w : Workspace} : given lo w → P w → A lo w
  leave {w : Workspace} : given hi w → A hi w → Q w
  goal {pos : Nat} {w : Workspace} : lo ≤ pos → pos ≤ hi → given pos w → A pos w → G pos w
  keep {s t : State} : lo ≤ s.counter → s.counter < hi → given s.counter s.toWorkspace →
    A s.counter s.toWorkspace → s.step p = .ok t → lo < t.counter ∧ t.counter ≤ hi ∧
      (given t.counter t.toWorkspace → A t.counter t.toWorkspace)
  safe {s : State} {fault : Fault} : lo ≤ s.counter → s.counter < hi →
    given s.counter s.toWorkspace → A s.counter s.toWorkspace →
    s.step p = .error (.fault s.counter fault) → fault ≠ .leftOfOrigin ∧ fault ≠ .unmatchedBracket

/-- A stretch of the program has an outline. -/
def Outlined (p : Program) (given : Nat → Workspace → Prop) (lo hi : Nat)
    (P Q : Workspace → Prop) (G : Nat → Workspace → Prop) : Prop :=
  ∃ A, Outline p given lo hi P Q G A

namespace Outlined

variable {p : Program} {given : Nat → Workspace → Prop} {lo mid hi : Nat}
  {P Q R P' Q' : Workspace → Prop} {G G' : Nat → Workspace → Prop}

/-! ## Rules -/

/-- An action that is repeated goes through a sequence of assertions. -/
theorem acts (given : Nat → Workspace → Prop) {a : Action} {n : Nat}
    (hp : p.Holds lo (List.replicate n (.act a))) (J : Nat → Workspace → Prop)
    (hok : ∀ {i w w'}, i < n → J i w → w.perform a = .ok w' → J (i + 1) w')
    (hsafe : ∀ {i w fault}, i < n → J i w → w.perform a = .error fault →
      fault ≠ .leftOfOrigin ∧ fault ≠ .unmatchedBracket) :
    Outlined p given lo (lo + n) (J 0) (J n) fun pos w => J (pos - lo) w := by
  have hsymbol : ∀ {pos}, lo ≤ pos → pos < lo + n → p.symbolAt? pos = some (.act a) := by
    intro pos hlo hhi
    have h := hp.symbolAt? (i := pos - lo) (by rw [List.length_replicate]; omega)
    rwa [Nat.add_sub_cancel' hlo, List.getElem_replicate] at h
  -- what holds at a position is what holds after as many actions
  refine ⟨fun pos w => J (pos - lo) w, ?_, ?_, fun _ _ _ h => h, ?_, ?_⟩
  · intro w _ h
    rwa [Nat.sub_self]
  · intro w _ h
    rwa [Nat.add_sub_cancel_left] at h
  · intro s t hlo hhi _ hJ hstep
    cases hw : s.toWorkspace.perform a with
    | ok w =>
      rw [step_act_ok (hsymbol hlo hhi) hw] at hstep
      cases hstep
      refine ⟨Nat.lt_succ_of_le hlo, hhi, fun _ => ?_⟩
      rw [show (s.withWorkspace w).advance.counter - lo = s.counter - lo + 1 from
        Nat.succ_sub hlo]
      exact hok (by omega) hJ hw
    | error fault =>
      rw [step_act_error (hsymbol hlo hhi) hw] at hstep
      cases hstep
  · intro s fault hlo hhi _ hJ hstep
    cases hw : s.toWorkspace.perform a with
    | ok w =>
      rw [step_act_ok (hsymbol hlo hhi) hw] at hstep
      cases hstep
    | error fault' =>
      rw [step_act_error (hsymbol hlo hhi) hw] at hstep
      injection hstep with hstep
      injection hstep with _ hfault
      exact hfault ▸ hsafe (by omega) hJ hw

/-- Nothing happens where there is no position. -/
theorem skip (p : Program) (given : Nat → Workspace → Prop) (lo : Nat) (P : Workspace → Prop) :
    Outlined p given lo lo P P fun _ => P :=
  acts given (a := .write) (n := 0) trivial (fun _ => P) nofun nofun

/-- One stretch after another one. -/
theorem seq (h₁ : Outlined p given lo mid P Q G) (h₂ : Outlined p given mid hi Q R G')
    (hlo : lo ≤ mid) (hhi : mid ≤ hi) : Outlined p given lo hi P R
      fun pos w => (pos ≤ mid → G pos w) ∧ (mid ≤ pos → G' pos w) := by
  obtain ⟨A, hA⟩ := h₁
  obtain ⟨B, hB⟩ := h₂
  refine ⟨fun pos w => (pos ≤ mid → A pos w) ∧ (mid ≤ pos → B pos w), ?_, ?_, ?_, ?_, ?_⟩
  · intro w hg hP
    have hAlo := hA.enter hg hP
    refine ⟨fun _ => hAlo, fun hle => ?_⟩
    obtain rfl := Nat.le_antisymm hlo hle
    exact hB.enter hg (hA.leave hg hAlo)
  · exact fun hg h => hB.leave hg (h.2 hhi)
  · intro pos w hpos hpos' hg h
    exact ⟨fun hle => hA.goal hpos hle hg (h.1 hle), fun hle => hB.goal hle hpos' hg (h.2 hle)⟩
  · intro s t hs hs' hg h hstep
    rcases Nat.lt_or_ge s.counter mid with hlt | hge
    · obtain ⟨htlo, htmid, hkeep⟩ := hA.keep hs hlt hg (h.1 (Nat.le_of_lt hlt)) hstep
      -- a step to the middle ends the first stretch and enters the second one
      refine ⟨htlo, Nat.le_trans htmid hhi, fun hgt => ⟨fun _ => hkeep hgt, fun hle => ?_⟩⟩
      obtain rfl := Nat.le_antisymm htmid hle
      exact hB.enter hgt (hA.leave hgt (hkeep hgt))
    · obtain ⟨htmid, hthi, hkeep⟩ := hB.keep hge hs' hg (h.2 hge) hstep
      exact ⟨Nat.lt_of_le_of_lt hlo htmid, hthi, fun hgt =>
        ⟨fun hle => absurd htmid (Nat.not_lt.mpr hle), fun _ => hkeep hgt⟩⟩
  · intro s fault hs hs' hg h hstep
    rcases Nat.lt_or_ge s.counter mid with hlt | hge
    · exact hA.safe hs hlt hg (h.1 (Nat.le_of_lt hlt)) hstep
    · exact hB.safe hge hs' hg (h.2 hge) hstep

/-- A loop keeps at both of its ends what its body keeps. -/
theorem loop {t : List Symbol} (ht : Nested t)
    (hp : p.Holds lo (.loopStart :: (t ++ [.loopEnd])))
    (hbody : Outlined p given (lo + 1) (lo + 1 + t.length) P P G) :
    Outlined p given lo (lo + 1 + t.length + 1) P (fun w => P w ∧ w.isZero = true)
      fun pos w => (lo + 1 ≤ pos → pos ≤ lo + 1 + t.length → G pos w) ∧
        (pos = lo ∨ pos = lo + 1 + t.length + 1 → P w) := by
  obtain ⟨A, hA⟩ := hbody
  -- the three places are the start of the loop, its body with the end, and behind the loop
  refine ⟨fun pos w => (pos = lo → P w) ∧ (lo + 1 ≤ pos → pos ≤ lo + 1 + t.length → A pos w) ∧
    (pos = lo + 1 + t.length + 1 → P w ∧ w.isZero = true), ?_, ?_, ?_, ?_, ?_⟩
  · exact fun _ hP => ⟨fun _ => hP, fun hle => by omega, fun heq => by omega⟩
  · exact fun _ h => h.2.2 rfl
  · intro pos w _ _ hg h
    refine ⟨fun hle hle' => hA.goal hle hle' hg (h.2.1 hle hle'), ?_⟩
    rintro (hlo | hhi)
    · exact h.1 hlo
    · exact (h.2.2 hhi).1
  · intro s u hs hs' hg h hstep
    -- at both brackets the machine tests the origin, and elsewhere it is in the body
    by_cases hend : s.counter = lo ∨ s.counter = lo + 1 + t.length
    · have hP : P s.toWorkspace := by
        rcases hend with hlo | hhi
        · exact h.1 hlo
        · exact hA.leave (hhi ▸ hg) (hhi ▸ h.2.1 (by omega) (by omega))
      cases hz : s.isZero with
      | true =>
        obtain ⟨r, hr, hcounter, hws⟩ := exists_step_behind ht hp hend hz
        obtain rfl := Except.ok.inj (hr.symm.trans hstep)
        refine ⟨by omega, by omega, fun _ => ⟨fun heq => by omega, fun _ hle => by omega, fun _ => ?_⟩⟩
        rw [hws]
        exact ⟨hP, hz⟩
      | false =>
        obtain ⟨r, hr, hcounter, hws⟩ := exists_step_into ht hp hend hz
        obtain rfl := Except.ok.inj (hr.symm.trans hstep)
        refine ⟨by omega, by omega, fun hgr => ⟨fun heq => by omega, fun _ _ => ?_, fun heq => by omega⟩⟩
        rw [hcounter] at hgr ⊢
        exact hA.enter hgr (hws ▸ hP)
    · have hA' := h.2.1 (by omega) (by omega)
      obtain ⟨hulo, huhi, hkeep⟩ := hA.keep (by omega) (by omega) hg hA' hstep
      exact ⟨by omega, by omega, fun hgu =>
        ⟨fun heq => by omega, fun _ _ => hkeep hgu, fun heq => by omega⟩⟩
  · intro s fault hs hs' hg h hstep
    by_cases hend : s.counter = lo ∨ s.counter = lo + 1 + t.length
    · cases hz : s.isZero with
      | true =>
        obtain ⟨r, hr, _⟩ := exists_step_behind ht hp hend hz
        simp [hr] at hstep
      | false =>
        obtain ⟨r, hr, _⟩ := exists_step_into ht hp hend hz
        simp [hr] at hstep
    · exact hA.safe (by omega) (by omega) hg (h.2.1 (by omega) (by omega)) hstep

/-- An outline may say less, and its goal may use what is known at the two ends. -/
theorem conseq (h : Outlined p given lo hi P Q G) (hP : ∀ {w}, P' w → P w)
    (hQ : ∀ {w}, given hi w → Q w → Q' w)
    (hG : ∀ {pos w}, lo ≤ pos → pos ≤ hi → given pos w → (pos = lo → P' w) → (pos = hi → Q w) →
      G pos w → G' pos w) : Outlined p given lo hi P' Q' G' := by
  obtain ⟨A, hA⟩ := h
  refine ⟨fun pos w => A pos w ∧ (pos = lo → P' w), ?_, ?_, ?_, ?_, ?_⟩
  · exact fun hg hP' => ⟨hA.enter hg (hP hP'), fun _ => hP'⟩
  · exact fun hg h => hQ hg (hA.leave hg h.1)
  · intro pos w hpos hpos' hg h
    exact hG hpos hpos' hg h.2 (fun heq => hA.leave (heq ▸ hg) (heq ▸ h.1))
      (hA.goal hpos hpos' hg h.1)
  · intro s t hs hs' hg h hstep
    obtain ⟨hlo, hhi, hkeep⟩ := hA.keep hs hs' hg h.1 hstep
    exact ⟨hlo, hhi, fun hgt => ⟨hkeep hgt, fun heq => by omega⟩⟩
  · exact fun hs hs' hg h => hA.safe hs hs' hg h.1

/-- One stretch after another one with the same goal. -/
theorem chain (h₁ : Outlined p given lo mid P Q G) (h₂ : Outlined p given mid hi Q R G)
    (hlo : lo ≤ mid) (hhi : mid ≤ hi) : Outlined p given lo hi P R G := by
  refine (h₁.seq h₂ hlo hhi).conseq id (fun _ h => h) fun {pos _} _ _ _ _ _ h => ?_
  rcases Nat.le_total pos mid with hle | hle
  · exact h.1 hle
  · exact h.2 hle

end Outlined

/-! ## Runs -/

/-- The assertions hold along a passage that starts where one of them does. -/
theorem Outline.holds {p : Program} {given A G : Nat → Workspace → Prop} {lo hi : Nat}
    {P Q : Workspace → Prop} (hA : Outline p given lo hi P Q G A) {n : Nat} {s t : State}
    (h : Passage p lo hi n s t)
    (hgiven : ∀ m u, m ≤ n → Passage p lo hi m s u → given u.counter u.toWorkspace)
    (hs : A s.counter s.toWorkspace) : A t.counter t.toWorkspace := by
  induction h with
  | refl => exact hs
  | @step n s u t hlo hhi hstep _ ih =>
    obtain ⟨_, _, hkeep⟩ := hA.keep hlo hhi (hgiven 0 s (Nat.zero_le _) (.refl s)) hs hstep
    have hgu := hgiven 1 u (Nat.succ_le_succ (Nat.zero_le n)) (.single hlo hhi hstep)
    refine ih (fun m v hm hv => ?_) (hkeep hgu)
    exact hgiven (m + 1) v (Nat.succ_le_succ hm) (.step hlo hhi hstep hv)

/-- What is given of every state of a run is given of every state of its passage. -/
theorem given_of_run {p : Program} {given : Nat → Workspace → Prop} {s u : State} {m : Nat}
    (h : Passage p 0 p.size m s u)
    (hgiven : given (s.run p none m).state.counter (s.run p none m).state.toWorkspace) :
    given u.counter u.toWorkspace := by
  have hrun := run_of_passage h (Nat.le_refl _) 0
  rw [Nat.add_zero] at hrun
  rwa [hrun, state_run_zero] at hgiven

/-- What an outline of the whole program says is true of every state that a run reaches. -/
theorem Outlined.sound {p : Program} {given G : Nat → Workspace → Prop} {P Q : Workspace → Prop}
    (h : Outlined p given 0 p.size P Q G) {s : State} (hs : s.counter = 0) (hP : P s.toWorkspace)
    (n : Nat) (hgiven : ∀ m, m ≤ n → given (s.run p none m).state.counter
      (s.run p none m).state.toWorkspace) :
    G (s.run p none n).state.counter (s.run p none n).state.toWorkspace ∧
      (∀ t, s.run p none n = .halted t → Q t.toWorkspace) ∧
      ∀ position, (s.run p none n).error? ≠ some (.fault position .leftOfOrigin) ∧
        (s.run p none n).error? ≠ some (.fault position .unmatchedBracket) := by
  obtain ⟨A, hA⟩ := h
  obtain ⟨m, hmn, hm, hends⟩ := exists_passage_of_run (p := p) (s := s) (by omega) n
  -- what is given of the run is given along the passage
  have hpast : ∀ j u, j ≤ m → Passage p 0 p.size j s u → given u.counter u.toWorkspace :=
    fun j u hj hu => given_of_run hu (hgiven j (Nat.le_trans hj hmn))
  have hAs : A s.counter s.toWorkspace := by
    have hgs := hpast 0 s (Nat.zero_le m) (.refl s)
    rw [hs] at hgs ⊢
    exact hA.enter hgs hP
  have hAt := hA.holds hm hpast hAs
  have hgt := hpast m _ (Nat.le_refl m) hm
  cases hr : s.run p none n with
  | halted t =>
    simp only [hr, RunEnds, Progress.state] at hends hAt hgt
    refine ⟨hA.goal (Nat.zero_le _) (Nat.le_of_eq hends) hgt hAt, ?_, by simp [Progress.error?]⟩
    intro u hu
    obtain rfl := Progress.halted.inj hu
    rw [hends] at hgt hAt
    exact hA.leave hgt hAt
  | failed e t =>
    simp only [hr, RunEnds, Progress.state] at hends hAt hgt
    refine ⟨hA.goal (Nat.zero_le _) (Nat.le_of_lt hends.1) hgt hAt, by simp, fun position => ?_⟩
    obtain ⟨fault, rfl⟩ := exists_fault_of_step hends.2
    have hsafe := hA.safe (Nat.zero_le _) hends.1 hgt hAt hends.2
    simp [Progress.error?, hsafe]
  | running t =>
    simp only [hr, RunEnds, Progress.state] at hends hAt hgt
    exact ⟨hA.goal (Nat.zero_le _) (Nat.le_of_lt hends.1) hgt hAt, by simp,
      by simp [Progress.error?]⟩

end TapeLowering
