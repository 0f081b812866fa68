import TapeLowering.Proofs.TidyRoutines

/-!
# Fresh slots hold zero

Making a slot live emits no code. `cells_above_depth` says that the cell holds zero nevertheless, with
one proviso about the scopes whose cell is not known to be zero behind them: whenever a run leaves
one, it has to be. The scopes of the library and that of a guarded branch never need this proviso.
-/

namespace TapeLowering

open Emitter Command

/-- Asks for zeros in all cells from the number of live slots on, at every boundary, where the cells of
scopes hold zero at the open exits. -/
def Survey.zeros (cs : List Command) (e : Emitter) : Survey where
  program := .ofText e.code.text
  given pos w := ∀ k, OpenExit 0 {} cs pos k → w.tape.cellAt k = 0
  bound := reachAll cs
  demand b w := ∀ k, b.depth ≤ k → w.tape.cellAt k = 0

/-- At every boundary that a run comes by, all cells from the number of live slots on hold zero, if the
cells of scopes did whenever the run left an open exit. -/
theorem zero_of_useLive {cs : List Command} {e : Emitter} (hlive : useLive 0 cs = true)
    (he : emitAll cs {} = .ok e) (inputs : List Cell) (n : Nat)
    (hexit : ∀ m, m ≤ n → ∀ k,
      OpenExit 0 {} cs (State.run (.ofText e.code.text) none m (.start inputs)).state.counter k →
      (State.run (.ofText e.code.text) none m (.start inputs)).state.tape.cellAt k = 0)
    (b : Emitter) (todo : List Command)
    (hb : Boundary 0 {} cs (State.run (.ofText e.code.text) none n (.start inputs)).state.counter
      b todo) (k : Nat) (hk : b.depth ≤ k) :
    (State.run (.ofText e.code.text) none n (.start inputs)).state.tape.cellAt k = 0 := by
  have hready : (Survey.zeros cs e).Ready 0 0 {} (fun _ => true) cs :=
    ⟨Nat.le_refl _, rfl, fun _ _ => rfl, fun pos k w h hg => hg k h⟩
  have hcovers : (Survey.zeros cs e).CoversAll 0 {} cs (fun _ => true) fun _ => false :=
    Survey.coversAll_of_useLive cs (fun _ _ h => h) hlive hready
  obtain ⟨⟨_, hboundary⟩, _⟩ := Survey.sound he rfl hcovers inputs n hexit
  exact (hboundary b todo hb).2 k hk

/-! ## Exits that need not be watched -/

section

variable {base pos k : Nat} {e : Emitter} {c : Command} {cs rest : List Command}

/-- An exit is one of the first command, or one of those behind it. -/
theorem OpenExit.head_or_tail (hc : c.isLive e.depth = true)
    (h : OpenExit base e (c :: rest) pos k) :
    OpenExit base e [c] pos k ∨ ∃ e', emit c e = .ok e' ∧ OpenExit base e' rest pos k := by
  obtain ⟨start, b, body, todo, b', hb, hexit⟩ := h
  cases hb with
  | here => exact .inl ⟨_, e, body, [], b', .here base e _, hexit⟩
  | inside hbody hb => exact .inl ⟨start, b, body, todo, b', .inside hbody hb, hexit⟩
  | behind _ he hb => exact .inr ⟨_, he, start, b, body, todo, b', hb, hexit⟩
  | insidePair => cases hc
  | behindPair => cases hc

/-- Before other commands, clean ones add no exits to theirs. -/
theorem OpenExit.of_append (hlive : areLive e.depth cs = true) (htidy : areTidy e.depth cs = true)
    (h : OpenExit base e (cs ++ rest) pos k) :
    ∃ e', emitAll cs e = .ok e' ∧ OpenExit base e' rest pos k := by
  induction cs generalizing e with
  | nil => exact ⟨e, rfl, h⟩
  | cons c cs ih =>
    rw [areLive, Bool.and_eq_true] at hlive
    rw [areTidy, Bool.and_eq_true] at htidy
    rcases OpenExit.head_or_tail hlive.1 h with hfirst | ⟨e₁, h₁, hrest⟩
    -- a clean command has no exit of its own
    · refine absurd hfirst (not_openExit_of_areTidy ?_ ?_)
      · rw [areLive, hlive.1, areLive, Bool.and_self]
      · rw [areTidy, htidy.1, areTidy, Bool.and_self]
    · have hdepth := depth_of_emit hlive.1 h₁
      obtain ⟨e', h₂, hexit⟩ := ih (hdepth ▸ hlive.2) (hdepth ▸ htidy.2) hrest
      exact ⟨e', emitAll_cons_eq_ok_iff.mpr ⟨e₁, h₁, h₂⟩, hexit⟩

end

/-- The copy that a guarded branch works on is zero behind it, whatever the body does. -/
theorem zeroAfterAll_guarded (depth : Nat) (known : Bool) (cs body : List Command) :
    zeroAfterAll depth (depth + 1) known (cs ++ [.branch ⟨depth⟩ body]) = true := by
  simp [zeroAfterAll_append, zeroAfterAll, zeroAfter]

/-- Whenever a run of generated code is at a boundary between two commands, at any nesting level and in
any round of any loop, all cells from the number of live slots on hold zero. That needs the cell of a
scope to be zero when the run leaves the scope, unless it is known to be: calls of the library have no
exits that need to be watched, and neither has the scope of a guarded branch. -/
theorem cells_above_depth :
    (∀ (cs : List Command) (e : Emitter), useLive 0 cs = true → emitAll cs {} = .ok e →
      ∀ (inputs : List Cell) (n : Nat),
        let s := fun m => (State.run (.ofText e.code.text) none m (.start inputs)).state
        (∀ m, m ≤ n → ∀ k, OpenExit 0 {} cs (s m).counter k → (s m).tape.cellAt k = 0) →
        ∀ b todo, Boundary 0 {} cs (s n).counter b todo →
          ∀ k, b.depth ≤ k → (s n).tape.cellAt k = 0) ∧
      (∀ (o : Operation Slot) (base : Nat) (b : Emitter) (rest : List Command) (pos k : Nat),
        (∀ x ∈ o.slots, x.index < b.depth) →
        OpenExit base b (o.routine.commands b.depth ++ rest) pos k →
        ∃ b', emitAll (o.routine.commands b.depth) b = .ok b' ∧ OpenExit base b' rest pos k) ∧
      ∀ (depth : Nat) (x : Slot) (body : List Command),
        zeroAfterAll depth (depth + 1) true
          ((Routine.copy ⟨depth⟩ x).commands (depth + 1) ++ [.branch ⟨depth⟩ body]) = true := by
  refine ⟨?_, ?_, ?_⟩
  · intro cs e hlive he inputs n s hexit b todo hb k hk
    exact zero_of_useLive hlive he inputs n hexit b todo hb k hk
  · intro o base b rest pos k hslots hexit
    have hclean := Operation.clean_routine hslots
    exact OpenExit.of_append hclean.live hclean.tidy hexit
  · intro depth x body
    exact zeroAfterAll_guarded depth true _ body

/-- A loop that takes a slot for a copy in every round finds the cell of the slot at zero. -/
theorem cells_above_depth_copying :
    let copied := (Operation.copy ⟨1⟩ ⟨0⟩ : Operation Slot).routine.commands 2
    let cs : List Command := [.scope [.read ⟨0⟩, .loop ⟨0⟩ [
      .scope (copied ++ [.write ⟨1⟩, .reset ⟨1⟩]), .decrement ⟨0⟩]]]
    ∃ e, emitAll cs {} = .ok e ∧ ∀ inputs n b todo,
      Boundary 0 {} cs (State.run (.ofText e.code.text) none n (.start inputs)).state.counter b todo →
      ∀ k, b.depth ≤ k →
        (State.run (.ofText e.code.text) none n (.start inputs)).state.tape.cellAt k = 0 := by
  intro copied cs
  have hlive : areLive 0 cs = true := by decide +kernel
  have htidy : areTidy 0 cs = true := by decide +kernel
  have hok : (emitAll cs {}).isOk = true := by decide +kernel
  cases he : emitAll cs {} with
  | error _ =>
    rw [he] at hok
    cases hok
  | ok e =>
    -- every scope is tidy, so there is no exit to be watched
    refine ⟨e, rfl, fun inputs n b todo hb k hk => ?_⟩
    refine cells_above_depth.1 cs e (by decide +kernel) he inputs n (fun m _ k hexit => ?_) b todo hb
      k hk
    exact absurd hexit (not_openExit_of_areTidy hlive htidy)

end TapeLowering
