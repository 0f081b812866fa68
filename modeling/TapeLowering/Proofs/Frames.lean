import TapeLowering.Proofs.Cursor
import TapeLowering.Proofs.Settled

/-!
# What is emitted around the body of a loop

The code of a loop is a move to the origin and a loop, and in the loop there is the code of the body with
something behind it that leads back to the origin. `Emitter.exists_frame` takes the code apart in this way,
where what closes the body has a known meaning. Of the body itself it says where it leaves the pointer, and
no more.

Of a body with fragments there is no more to say in terms of its commands. But if fragments are only
placed at once where they are kept, then the code realizes some computation
(`exists_realizes_of_paired`), and that is enough to know where it leaves the pointer.
-/

namespace TapeLowering

open Outcome

/-! ## Where some code leaves the pointer -/

/-- Code that is done leaves the pointer at one index, if it was at another one before. -/
def Code.Moves (d : Code) (start finish : Nat) : Prop :=
  ∀ ⦃fuel w w'⦄, w.tape.pointer = start → d.run fuel w = .done w' → w'.tape.pointer = finish

/-- Code that is done has done what was meant. -/
theorem Code.Performs.shows_of_done {d : Code} {start finish fuel : Nat}
    {m : Nat → Store → Outcome Store} {w w' : Workspace} (h : d.Performs start finish m)
    (hw : w.tape.pointer = start) (hrun : d.run fuel w = .done w') :
    ∃ s, m fuel w.store = .done s ∧ Shows finish s w' := by
  have hmatch := (h w.store w ⟨hw, rfl⟩).matches_of_known (d.growing_run w) (n := fuel) (by simp [hrun])
  rw [hrun] at hmatch
  cases hm : m fuel w.store with
  | done s =>
    rw [hm] at hmatch
    exact ⟨s, rfl, hmatch⟩
  | failed | unfinished =>
    rw [hm] at hmatch
    cases hmatch

/-- Code that performs something leaves the pointer where it is said to. -/
theorem Code.Performs.moves {d : Code} {start finish : Nat} {m : Nat → Store → Outcome Store}
    (h : d.Performs start finish m) : d.Moves start finish := by
  intro fuel w w' hw hrun
  obtain ⟨s, -, hshows⟩ := h.shows_of_done hw hrun
  exact hshows.1

/-- A command that has no part in fragments is inline. -/
theorem Command.isInline_of_isPlain {c : Command} (h : c.isPlain = true) : c.isInline = true := by
  cases c with
  | loop | branch | scope | detach | append => cases h
  | allocate | release | increment | decrement | reset | set | read | write | transfer | deduct
  | unknown => rfl

namespace Emitter

variable {e e' : Emitter} {x : Slot} {g : Emission} {m : Nat → Store → Outcome Store}

/-- The code of commands means something if fragments are placed at once where they are kept. -/
theorem exists_realizes_of_paired {cs : List Command} (h : Paired cs) :
    ∃ m : Nat → Store → Outcome Store,
      (∀ s, Growing fun fuel => m fuel s) ∧ (emitAll cs).Realizes m := by
  induction h with
  | nil => exact ⟨fun _ => .done, fun _ => growing_const _, realizes_emitAll [] rfl⟩
  | @plain c rest hc _ ih =>
    obtain ⟨m, hgrow, hm⟩ := ih
    exact ⟨_, fun s => (Command.growing_run c s).andThen hgrow,
      (realizes_emit c (Command.isInline_of_isPlain hc)).bind hm⟩
  | @loop x body rest _ _ ihbody ih =>
    obtain ⟨m, hgrow, hm⟩ := ih
    obtain ⟨inner, hinner, hbody⟩ := ihbody
    exact ⟨_, fun s => (growing_repeatWhile _ hinner s).andThen hgrow, (realizes_loop hbody).bind hm⟩
  | @branch x body rest _ _ ihbody ih =>
    obtain ⟨m, hgrow, hm⟩ := ih
    obtain ⟨inner, hinner, hbody⟩ := ihbody
    have hloop := realizes_loop (hbody.bind (realizes_reset x)) (x := x)
    have hround := fun s => (hinner s).andThen fun t => growing_const (.done (t.put x 0))
    exact ⟨_, fun s => (growing_repeatWhile _ hround s).andThen hgrow, hloop.bind hm⟩
  | @scope body rest _ _ ihbody ih =>
    obtain ⟨m, hgrow, hm⟩ := ih
    obtain ⟨inner, hinner, hbody⟩ := ihbody
    exact ⟨_, fun s => (hinner s).andThen hgrow, (realizes_scope hbody).bind hm⟩
  | @pair fragment body rest _ _ ihbody ih =>
    obtain ⟨m, hgrow, hm⟩ := ih
    obtain ⟨inner, hinner, hbody⟩ := ihbody
    -- the fragment is placed where it is kept, so it counts as its body
    refine ⟨_, fun s => (hinner s).andThen hgrow, fun e e' he => ?_⟩
    obtain ⟨e₁, e₂, h₁, -, hstack, hsymbols, h₂⟩ := emitAll_pair_eq_ok he
    obtain ⟨d, hd, hperf⟩ := hbody _ e₁ h₁
    obtain ⟨d', hd', hperf'⟩ := hm e₂ e' h₂
    rw [Code.symbols, List.nil_append] at hd
    rw [cursor, hstack] at hperf'
    refine ⟨d ++ d', ?_, hperf.append hperf'⟩
    rw [hd', hsymbols, hd, Code.symbols_append, List.append_assoc]

/-! ## Loops, taken apart -/

/-- What the body of a loop on a slot is emitted from. -/
def inside (e : Emitter) (x : Slot) : Emitter :=
  { e with stack := e.stack.pointAt x, code := [] }

theorem inside_of_seek {e₁ : Emitter} (h : seek x e = .ok e₁) :
    { e₁ with code := [] } = e.inside x := by
  rw [inside, ← (seek_eq_ok h).1, ← fragments_of_seek h]

/-- The code of a loop, by what its body and the end of the body emit. -/
theorem exists_frame {cs : List Command} (hcs : Paired cs) (hg : g.Realizes m)
    (h : loop x (fun e => emitAll cs e >>= g) e = .ok e') :
    ∃ (b : Emitter) (lead d close : Code), emitAll cs (e.inside x) = .ok b ∧
      b.code.text = d.text ∧
      e'.code.symbols = e.code.symbols ++ Code.symbols (lead ++ [.loop (d ++ close)]) ∧
      lead.Performs e.cursor x.index (fun _ => .done) ∧ d.Moves x.index b.cursor ∧
      close.Performs b.cursor x.index m := by
  obtain ⟨e₁, e₂, e₃, h₁, h₂, h₃, h₄⟩ := loop_eq_ok_iff.mp h
  obtain ⟨b, hb, hclose⟩ := Violation.bind_eq_ok_iff.mp h₂
  obtain ⟨_, a, ha, hsymbols₁⟩ := seek_eq_ok h₁
  obtain ⟨_, back, hback, hsymbols₃⟩ := seek_eq_ok h₃
  rw [inside_of_seek h₁] at hb
  obtain ⟨_, -, hbody⟩ := exists_realizes_of_paired hcs
  obtain ⟨d, hd, hperf⟩ := hbody _ b hb
  obtain ⟨d', hd', hperf'⟩ := hg b e₂ hclose
  refine ⟨b, [.right a], d, d' ++ [.right back], hb, ?_, ?_, performs_right ha, hperf.moves, ?_⟩
  · rw [Code.text, hd]
    rfl
  · rw [symbols_of_push_loop h₄, hsymbols₁, hsymbols₃, hd', hd]
    simp [inside, Code.symbols, Instruction.symbols]
  · simpa only [andThen_done_right] using hperf'.append (performs_right hback)

/-- The code of a guarded body, where the copy of the condition comes before the branch. -/
theorem exists_guarded_frame {cs : List Command} (hcs : Paired cs)
    (h : scope (emitAll ((Routine.copy ⟨e.depth⟩ x).commands (e.depth + 1) ++
      [.branch ⟨e.depth⟩ cs])) e = .ok e') :
    ∃ (e₁ b : Emitter) (lead d close : Code),
      emitAll ((Routine.copy ⟨e.depth⟩ x).commands (e.depth + 1)) e.allocate = .ok e₁ ∧
      emitAll cs (e₁.inside ⟨e.depth⟩) = .ok b ∧ b.code.text = d.text ∧
      e'.code.symbols = e.code.symbols ++ Code.symbols (lead ++ [.loop (d ++ close)]) ∧
      e'.cursor = e.depth ∧
      lead.Performs e.cursor e.depth (fun fuel =>
        Command.runAll fuel ((Routine.copy ⟨e.depth⟩ x).commands (e.depth + 1))) ∧
      d.Moves e.depth b.cursor ∧
      close.Performs b.cursor e.depth fun _ s => .done (s.put ⟨e.depth⟩ 0) := by
  obtain ⟨e₂, h₂, hrelease⟩ := scope_eq_ok_iff.mp h
  rw [emitAll_append] at h₂
  obtain ⟨e₁, h₁, hbranch⟩ := Violation.bind_eq_ok_iff.mp h₂
  rw [emitAll_singleton] at hbranch
  obtain ⟨hcode, hcursor, -⟩ := release_eq_ok hrelease
  obtain ⟨copied, hcopied, hcopies⟩ := realizes_emitAll _ (Routine.inline_copy _) _ _ h₁
  obtain ⟨b, lead, d, close, hb, htext, hsymbols, hlead, hmoves, hclose⟩ :=
    exists_frame hcs (realizes_reset ⟨e.depth⟩) hbranch
  refine ⟨e₁, b, copied ++ lead, d, close, h₁, hb, htext, ?_,
    hcursor.trans (cursor_of_loop hbranch), ?_, hmoves, hclose⟩
  · rw [hcode, hsymbols, hcopied, List.append_assoc copied, Code.symbols_append copied,
      ← List.append_assoc]
    rfl
  · have hboth := hcopies.append hlead
    simp only [andThen_done_right] at hboth
    exact hboth

end Emitter

end TapeLowering
