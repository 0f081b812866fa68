import TapeLowering.Proofs.Emission
import TapeLowering.Proofs.UnitSteps

/-!
# Emitted code does what was meant

An emission realizes a computation on stores if, from any emitter at all, the code that it emits does
to a tape what the computation does to the store. The pointer has to be at the cursor when the code
starts, and it is at the new cursor when the code is done.

The code that was emitted before does not matter, and neither does it that the first instruction
emitted may be fused with the last one before: `Realizes` speaks of code with the same symbols in
which nothing is fused.

`realizes_emit` is the induction over the commands. What a command means at once is a loop in its
code, so the rules here are those of moves, single instructions and loops, and `Realizes.refine`
passes from the loops to what they come to.
-/

namespace TapeLowering

open Outcome

/-- The cells of a workspace, with its inputs and outputs, but without its pointer. -/
def Workspace.store (w : Workspace) : Store := ⟨w.tape.cellAt, w.inputs, w.written⟩

/-- The workspace has what the store has, and its pointer at an index. -/
def Shows (cursor : Nat) (s : Store) (w : Workspace) : Prop :=
  w.tape.pointer = cursor ∧ w.store = s

/-- The failure of a workspace happens after the same inputs and outputs as that of a store. -/
def Accompanies (s : Store) (w : Workspace) : Prop := s.SameStreams w.store

variable {cursor : Nat} {s : Store} {w : Workspace} {x y : Slot}

namespace Shows

theorem accompanies (h : Shows cursor s w) : Accompanies s w := by
  rw [Accompanies, h.2]
  exact ⟨rfl, rfl⟩

theorem get_eq (h : Shows x.index s w) : s.get x = w.tape.current := by
  rw [← h.2, Store.get, ← h.1]
  exact w.tape.cellAt_pointer

/-- A store and a workspace that agree do so after the cell under the pointer has been written in
both. -/
theorem put (h : Shows x.index s w) (v : Cell) :
    Shows x.index (s.put x v) (w.withTape (w.tape.put v)) := by
  obtain ⟨hpointer, rfl⟩ := h
  refine ⟨hpointer, ?_⟩
  simp only [Workspace.store, Workspace.withTape, Store.put, Store.mk.injEq, and_true]
  funext i
  rw [Tape.cellAt_put, hpointer]

/-- The machine looks at the cell of a slot to decide what the slot decides. -/
theorem test_eq (h : Shows x.index s w) : (s.get x != 0) = !w.isZero := by
  rw [h.get_eq, Workspace.isZero, Tape.isZero]
  rfl

end Shows

/-! ## Actions -/

/-- An increment of the tape is that of the store. -/
theorem matches_increment (h : Shows x.index s w) :
    Matches (Shows x.index) Accompanies (s.increment x) (.ofExcept w (w.perform .increment)) := by
  rw [Store.increment, h.get_eq, Workspace.perform, Tape.increment]
  cases w.tape.current.succ? with
  | some v => exact h.put v
  | none => exact ⟨by rw [h.1], h.accompanies⟩

theorem matches_decrement (h : Shows x.index s w) :
    Matches (Shows x.index) Accompanies (s.decrement x) (.ofExcept w (w.perform .decrement)) := by
  rw [Store.decrement, h.get_eq, Workspace.perform, Tape.decrement]
  cases w.tape.current.pred? with
  | some v => exact h.put v
  | none => exact ⟨by rw [h.1], h.accompanies⟩

/-- A read takes the same input into the same cell. -/
theorem matches_read (h : Shows x.index s w) :
    Matches (Shows x.index) Accompanies (s.read x) (.ofExcept w (w.perform .read)) := by
  have hinputs : s.inputs = w.inputs := by
    rw [← h.2]
    rfl
  rw [Store.read, hinputs, Workspace.perform, Workspace.read]
  cases w.inputs with
  | nil => exact ⟨rfl, h.accompanies⟩
  | cons v rest =>
    obtain ⟨hpointer, hstore⟩ := h.put v
    exact ⟨hpointer, by rw [← hstore]; rfl⟩

theorem matches_write (h : Shows x.index s w) :
    Matches (Shows x.index) Accompanies (s.write x) (.ofExcept w (w.perform .write)) := by
  have hget := h.get_eq
  obtain ⟨hpointer, rfl⟩ := h
  rw [Store.write, hget]
  exact ⟨hpointer, rfl⟩

/-- An action that does on the tape what is meant on the store does so any number of times. -/
theorem matches_performTimes {a : Action} {act : Store → Outcome Store}
    (hact : ∀ {s w}, Shows x.index s w →
      Matches (Shows x.index) Accompanies (act s) (.ofExcept w (w.perform a)))
    (n : Nat) (h : Shows x.index s w) :
    Matches (Shows x.index) Accompanies (times act n s) (w.performTimes a n) := by
  induction n generalizing s w with
  | zero => exact h
  | succ n ih =>
    have hfirst := hact h
    rw [Workspace.performTimes, times, times]
    cases ho : act s with
    | done s₁ =>
      obtain ⟨w₁, hw₁, h₁⟩ := matches_done_iff.mp (ho ▸ hfirst)
      rw [hw₁]
      exact ih h₁
    | failed fault s₁ =>
      obtain ⟨w₁, hw₁, h₁⟩ := matches_failed_iff.mp (ho ▸ hfirst)
      rw [hw₁]
      exact ⟨rfl, h₁⟩
    | unfinished => exact absurd ho hfirst.known.1

/-! ## Moves -/

/-- Moves to the right take the pointer there and change nothing of the store. -/
theorem exists_performTimes_right (n : Nat) (w : Workspace) :
    ∃ w', w.performTimes .right n = .done w' ∧ Shows (w.tape.pointer + n) w.store w' := by
  induction n generalizing w with
  | zero => exact ⟨w, rfl, rfl, rfl⟩
  | succ n ih =>
    obtain ⟨w', hw', hpointer, hstore⟩ := ih (w.withTape w.tape.right)
    have hright : (w.withTape w.tape.right).store = w.store := by
      simp only [Workspace.store, Workspace.withTape, Store.mk.injEq, and_true]
      exact funext w.tape.cellAt_right
    refine ⟨w', hw', ?_, hstore.trans hright⟩
    rw [hpointer]
    simp only [Workspace.withTape, Tape.pointer_right]
    omega

/-- Moves to the left take the pointer there and change nothing of the store, if there are as many
cells. -/
theorem exists_performTimes_left (n : Nat) (w : Workspace) (hn : n ≤ w.tape.pointer) :
    ∃ w', w.performTimes .left n = .done w' ∧ Shows (w.tape.pointer - n) w.store w' := by
  induction n generalizing w with
  | zero => exact ⟨w, rfl, rfl, rfl⟩
  | succ n ih =>
    obtain ⟨u, hu⟩ := Tape.exists_left_of_pos (t := w.tape) (by omega)
    have hpu := Tape.pointer_of_left hu
    obtain ⟨w', hw', hpointer, hstore⟩ := ih (w.withTape u) (by simp only [Workspace.withTape]; omega)
    have hleft : (w.withTape u).store = w.store := by
      simp only [Workspace.store, Workspace.withTape, Store.mk.injEq, and_true]
      exact funext (Tape.cellAt_of_left hu)
    refine ⟨w', ?_, ?_, hstore.trans hleft⟩
    · rw [Workspace.performTimes, times, Workspace.perform, hu]
      exact hw'
    · rw [hpointer]
      simp only [Workspace.withTape]
      omega

/-- A move from one index to another one changes the pointer only. -/
theorem exists_run_right {a : Amount} (ha : a.val = (x.index : Int) - cursor)
    (h : Shows cursor s w) : ∃ w', (∀ fuel, (Instruction.right a).run fuel w = .done w') ∧
      Shows x.index s w' := by
  obtain ⟨rfl, rfl⟩ := h
  by_cases hpos : 0 ≤ a.val
  · obtain ⟨w', hw', hpointer, hstore⟩ := exists_performTimes_right a.magnitude w
    refine ⟨w', fun _ => ?_, ?_, hstore⟩
    · rw [Instruction.run, Amount.direction, if_pos hpos, hw']
    · rw [hpointer, Amount.magnitude]
      omega
  · obtain ⟨w', hw', hpointer, hstore⟩ := exists_performTimes_left a.magnitude w
      (by rw [Amount.magnitude]; omega)
    refine ⟨w', fun _ => ?_, ?_, hstore⟩
    · rw [Instruction.run, Amount.direction, if_neg hpos, hw']
    · rw [hpointer, Amount.magnitude]
      omega

/-! ## Emissions -/

/-- Code that does what a computation means, from one position of the pointer to another one. -/
def Code.Performs (d : Code) (start finish : Nat) (meant : Nat → Store → Outcome Store) : Prop :=
  ∀ s w, Shows start s w →
    Refines (Shows finish) Accompanies (fun fuel => meant fuel s) (fun fuel => d.run fuel w)

/-- Whatever an emission emits does what a computation means. -/
def Emission.Realizes (f : Emission) (meant : Nat → Store → Outcome Store) : Prop :=
  ∀ e e', f e = .ok e' → ∃ d : Code, e'.code.symbols = e.code.symbols ++ d.symbols ∧
    d.Performs e.cursor e'.cursor meant

/-- Code behind other code performs one computation after the other. -/
theorem Code.Performs.append {d d' : Code} {start mid finish : Nat}
    {m m' : Nat → Store → Outcome Store} (h : d.Performs start mid m)
    (h' : d'.Performs mid finish m') :
    (d ++ d').Performs start finish fun fuel s => (m fuel s).andThen (m' fuel) := by
  intro s w hw
  simp only [Code.run_append]
  exact (h s w hw).andThen (d.growing_run w) d'.growing_run h'

namespace Emission.Realizes

open Emitter

variable {f g : Emission} {m m' : Nat → Store → Outcome Store}

/-- Two emissions in a row realize one computation after the other, since the second one starts where
the first one leaves the pointer. -/
theorem bind (hf : f.Realizes m) (hg : g.Realizes m') :
    Realizes (fun e => f e >>= g) fun fuel s => (m fuel s).andThen (m' fuel) := by
  intro e e' h
  obtain ⟨e₁, h₁, h₂⟩ := Violation.bind_eq_ok_iff.mp h
  obtain ⟨d, hd, hperf⟩ := hf e e₁ h₁
  obtain ⟨d', hd', hperf'⟩ := hg e₁ e' h₂
  refine ⟨d ++ d', ?_, hperf.append hperf'⟩
  rw [hd', hd, Code.symbols_append, List.append_assoc]

/-- What an emission realizes may be told in another way. -/
theorem refine (hf : f.Realizes m)
    (h : ∀ s, Refines Eq Store.SameStreams (fun n => m' n s) (fun n => m n s)) : f.Realizes m' := by
  intro e e' he
  obtain ⟨d, hd, hperf⟩ := hf e e' he
  refine ⟨d, hd, fun s w hw => (h s).trans (hperf s w hw) ?_ ?_⟩
  · rintro s t w rfl hw
    exact hw
  · exact fun s t w hst htw => Store.SameStreams.trans hst htw

end Emission.Realizes

namespace Emitter

/-- An emission that leaves the code and the cursor alone means that nothing happens. -/
theorem realizes_done {f : Emission} (h : ∀ {e e'}, f e = .ok e' →
    e'.code = e.code ∧ e'.cursor = e.cursor) : f.Realizes fun _ => .done := by
  intro e e' he
  obtain ⟨hcode, hcursor⟩ := h he
  refine ⟨[], by rw [hcode, Code.symbols, List.append_nil], fun s w hw => ?_⟩
  rw [hcursor]
  exact Matches.refines hw

/-- A move to a slot changes nothing of the store. -/
theorem performs_right {a : Amount} (ha : a.val = (x.index : Int) - cursor) :
    Code.Performs [.right a] cursor x.index fun _ => .done := by
  intro s w hw
  obtain ⟨w', hw', hshows⟩ := exists_run_right ha hw
  simp only [Code.run, hw', andThen_done]
  exact Matches.refines hshows

/-- An instruction on the cell of a slot does to the slot what it does to the cell. -/
theorem realizes_onCell {i : Instruction} {m : Nat → Store → Outcome Store}
    (hi : Code.Performs [i] x.index x.index m) : (onCell x i).Realizes m := by
  intro e e' h
  obtain ⟨e₁, h₁, h₂⟩ := onCell_eq_ok_iff.mp h
  obtain ⟨_, a, ha, hsymbols⟩ := seek_eq_ok h₁
  refine ⟨[.right a] ++ [i], ?_, ?_⟩
  · rw [symbols_of_push h₂, hsymbols]
    simp [Code.symbols]
  · rw [cursor_of_onCell h]
    simpa only [andThen_done] using (performs_right ha).append hi

/-- An addition is a number of unit steps. -/
theorem realizes_add (x : Slot) (a : Amount) : (onCell x (.add a)).Realizes
    fun _ => times (a.direction (Store.increment x) (Store.decrement x)) a.magnitude := by
  apply realizes_onCell
  intro s w hw
  simp only [Code.run, Instruction.run, andThen_done_right]
  refine (matches_performTimes (fun h => ?_) a.magnitude hw).refines
  unfold Amount.direction
  split
  · exact matches_increment h
  · exact matches_decrement h

/-- One more in a cell realizes an increment of the store. -/
theorem realizes_increment (x : Slot) :
    (onCell x (.add .one)).Realizes fun _ => Store.increment x := by
  simpa only [Amount.direction_one, Amount.magnitude_one, times_one] using realizes_add x .one

theorem realizes_decrement (x : Slot) :
    (onCell x (.add .negOne)).Realizes fun _ => Store.decrement x := by
  simpa only [Amount.direction_negOne, Amount.magnitude_negOne, times_one]
    using realizes_add x .negOne

theorem realizes_read (x : Slot) : (onCell x .read).Realizes fun _ => Store.read x := by
  apply realizes_onCell
  intro s w hw
  simpa only [Code.run, Instruction.run, andThen_done_right, times_one]
    using (matches_performTimes matches_read 1 hw).refines

theorem realizes_write (x : Slot) : (onCell x .write).Realizes fun _ => Store.write x := by
  apply realizes_onCell
  intro s w hw
  simpa only [Code.run, Instruction.run, andThen_done_right, times_one]
    using (matches_performTimes matches_write 1 hw).refines

/-! ## Loops -/

/-- A loop whose body returns to the origin is a loop on the slot. -/
theorem performs_loop {d : Code} {m : Nat → Store → Outcome Store} {b : Amount}
    (hd : d.Performs x.index cursor m) (hb : b.val = (x.index : Int) - cursor) :
    Code.Performs [.loop (d ++ [.right b])] x.index x.index
      fun fuel => .repeatWhile (fun s => s.get x != 0) (m fuel) fuel := by
  have hround : (d ++ [.right b] : Code).Performs x.index x.index m := by
    simpa only [andThen_done_right] using hd.append (performs_right hb)
  intro s w hw
  simp only [Code.run, Instruction.run, andThen_done_right]
  exact Refines.repeatWhile (Code.growing_run _) (fun _ _ h => h.test_eq) hround hw

/-- A loop realizes the repetition of what its body realizes: the pointer is at the origin before and
after every round. -/
theorem realizes_loop {body : Emission} {m : Nat → Store → Outcome Store} (hm : body.Realizes m) :
    (loop x body).Realizes fun fuel => .repeatWhile (fun s => s.get x != 0) (m fuel) fuel := by
  intro e e' h
  obtain ⟨e₁, e₂, e₃, h₁, h₂, h₃, h₄⟩ := loop_eq_ok_iff.mp h
  obtain ⟨_, a, ha, hsymbols₁⟩ := seek_eq_ok h₁
  obtain ⟨d, hd, hperf⟩ := hm _ e₂ h₂
  obtain ⟨_, b, hb, hsymbols₃⟩ := seek_eq_ok h₃
  have hcursor : e₁.stack.cursor = x.index := cursor_of_seek h₁
  rw [show cursor { e₁ with code := [] } = x.index from hcursor] at hperf
  -- the move back to the origin is part of the body
  refine ⟨[.right a] ++ [.loop (d ++ [.right b])], ?_, ?_⟩
  · rw [symbols_of_push h₄, hsymbols₁]
    simp [Code.symbols, Instruction.symbols, hsymbols₃, hd]
  · rw [cursor_of_loop h]
    simpa only [andThen_done] using (performs_right ha).append (performs_loop hperf hb)

theorem realizes_reset (x : Slot) :
    (onCell x .clear).Realizes fun _ s => .done (s.put x 0) := by
  rw [onCell_clear]
  exact (realizes_loop (realizes_decrement x)).refine fun s => s.refines_reset x

/-- A set realizes putting the value: the cell is emptied, and the value is added to it. -/
theorem realizes_set (x : Slot) (v : Cell) : (set x v).Realizes fun _ s => .done (s.put x v) := by
  intro e e' h
  obtain ⟨hv, h⟩ := set_eq_ok_iff.mp h
  have hboth := (realizes_reset x).bind (realizes_add x (.ofNat v.toNat hv)) e e' h
  simpa only [andThen_done, Amount.direction_ofNat, Amount.magnitude_ofNat,
    Store.times_increment_zero] using hboth

/-- A drain realizes moving the source cell by cell, and thus what that comes to. -/
theorem realizes_drain {change : Amount} {step : Cell → Option Cell} {fault : Fault}
    (hchange : (onCell y (.add change)).Realizes
      fun _ s => s.change y (step (s.get y)) fault) :
    (drain x y change).Realizes fun _ => Store.drain x y step fault := by
  intro e e' h
  obtain ⟨hne, h⟩ := drain_eq_ok_iff.mp h
  exact (realizes_loop ((realizes_decrement x).bind hchange)).refine
    (fun s => s.refines_drain hne step fault) e e' h

/-- A branch realizes its body and a reset, or nothing: it has one round at most. -/
theorem realizes_branch {body : Emission} {m : Nat → Store → Outcome Store} (hm : body.Realizes m)
    (hgrow : ∀ s, Growing fun n => m n s) : (branch x body).Realizes fun fuel s =>
      if s.get x = 0 then .done s else (m fuel s).andThen fun s => .done (s.put x 0) :=
  (realizes_loop (hm.bind (realizes_reset x))).refine fun s => Store.refines_branch hgrow x s

theorem realizes_release (x : Slot) : (release x).Realizes fun _ => .done :=
  realizes_done fun h => ⟨(release_eq_ok h).1, (release_eq_ok h).2.1⟩

/-- A scope realizes what its body does, as neither of its ends emits code. -/
theorem realizes_scope {body : Emission} {m : Nat → Store → Outcome Store} (hm : body.Realizes m) :
    (scope body).Realizes m := by
  intro e e' h
  have hboth := hm.bind (realizes_release e.stack.next) e.allocate e' h
  simp only [andThen_done_right] at hboth
  exact hboth

end Emitter

/-! ## Commands -/

mutual

/-- Whether a command and its parts keep and place no fragments. -/
def Command.isInline : Command → Bool
  | .detach _ _ | .append _ => false
  | .loop _ body | .branch _ body | .scope body => Command.areInline body
  | .allocate | .release _ | .increment _ | .decrement _ | .reset _ | .set _ _ | .read _ | .write _
  | .transfer _ _ | .deduct _ _ | .unknown _ => true

/-- Whether commands and their parts keep and place no fragments. -/
def Command.areInline : List Command → Bool
  | [] => true
  | c :: rest => c.isInline && Command.areInline rest

end

namespace Emitter

mutual

/-- Every inline command realizes what it means. By induction on the command, together with
`realizes_emitAll`. -/
theorem realizes_emit (c : Command) (h : c.isInline = true) :
    (emit c).Realizes fun fuel => c.run fuel := by
  cases c with
  | allocate => exact realizes_done fun h => by cases h; exact ⟨rfl, rfl⟩
  | release x => exact realizes_release x
  | increment x => exact realizes_increment x
  | decrement x => exact realizes_decrement x
  | reset x => exact realizes_reset x
  | set x v => exact realizes_set x v
  | read x => exact realizes_read x
  | write x => exact realizes_write x
  | transfer x y =>
    simp only [emit, Command.run, Store.transfer_eq_drain]
    exact realizes_drain (realizes_increment y)
  | deduct x y =>
    simp only [emit, Command.run, Store.deduct_eq_drain]
    exact realizes_drain (realizes_decrement y)
  | loop x body => exact realizes_loop (realizes_emitAll body h)
  | branch x body =>
    exact realizes_branch (realizes_emitAll body h) (Command.growing_runAll body)
  | scope body => exact realizes_scope (realizes_emitAll body h)
  | detach f body => cases h
  | append f => cases h
  | unknown word => exact realizes_done fun h => by cases h

/-- The code of commands does what the commands mean. -/
theorem realizes_emitAll (cs : List Command) (h : Command.areInline cs = true) :
    (emitAll cs).Realizes fun fuel => Command.runAll fuel cs := by
  match cs with
  | [] => exact realizes_done fun h => by cases h; exact ⟨rfl, rfl⟩
  | c :: rest =>
    rw [Command.areInline, Bool.and_eq_true] at h
    exact (realizes_emit c h.1).bind (realizes_emitAll rest h.2)

end

end Emitter

end TapeLowering
