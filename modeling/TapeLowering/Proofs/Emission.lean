import TapeLowering.Code.Text
import TapeLowering.Command.Emitter

/-!
# What an emission consists of

An emission that succeeds is a sequence of smaller ones that do. Each lemma here takes one kind of
emission apart, so that no proof about emitted code has to open the emitter.

All code is made of four kinds of emission: pushing an instruction, moving to a slot, a loop, and one
emission after another. The others come down to these: a reset is a loop that takes one from its own
origin (`onCell_clear`), setting a cell is a reset and an addition (`set_eq_ok_iff`), and a branch
and a drain are loops by definition. What leads from each emitter to the next one in all of this leads
from the emitter before commands to the one behind them (`Tracks.emitAll`).
-/

namespace TapeLowering

namespace Emitter

variable {e e' : Emitter} {x : Slot} {i : Instruction}

/-! ## Instructions and moves -/

/-- A push succeeds if the instruction can be put behind the code, and changes the code alone. -/
theorem push_eq_ok_iff : push i e = .ok e' ↔ ∃ c, e.code.push i = .ok c ∧ { e with code := c } = e' :=
  Violation.map_eq_ok_iff

/-- A push leaves the slots as they are. -/
theorem stack_of_push (h : push i e = .ok e') : e'.stack = e.stack := by
  obtain ⟨c, _, rfl⟩ := push_eq_ok_iff.mp h
  rfl

theorem symbols_of_push (h : push i e = .ok e') :
    e'.code.symbols = e.code.symbols ++ i.symbols := by
  obtain ⟨c, hc, rfl⟩ := push_eq_ok_iff.mp h
  exact Code.symbols_of_push hc

/-- Some code is emitted as it is, behind the code before it. -/
theorem extend_eq_ok {c : Code} (h : extend c e = .ok e') :
    e'.stack = e.stack ∧ e'.code.symbols = e.code.symbols ++ c.symbols := by
  obtain ⟨d, hd, rfl⟩ := Violation.map_eq_ok_iff.mp h
  exact ⟨rfl, Code.symbols_of_extend hd⟩

/-- The move to a slot goes as far as the slot is away from the cursor. -/
theorem seek_eq_ok (h : seek x e = .ok e') :
    e'.stack = e.stack.pointAt x ∧ ∃ a : Amount, a.val = (x.index : Int) - e.cursor ∧
      e'.code.symbols = e.code.symbols ++ (Instruction.right a).symbols := by
  obtain ⟨moves, hmoves, h⟩ := Violation.bind_eq_ok_iff.mp h
  obtain ⟨a, ha, rfl⟩ := Violation.map_eq_ok_iff.mp hmoves
  obtain ⟨hstack, hsymbols⟩ := extend_eq_ok h
  refine ⟨hstack, a, Amount.ofInt_eq_ok_iff.mp ha, ?_⟩
  rw [hsymbols, Code.symbols_ofInstruction]

theorem cursor_of_seek (h : seek x e = .ok e') : e'.cursor = x.index := by
  rw [cursor, (seek_eq_ok h).1]
  rfl

theorem depth_of_seek (h : seek x e = .ok e') : e'.depth = e.depth := by
  rw [depth, (seek_eq_ok h).1]
  rfl

/-- There is no move to the slot that the pointer is at. -/
theorem seek_of_cursor_eq (h : e.cursor = x.index) : seek x e = .ok e := by
  have hzero : Amount.ofInt ((x.index : Int) - e.stack.cursor) = .ok { val := 0 } :=
    Amount.ofInt_eq_ok_iff.mpr (by simp [← h, cursor])
  have hstack : e.stack.pointAt x = e.stack := by rw [SlotStack.pointAt, ← h, cursor]
  simp only [seek, SlotStack.seek, hzero, hstack]
  rfl

/-- An instruction on a cell is a move to it and a push. -/
theorem onCell_eq_ok_iff :
    onCell x i e = .ok e' ↔ ∃ e₁, seek x e = .ok e₁ ∧ push i e₁ = .ok e' :=
  Violation.bind_eq_ok_iff

theorem cursor_of_onCell (h : onCell x i e = .ok e') : e'.cursor = x.index := by
  obtain ⟨e₁, h₁, h⟩ := onCell_eq_ok_iff.mp h
  rw [cursor, stack_of_push h]
  exact cursor_of_seek h₁

/-- An instruction on a cell makes no slot live, and ends the life of none. -/
theorem depth_of_onCell (h : onCell x i e = .ok e') : e'.depth = e.depth := by
  obtain ⟨e₁, h₁, h⟩ := onCell_eq_ok_iff.mp h
  rw [depth, stack_of_push h]
  exact depth_of_seek h₁

/-- A further instruction on the cell of a slot needs no move. -/
theorem onCell_bind_push (x : Slot) (i j : Instruction) (e : Emitter) :
    onCell x i e >>= push j = onCell x i e >>= onCell x j := by
  cases h : onCell x i e with
  | error v => rfl
  | ok e₁ =>
    have hj : onCell x j e₁ = push j e₁ := by
      rw [onCell, seek_of_cursor_eq (cursor_of_onCell h)]
      rfl
    exact hj.symm

/-! ## Loops -/

/-- Code of its own is emitted where the slots are, and the code before it waits. -/
theorem detached_bind_eq_ok_iff {body : Emission} {k : Emitter × Code → Except Violation Emitter} :
    (e.detached body >>= k) = .ok e' ↔
      ∃ b, body { e with code := [] } = .ok b ∧ k ({ b with code := e.code }, b.code) = .ok e' := by
  simp only [detached, Violation.bind_eq_ok_iff, Violation.map_eq_ok_iff]
  constructor
  · rintro ⟨_, ⟨b, hb, rfl⟩, h⟩
    exact ⟨b, hb, h⟩
  · rintro ⟨b, hb, h⟩
    exact ⟨_, ⟨b, hb, rfl⟩, h⟩

/-- A loop is a move to its origin, the body with empty code, a move back to the origin and a push. -/
theorem loop_eq_ok_iff {body : Emission} :
    loop x body e = .ok e' ↔ ∃ e₁ e₂ e₃, seek x e = .ok e₁ ∧
      body { e₁ with code := [] } = .ok e₂ ∧ seek x e₂ = .ok e₃ ∧
      push (.loop e₃.code) { e₃ with code := e₁.code } = .ok e' := by
  constructor
  · intro h
    obtain ⟨e₁, h₁, h⟩ := Violation.bind_eq_ok_iff.mp h
    obtain ⟨e₃, h₃, h⟩ := detached_bind_eq_ok_iff.mp h
    obtain ⟨e₂, h₂, h₃⟩ := Violation.bind_eq_ok_iff.mp h₃
    exact ⟨e₁, e₂, e₃, h₁, h₂, h₃, h⟩
  · rintro ⟨e₁, e₂, e₃, h₁, h₂, h₃, h⟩
    exact Violation.bind_eq_ok_iff.mpr ⟨e₁, h₁,
      detached_bind_eq_ok_iff.mpr ⟨e₃, Violation.bind_eq_ok_iff.mpr ⟨e₂, h₂, h₃⟩, h⟩⟩

/-- The text of a loop is that of its body, with the move back, between two brackets. -/
theorem symbols_of_push_loop {c : Code} (h : push (.loop c) e = .ok e') :
    e'.code.symbols = e.code.symbols ++ .loopStart :: (c.symbols ++ [.loopEnd]) :=
  symbols_of_push h

/-- The pointer is at the origin behind a loop, however often the loop runs. -/
theorem cursor_of_loop {body : Emission} (h : loop x body e = .ok e') : e'.cursor = x.index := by
  obtain ⟨e₁, e₂, e₃, _, _, h₃, h⟩ := loop_eq_ok_iff.mp h
  have h₃ : e₃.stack.cursor = x.index := cursor_of_seek h₃
  rw [cursor, stack_of_push h]
  exact h₃

/-- A reset is the loop that takes one from its own origin. -/
theorem onCell_clear (x : Slot) : onCell x .clear = loop x (onCell x (.add .negOne)) := by
  funext e
  cases h₁ : seek x e with
  | error v => simp only [onCell, loop, h₁, bind, Except.bind]
  | ok e₁ =>
    have hcursor : e₁.stack.cursor = x.index := cursor_of_seek h₁
    have hseek : ∀ c, seek x { e₁ with code := c } = .ok { e₁ with code := c } :=
      fun c => seek_of_cursor_eq hcursor
    -- the body starts at its origin, so neither of its moves is emitted
    have hbody : onCell x (.add .negOne) { e₁ with code := [] }
        = .ok { e₁ with code := [.add .negOne] } := by
      rw [onCell, hseek]
      rfl
    have hloop : loop x (onCell x (.add .negOne)) e = push .clear e₁ := by
      simp only [loop, detached, h₁, hbody, hseek, bind, Except.bind, Except.map]
      rfl
    rw [hloop, onCell, h₁]
    rfl

theorem set_of_lt {value : Cell} (h : value.toNat < 0x8000000000000000) :
    set x value = fun e => onCell x .clear e >>= push (.add (.ofNat value.toNat h)) :=
  funext fun _ => dif_pos h

theorem set_of_not_lt {value : Cell} (h : ¬ value.toNat < 0x8000000000000000) :
    set x value = fun _ => .error .setTooLarge :=
  funext fun _ => dif_neg h

/-- Setting a cell is a reset, followed by an addition of the value. -/
theorem set_eq_ok_iff {value : Cell} : set x value e = .ok e' ↔
    ∃ h : value.toNat < 0x8000000000000000,
      (onCell x .clear e >>= onCell x (.add (.ofNat value.toNat h))) = .ok e' := by
  unfold set
  split
  · rename_i h
    rw [onCell_bind_push]
    exact ⟨fun hset => ⟨h, hset⟩, fun ⟨_, hset⟩ => hset⟩
  · rename_i h
    simp only [reduceCtorEq, false_iff]
    exact fun hset => h hset.1

theorem drain_self (x : Slot) (change : Amount) : drain x x change = fun _ => .error .sameSlot :=
  funext fun _ => if_pos rfl

/-- Between two slots, a drain is a loop that takes one from the source and changes the destination. -/
theorem drain_of_ne {y : Slot} (h : x ≠ y) (change : Amount) : drain x y change
    = loop x fun e => onCell x (.add .negOne) e >>= onCell y (.add change) :=
  funext fun _ => if_neg h

/-- A drain is emitted between two slots only, and then it is a loop. -/
theorem drain_eq_ok_iff {y : Slot} {change : Amount} : drain x y change e = .ok e' ↔
    x ≠ y ∧ loop x (fun e => onCell x (.add .negOne) e >>= onCell y (.add change)) e = .ok e' := by
  unfold drain
  split <;> simp_all

/-! ## Scopes and fragments -/

/-- The end of a life changes neither the code nor the cursor, and there is one live slot less. -/
theorem release_eq_ok (h : release x e = .ok e') :
    e'.code = e.code ∧ e'.cursor = e.cursor ∧ e'.depth + 1 = e.depth := by
  obtain ⟨stack, hstack, rfl⟩ := Violation.map_eq_ok_iff.mp h
  obtain ⟨others, hlive, rfl⟩ := SlotStack.release_eq_ok_iff.mp hstack
  exact ⟨rfl, rfl, by simp [depth, SlotStack.depth, hlive]⟩

/-- A scope makes the next slot live before its body, and ends that life behind it. -/
theorem scope_eq_ok_iff {body : Emission} : scope body e = .ok e' ↔
    ∃ e₁, body e.allocate = .ok e₁ ∧ release e.stack.next e₁ = .ok e' :=
  Violation.bind_eq_ok_iff

/-- A list of commands is the first one and then the others. -/
theorem emitAll_cons_eq_ok_iff {c : Command} {rest : List Command} :
    emitAll (c :: rest) e = .ok e' ↔ ∃ e₁, emit c e = .ok e₁ ∧ emitAll rest e₁ = .ok e' :=
  Violation.bind_eq_ok_iff

theorem emitAll_singleton (c : Command) : emitAll [c] = emit c := by
  funext e
  exact bind_pure (emit c e)

/-- A fragment is emitted apart and kept by its name. -/
theorem emit_detach (fragment : String) (body : List Command) : emit (.detach fragment body)
    = fun e => e.detached (emitAll body) >>= fun p => .ok (p.1.keep fragment p.2) := by
  funext e
  simp only [emit]
  cases e.detached (emitAll body) <;> rfl

/-- A fragment that is placed where it is kept is its body, generated apart from the code before. -/
theorem detach_append_eq_ok_iff {fragment : String} {body : List Command} :
    emitAll [.detach fragment body, .append fragment] e = .ok e' ↔
      ∃ b, emitAll body { e with code := [] } = .ok b ∧
        ∃ e₁, extend b.code { b with code := e.code } = .ok e₁ ∧ e₁.keep fragment b.code = e' := by
  -- that the fragment is kept does not matter for its place
  have hkeep : ∀ b : Emitter, append fragment ({ b with code := e.code }.keep fragment b.code)
      = (extend b.code { b with code := e.code }).map (·.keep fragment b.code) := by
    intro b
    simp only [append, keep, List.lookup_cons_self, extend]
    cases e.code.extend b.code <;> rfl
  rw [emitAll_cons_eq_ok_iff, emit_detach]
  simp only [emitAll_cons_eq_ok_iff]
  constructor
  · rintro ⟨_, hdetach, e₂, happend, ⟨⟩⟩
    obtain ⟨b, hb, ⟨⟩⟩ := detached_bind_eq_ok_iff.mp hdetach
    exact ⟨b, hb, Violation.map_eq_ok_iff.mp ((hkeep b).symm.trans happend)⟩
  · rintro ⟨b, hb, hplace⟩
    exact ⟨_, detached_bind_eq_ok_iff.mpr ⟨b, hb, rfl⟩, e',
      (hkeep b).trans (Violation.map_eq_ok_iff.mpr hplace), rfl⟩

/-- A fragment that is placed where it is kept: its body is emitted on its own, and its symbols are
added to the code. -/
theorem emitAll_pair_eq_ok {fragment : String} {body rest : List Command}
    (h : emitAll (.detach fragment body :: .append fragment :: rest) e = .ok e') :
    ∃ e₁ e₂, emitAll body { e with code := [] } = .ok e₁ ∧
      emitAll [.detach fragment body, .append fragment] e = .ok e₂ ∧ e₂.stack = e₁.stack ∧
      e₂.code.symbols = e.code.symbols ++ e₁.code.symbols ∧ emitAll rest e₂ = .ok e' := by
  obtain ⟨kept, hkept, h⟩ := emitAll_cons_eq_ok_iff.mp h
  obtain ⟨e₂, happend, hrest⟩ := emitAll_cons_eq_ok_iff.mp h
  have hpair : emitAll [.detach fragment body, .append fragment] e = .ok e₂ :=
    emitAll_cons_eq_ok_iff.mpr ⟨kept, hkept, emitAll_cons_eq_ok_iff.mpr ⟨e₂, happend, rfl⟩⟩
  obtain ⟨e₁, h₁, _, hextend, rfl⟩ := detach_append_eq_ok_iff.mp hpair
  obtain ⟨hstack, hsymbols⟩ := extend_eq_ok hextend
  exact ⟨e₁, _, h₁, hpair, hstack, hsymbols, hrest⟩

/-! ## What holds between the emitters before and behind commands -/

/-- A relation that leads from an emitter to the one behind each part of the generation of code. -/
structure Tracks (R : Emitter → Emitter → Prop) : Prop where
  refl (e : Emitter) : R e e
  trans {e e' e'' : Emitter} : R e e' → R e' e'' → R e e''
  pointAt (e : Emitter) (x : Slot) : R e { e with stack := e.stack.pointAt x }
  allocate (e : Emitter) : R e e.allocate
  release {e e' : Emitter} {x : Slot} : release x e = .ok e' → R e e'
  push {e e' : Emitter} {i : Instruction} : push i e = .ok e' → R e e'
  extend {e e' : Emitter} {c : Code} : extend c e = .ok e' → R e e'
  detached {e e' : Emitter} : R { e with code := [] } e' → R e { e' with code := e.code }
  keep (e : Emitter) (fragment : String) (c : Code) : R e (e.keep fragment c)

namespace Tracks

variable {R : Emitter → Emitter → Prop} {f g : Emission}

/-- What leads from step to step leads over two steps in a row. -/
theorem bind (hR : Tracks R) (hf : ∀ {e e'}, f e = .ok e' → R e e')
    (hg : ∀ {e e'}, g e = .ok e' → R e e') (h : (f e >>= g) = .ok e') : R e e' := by
  obtain ⟨e₁, h₁, h₂⟩ := Violation.bind_eq_ok_iff.mp h
  exact hR.trans (hf h₁) (hg h₂)

/-- A move to a slot is the pointer there and the code for the way. -/
theorem seek (hR : Tracks R) (h : seek x e = .ok e') : R e e' := by
  obtain ⟨moves, _, h⟩ := Violation.bind_eq_ok_iff.mp h
  exact hR.trans (hR.pointAt e x) (hR.extend h)

theorem onCell (hR : Tracks R) (h : onCell x i e = .ok e') : R e e' := hR.bind hR.seek hR.push h

/-- A loop is a move, the body with the code put aside, a move and a push. -/
theorem loop (hR : Tracks R) (hf : ∀ {e e'}, f e = .ok e' → R e e') (h : loop x f e = .ok e') :
    R e e' := by
  obtain ⟨e₁, e₂, e₃, h₁, h₂, h₃, h⟩ := loop_eq_ok_iff.mp h
  have hround := hR.trans (hf h₂) (hR.seek h₃)
  exact hR.trans (hR.seek h₁) (hR.trans (hR.detached hround) (hR.push h))

mutual

/-- Every command is made of the steps that the relation is given for. By induction on the commands,
together with `Tracks.emitAll`. -/
theorem emit (hR : Tracks R) (c : Command) {e e' : Emitter} (h : emit c e = .ok e') : R e e' := by
  cases c with
  | allocate =>
    cases h
    exact hR.allocate e
  | release x => exact hR.release h
  | increment | decrement | reset | read | write => exact hR.onCell h
  | set x v =>
    obtain ⟨_, h⟩ := set_eq_ok_iff.mp h
    exact hR.bind hR.onCell hR.onCell h
  | transfer | deduct => exact hR.loop (hR.bind hR.onCell hR.onCell) (drain_eq_ok_iff.mp h).2
  | loop x body => exact hR.loop (hR.emitAll body) h
  | branch x body => exact hR.loop (hR.bind (hR.emitAll body) hR.onCell) h
  | scope body =>
    obtain ⟨e₁, h₁, h₂⟩ := scope_eq_ok_iff.mp h
    exact hR.trans (hR.allocate e) (hR.trans (hR.emitAll body h₁) (hR.release h₂))
  -- the body is emitted with the code put aside, so the relation has to lead through that as well
  | detach fragment body =>
    rw [emit_detach] at h
    obtain ⟨b, hb, ⟨⟩⟩ := detached_bind_eq_ok_iff.mp h
    exact hR.trans (hR.detached (hR.emitAll body hb)) (hR.keep _ fragment b.code)
  | append fragment =>
    rw [Emitter.emit, append] at h
    split at h
    · exact hR.extend h
    · cases h
  | unknown word => cases h

/-- A list of commands is a row of such steps. -/
theorem emitAll (hR : Tracks R) (cs : List Command) {e e' : Emitter}
    (h : emitAll cs e = .ok e') : R e e' := by
  match cs with
  | [] =>
    cases h
    exact hR.refl e
  | c :: rest => exact hR.bind (hR.emit c) (hR.emitAll rest) h

end

end Tracks

/-! ## Code that was emitted before stays -/

/-- The second emitter has all symbols of the first one, and perhaps some behind them. -/
def Extends (e' e : Emitter) : Prop := ∃ t, e'.code.symbols = e.code.symbols ++ t

namespace Extends

variable {e'' : Emitter}

theorem refl (e : Emitter) : Extends e e := ⟨[], (List.append_nil _).symm⟩

theorem trans (h : Extends e'' e') (h' : Extends e' e) : Extends e'' e := by
  obtain ⟨t, ht⟩ := h
  obtain ⟨t', ht'⟩ := h'
  exact ⟨t' ++ t, by rw [ht, ht', List.append_assoc]⟩

theorem size_le (h : Extends e' e) : e.code.size ≤ e'.code.size := by
  obtain ⟨t, ht⟩ := h
  rw [Code.size_of_symbols ht]
  exact Nat.le_add_right _ _

end Extends

/-- Nothing that is emitted takes code away: a fragment is emitted apart, and the code from before is
there again behind it. -/
theorem tracks_extends : Tracks fun e e' => Extends e' e where
  refl := .refl
  trans h h' := h'.trans h
  pointAt e _ := .refl e
  allocate e := .refl e
  release h := ⟨[], by rw [(release_eq_ok h).1, List.append_nil]⟩
  push h := ⟨_, symbols_of_push h⟩
  extend h := ⟨_, (extend_eq_ok h).2⟩
  detached {e _} _ := .refl e
  keep e _ _ := .refl e

theorem extends_of_seek (h : seek x e = .ok e') : Extends e' e := tracks_extends.seek h

theorem extends_of_onCell (h : onCell x i e = .ok e') : Extends e' e := tracks_extends.onCell h

theorem extends_of_emit {c : Command} (h : emit c e = .ok e') : Extends e' e :=
  tracks_extends.emit c h

theorem extends_of_emitAll {cs : List Command} (h : emitAll cs e = .ok e') : Extends e' e :=
  tracks_extends.emitAll cs h

end Emitter

end TapeLowering
