import TapeLowering.Proofs.Joining
import TapeLowering.Proofs.StackDiscipline

/-!
# Code generated apart and code generated in place

Commands can be emitted behind the code of an emitter, or into empty code that is put there
afterwards. In place, every instruction may fuse with code that was there before, and it is then
that an amount may leave its range. Apart, instructions fuse with those of the same commands only,
and the two codes meet in one `Code.extend`. The results are equal, as code in normal form is put
together in any order (`Code.extend_extend_eq_ok_iff`).

`Detachable` says so of an emission. It is closed under all that emissions are made of, hence
commands are detachable (`detachable_emitAll`), and a fragment that is placed where it is kept does
what its body does there (`emitAll_and_detach_append`).
-/

namespace TapeLowering

namespace Emitter

variable {e e' : Emitter} {f g : Emission} {i : Instruction} {c : Code} {x y : Slot}

/-- Whether all code that an emitter holds is in normal form. -/
structure IsNormal (e : Emitter) : Prop where
  code : e.code.isNormal = true
  fragments : ∀ p ∈ e.fragments, p.2.isNormal = true

theorem IsNormal.replace (h : e.IsNormal) (hc : c.isNormal = true) :
    IsNormal { e with code := c } := ⟨hc, h.fragments⟩

/-- The code of an emission may be generated apart from the code before it, and put behind that
afterwards. -/
structure Detachable (f : Emission) : Prop where
  isNormal : ∀ {e e'}, e.IsNormal → f e = .ok e' → e'.IsNormal
  eq_ok_iff : ∀ {e e'}, e.IsNormal → (f e = .ok e' ↔
    ∃ b, f { e with code := [] } = .ok b ∧ extend b.code { b with code := e.code } = .ok e')

/-- Also apart from the code before, an emitter stays in normal form. -/
theorem Detachable.isNormal_apart (hf : Detachable f) (he : e.IsNormal)
    (h : f { e with code := [] } = .ok e') : e'.IsNormal :=
  hf.isNormal (he.replace Code.isNormal_nil) h

/-! ## Emissions without code -/

theorem detachable_error (v : Violation) : Detachable fun _ => .error v where
  isNormal := by simp
  eq_ok_iff := by simp

/-- What looks at the slots alone, and changes nothing else. -/
theorem detachable_stack (k : SlotStack → Except Violation SlotStack) :
    Detachable fun e => (k e.stack).map fun stack => { e with stack } where
  isNormal he h := by
    obtain ⟨stack, _, rfl⟩ := Violation.map_eq_ok_iff.mp h
    exact ⟨he.code, he.fragments⟩
  eq_ok_iff _ := by
    simp only [Violation.map_eq_ok_iff]
    constructor
    · rintro ⟨stack, hstack, rfl⟩
      exact ⟨_, ⟨stack, hstack, rfl⟩, rfl⟩
    · rintro ⟨_, ⟨stack, hstack, rfl⟩, h⟩
      exact ⟨stack, hstack, Except.ok.inj h⟩

/-- Keeping a fragment is the same with any code before it. -/
theorem detachable_keep (fragment : String) (hc : c.isNormal = true) :
    Detachable fun e => .ok (e.keep fragment c) where
  isNormal he h := by
    obtain rfl := Except.ok.inj h
    exact ⟨he.code, List.forall_mem_cons.mpr ⟨hc, he.fragments⟩⟩
  eq_ok_iff _ := ⟨fun h => ⟨_, rfl, h⟩, by rintro ⟨_, ⟨⟩, h⟩; exact h⟩

/-! ## Combinations -/

/-- The emission may depend on all of the emitter but its code. -/
theorem detachable_of_context {k : SlotStack → List (String × Code) → Emission}
    (h : ∀ stack fragments, (∀ p ∈ fragments, p.2.isNormal = true) →
      Detachable (k stack fragments)) :
    Detachable fun e => k e.stack e.fragments e where
  isNormal he := (h _ _ he.fragments).isNormal he
  eq_ok_iff he := (h _ _ he.fragments).eq_ok_iff he

/-- Code put behind two others is put behind the second one first. -/
theorem extend_extend_eq_ok_iff {d : Code} {b : Emitter} (hc : c.isNormal = true)
    (hd : d.isNormal = true) (hb : b.code.isNormal = true) :
    (∃ x, c.extend d = .ok x ∧ extend b.code { b with code := x } = .ok e') ↔
      ∃ y, extend b.code { b with code := d } = .ok y ∧
        extend y.code { y with code := c } = .ok e' := by
  simp only [extend, Violation.map_eq_ok_iff]
  constructor
  · rintro ⟨x, hx, r, hr, rfl⟩
    obtain ⟨y, hy, hr⟩ := (Code.extend_extend_eq_ok_iff hc hd hb).mp ⟨x, hx, hr⟩
    exact ⟨_, ⟨y, hy, rfl⟩, r, hr, rfl⟩
  · rintro ⟨_, ⟨y, hy, rfl⟩, r, hr, rfl⟩
    obtain ⟨x, hx, hr⟩ := (Code.extend_extend_eq_ok_iff hc hd hb).mpr ⟨y, hy, hr⟩
    exact ⟨x, hx, r, hr, rfl⟩

/-- The code of the second emission is put behind that of the first one, and both behind the code
before. -/
theorem Detachable.bind (hf : Detachable f) (hg : Detachable g) :
    Detachable fun e => f e >>= g where
  isNormal he h := by
    obtain ⟨e₁, h₁, h₂⟩ := Violation.bind_eq_ok_iff.mp h
    exact hg.isNormal (hf.isNormal he h₁) h₂
  eq_ok_iff {e e'} he := by
    -- what the second emission finds in place
    have hplaced : ∀ {b : Emitter} {d : Code}, b.IsNormal → e.code.extend b.code = .ok d →
        IsNormal { b with code := d } :=
      fun hb hd => hb.replace (Code.isNormal_of_extend he.code hb.code hd)
    simp only [Violation.bind_eq_ok_iff]
    constructor
    · rintro ⟨e₁, h₁, h₂⟩
      obtain ⟨b, hb, hplace⟩ := (hf.eq_ok_iff he).mp h₁
      obtain ⟨d, hd, rfl⟩ := Violation.map_eq_ok_iff.mp hplace
      have hbn := hf.isNormal_apart he hb
      obtain ⟨b', hb', hplace'⟩ := (hg.eq_ok_iff (hplaced hbn hd)).mp h₂
      have hbn' := hg.isNormal_apart hbn hb'
      obtain ⟨y, hy, hplace⟩ :=
        (extend_extend_eq_ok_iff he.code hbn.code hbn'.code).mp ⟨d, hd, hplace'⟩
      exact ⟨y, ⟨b, hb, (hg.eq_ok_iff hbn).mpr ⟨b', hb', hy⟩⟩, hplace⟩
    · rintro ⟨y, ⟨b, hb, h₂⟩, hplace⟩
      have hbn := hf.isNormal_apart he hb
      obtain ⟨b', hb', hy⟩ := (hg.eq_ok_iff hbn).mp h₂
      have hbn' := hg.isNormal_apart hbn hb'
      obtain ⟨d, hd, hplace'⟩ :=
        (extend_extend_eq_ok_iff he.code hbn.code hbn'.code).mpr ⟨y, hy, hplace⟩
      exact ⟨{ b with code := d },
        (hf.eq_ok_iff he).mpr ⟨b, hb, Violation.map_eq_ok_iff.mpr ⟨d, hd, rfl⟩⟩,
        (hg.eq_ok_iff (hplaced hbn hd)).mpr ⟨b', hb', hplace'⟩⟩

/-- Code of its own is generated apart in any case; what becomes of it has to be detachable. -/
theorem Detachable.detached_bind {k : Code → Emission} (hf : Detachable f)
    (hk : ∀ c, c.isNormal = true → Detachable (k c)) :
    Detachable fun e => e.detached f >>= fun p => k p.2 p.1 where
  isNormal he h := by
    obtain ⟨b, hb, h⟩ := detached_bind_eq_ok_iff.mp h
    have hbn := hf.isNormal_apart he hb
    exact (hk _ hbn.code).isNormal (hbn.replace he.code) h
  eq_ok_iff he := by
    simp only [detached_bind_eq_ok_iff]
    constructor
    · rintro ⟨b, hb, h⟩
      have hbn := hf.isNormal_apart he hb
      obtain ⟨d, hd, h⟩ := ((hk _ hbn.code).eq_ok_iff (hbn.replace he.code)).mp h
      exact ⟨d, ⟨b, hb, hd⟩, h⟩
    · rintro ⟨d, ⟨b, hb, hd⟩, h⟩
      have hbn := hf.isNormal_apart he hb
      exact ⟨b, hb, ((hk _ hbn.code).eq_ok_iff (hbn.replace he.code)).mpr ⟨d, hd, h⟩⟩

/-! ## Code and moves -/

/-- Putting code in normal form behind other code is the same as putting it behind none and joining the
two. -/
theorem detachable_extend (hc : c.isNormal = true) : Detachable (extend c) where
  isNormal he h := by
    obtain ⟨d, hd, rfl⟩ := Violation.map_eq_ok_iff.mp h
    exact he.replace (Code.isNormal_of_extend he.code hc hd)
  eq_ok_iff {e e'} _ := by
    have hempty : extend c { e with code := [] } = .ok { e with code := c } := by
      simp only [extend, Code.nil_extend hc, Except.map]
    simp only [hempty, Except.ok.injEq, exists_eq_left']

/-- A push is the extension by one instruction. -/
theorem detachable_push (hi : ∀ body, i = .loop body → Code.isNormal body = true) :
    Detachable (push i) := by
  have hpush : push i = extend (.ofInstruction i) := by
    funext e
    rw [push, extend, Code.extend_ofInstruction]
  rw [hpush]
  exact detachable_extend (Code.isNormal_ofInstruction (Instruction.isIdle_or_isNormal hi))

/-- A move to a slot is the same with any code before it: its length depends on the cursor alone. -/
theorem detachable_seek (x : Slot) : Detachable (seek x) := by
  refine detachable_of_context (k := fun stack _ e => do
    extend (← stack.seek x) { e with stack := stack.pointAt x }) fun stack _ _ => ?_
  cases hmoves : stack.seek x with
  | error v => exact detachable_error v
  | ok moves =>
    obtain ⟨a, _, rfl⟩ := Violation.map_eq_ok_iff.mp hmoves
    have hnormal : (Code.ofInstruction (.right a)).isNormal = true :=
      Code.isNormal_ofInstruction (Instruction.isIdle_or_isNormal nofun)
    exact (detachable_stack fun _ => .ok (stack.pointAt x)).bind (detachable_extend hnormal)

/-- An instruction on a cell is a move and a push. -/
theorem detachable_onCell (hi : ∀ body, i = .loop body → Code.isNormal body = true) :
    Detachable (onCell x i) :=
  (detachable_seek x).bind (detachable_push hi)

theorem detachable_clear : Detachable (onCell x .clear) :=
  detachable_onCell (by rintro _ ⟨⟩; rfl)

/-- Setting a cell is detachable whether the value is in range or not. -/
theorem detachable_set (x : Slot) (v : Cell) : Detachable (set x v) := by
  by_cases h : v.toNat < 0x8000000000000000
  · rw [set_of_lt h]
    exact detachable_clear.bind (detachable_push nofun)
  · rw [set_of_not_lt h]
    exact detachable_error _

/-! ## Loops and scopes -/

/-- The body of a loop is apart anyway, so only the move before the loop and the loop itself remain. -/
theorem Detachable.loop (hf : Detachable f) : Detachable (loop x f) :=
  (detachable_seek x).bind <| (hf.bind (detachable_seek x)).detached_bind fun _ hc =>
    detachable_push (by rintro _ ⟨⟩; exact hc)

/-- A drain is detachable: it is a loop, or no code is generated for it. -/
theorem detachable_drain (change : Amount) : Detachable (drain x y change) := by
  by_cases h : x = y
  · rw [h, drain_self]
    exact detachable_error _
  · rw [drain_of_ne h]
    have hround : Detachable fun e => onCell x (.add .negOne) e >>= onCell y (.add change) :=
      .bind (detachable_onCell nofun) (detachable_onCell nofun)
    exact hround.loop

theorem detachable_allocate : Detachable fun e => .ok e.allocate :=
  detachable_stack fun stack => .ok stack.allocate

theorem detachable_release (x : Slot) : Detachable (release x) :=
  detachable_stack fun stack => stack.release x

/-- A scope is detachable if its body is, as both of its ends leave the code alone. -/
theorem Detachable.scope (hf : Detachable f) : Detachable (scope f) :=
  detachable_of_context fun stack _ _ =>
    (detachable_allocate.bind hf).bind (detachable_release stack.next)

/-- Placing a fragment is detachable, because the fragments that are kept are in normal form. -/
theorem detachable_append (fragment : String) : Detachable (append fragment) := by
  have hlookup : append fragment = fun e =>
      (e.fragments.lookup fragment).elim (.error (.unknown fragment)) (extend · e) := by
    funext e
    rw [append]
    cases e.fragments.lookup fragment <;> rfl
  rw [hlookup]
  refine detachable_of_context (k := fun _ fragments e =>
    (fragments.lookup fragment).elim (.error (.unknown fragment)) (extend · e))
    fun _ fragments hnormal => ?_
  cases hfound : fragments.lookup fragment with
  | none => exact detachable_error _
  | some c =>
    obtain ⟨_, _, rfl, _⟩ := List.lookup_eq_some_iff.mp hfound
    exact detachable_extend (hnormal (fragment, c) (by simp))

/-! ## Commands -/

mutual

/-- Every command is detachable, by the parts that it is emitted from. -/
theorem detachable_emit (command : Command) : Detachable (emit command) := by
  cases command with
  | allocate => exact detachable_allocate
  | release x => exact detachable_release x
  | increment | decrement | read | write => exact detachable_onCell nofun
  | reset => exact detachable_clear
  | set x v => exact detachable_set x v
  | transfer | deduct => exact detachable_drain _
  | loop x body => exact (detachable_emitAll body).loop
  | branch x body => exact ((detachable_emitAll body).bind detachable_clear).loop
  | scope body => exact (detachable_emitAll body).scope
  | detach fragment body =>
    rw [emit_detach]
    exact (detachable_emitAll body).detached_bind fun _ hc => detachable_keep fragment hc
  | append fragment => exact detachable_append fragment
  | unknown word => exact detachable_error _

/-- Commands may be emitted apart from the code before them. -/
theorem detachable_emitAll (commands : List Command) : Detachable (emitAll commands) := by
  match commands with
  | [] => exact detachable_stack .ok
  | command :: rest => exact (detachable_emit command).bind (detachable_emitAll rest)

end

/-! ## Fragments -/

/-- All code that commands and moves lead to is in normal form. -/
theorem Reached.isNormal (h : e.Reached) : e.IsNormal := by
  induction h with
  | start => exact ⟨rfl, nofun⟩
  | emit _ hemit ih => exact (detachable_emit _).isNormal ih hemit
  | seek _ hseek ih => exact (detachable_seek _).isNormal ih hseek
  | inside _ ih => exact ih.replace Code.isNormal_nil

/-- The text of an extension is the text before it and that of what is put there. -/
theorem text_of_extend (h : extend c e = .ok e') : e'.code.text = e.code.text ++ c.text :=
  Code.text_of_symbols (extend_eq_ok h).2

/-- Keeping the code of a body as a fragment, and placing it at once, emits it if and only if the
body itself is emitted there. Both leave the same code and the same slots. The text that is emitted
is that of the fragment, and it depends on nothing but the slots, with the pointer, and the
fragments that the body finds. -/
theorem emitAll_and_detach_append (he : e.Reached) (fragment : String) (body : List Command) :
    ((∃ e₁, emitAll body e = .ok e₁) ↔
      ∃ e₂, emitAll [.detach fragment body, .append fragment] e = .ok e₂) ∧
    ∀ e₁, emitAll body e = .ok e₁ → ∃ piece : Code,
      emitAll [.detach fragment body, .append fragment] e = .ok (e₁.keep fragment piece) ∧
      e₁.code.text = e.code.text ++ piece.text ∧
      ∀ d : Emitter, d.Reached → d.stack = e.stack → d.fragments = e.fragments →
        (∃ outer, d.detached (emitAll body) = .ok (outer, piece)) ∧
        ∀ d₁, emitAll body d = .ok d₁ → d₁.code.text = d.code.text ++ piece.text := by
  have hinline : ∀ {d d' : Emitter}, d.Reached → (emitAll body d = .ok d' ↔
      ∃ b, emitAll body { d with code := [] } = .ok b ∧
        extend b.code { b with code := d.code } = .ok d') :=
    fun hd => (detachable_emitAll body).eq_ok_iff hd.isNormal
  constructor
  · simp only [hinline he, detach_append_eq_ok_iff]
    constructor
    · rintro ⟨e₁, b, hb, hplace⟩
      exact ⟨_, b, hb, e₁, hplace, rfl⟩
    · rintro ⟨_, b, hb, e₁, hplace, rfl⟩
      exact ⟨e₁, b, hb, hplace⟩
  · intro e₁ h₁
    obtain ⟨b, hb, hplace⟩ := (hinline he).mp h₁
    refine ⟨b.code, detach_append_eq_ok_iff.mpr ⟨b, hb, e₁, hplace, rfl⟩,
      (text_of_extend hplace :), ?_⟩
    intro d hd hstack hfragments
    -- the body starts with no code in both, and finds the same slots and fragments
    have hempty : { d with code := [] } = { e with code := [] } := by rw [hstack, hfragments]
    refine ⟨⟨_, by rw [detached, hempty, hb]; rfl⟩, fun d₁ h₁ => ?_⟩
    obtain ⟨b', hb', hplace'⟩ := (hinline hd).mp h₁
    obtain rfl : b = b' := by rwa [hempty, hb, Except.ok.injEq] at hb'
    exact (text_of_extend hplace' :)

/-- The first increment of the body fuses with the one before it, in place and at its seam alike. -/
theorem emitAll_and_detach_append_increment :
    ∃ piece : Code,
      emitAll [.detach "f" [.increment ⟨0⟩, .write ⟨0⟩], .append "f"] { code := [.add .one] }
        = .ok (({ code := [.add { val := 2 }, .write] } : Emitter).keep "f" piece) ∧
      Code.text [.add { val := 2 }, .write] = Code.text [.add .one] ++ piece.text := by
  have he : Reached { code := [.add .one] } :=
    .emit (c := .increment ⟨0⟩) .start (by decide +kernel)
  have hbody : emitAll [.increment ⟨0⟩, .write ⟨0⟩] { code := [.add .one] }
      = .ok { code := [.add { val := 2 }, .write] } := by decide +kernel
  obtain ⟨piece, hpair, htext, _⟩ := (emitAll_and_detach_append he "f" _).2 _ hbody
  exact ⟨piece, hpair, htext⟩

end Emitter

end TapeLowering
