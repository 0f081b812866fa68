import TapeLowering.Proofs.Brackets
import TapeLowering.Proofs.Emission

/-!
# Boundaries between commands

Commands are emitted one after another, and the text of each one starts where that of the one before
ends. A boundary is a position between two of them, at any nesting level, together with the emitter
that the generation had there. The code of that emitter, placed where it starts in the whole text, ends
at the boundary (`Boundary.here`).

The body of a loop is emitted without the code before the loop, so its boundaries are those of an
emitter whose code starts behind the bracket. A fragment that is placed where it is kept is likewise
emitted on its own, and the two commands count as one: there is no boundary between them.
-/

namespace TapeLowering

open Emitter

/-- The body of a command that is emitted from `e`, whose code starts at `base`: the commands of the
body, where the code starts that they add to, and what they are emitted from. -/
inductive Body (base : Nat) (e : Emitter) : Command → List Command → Nat → Emitter → Prop where
  | loop {x : Slot} {body : List Command} {e₁ : Emitter} : seek x e = .ok e₁ →
      Body base e (.loop x body) body (base + e₁.code.size + 1) { e₁ with code := [] }
  | branch {x : Slot} {body : List Command} {e₁ : Emitter} : seek x e = .ok e₁ →
      Body base e (.branch x body) body (base + e₁.code.size + 1) { e₁ with code := [] }
  | scope {body : List Command} : Body base e (.scope body) body base e.allocate

/-- The body of a loop or a branch is emitted behind the seek of its slot and the first bracket. -/
theorem Body.of_bracketed {base : Nat} {e e₁ : Emitter} {c : Command} {x : Slot}
    {body : List Command} (hc : c = .loop x body ∨ c = .branch x body) (h₁ : seek x e = .ok e₁) :
    Body base e c body (base + e₁.code.size + 1) { e₁ with code := [] } := by
  rcases hc with rfl | rfl
  · exact .loop h₁
  · exact .branch h₁

/-- In the text of the commands `cs`, emitted from `e` whose code starts at `base`, there is a
boundary at `pos`: the generation has the emitter `b` there, and the commands `todo` come next. -/
inductive Boundary : (base : Nat) → (e : Emitter) → (cs : List Command) →
    (pos : Nat) → (b : Emitter) → (todo : List Command) → Prop where
  | here (base : Nat) (e : Emitter) (cs : List Command) :
      Boundary base e cs (base + e.code.size) e cs
  | inside {base base' pos : Nat} {e e' b : Emitter} {c : Command}
      {body rest todo : List Command} : Body base e c body base' e' →
      Boundary base' e' body pos b todo → Boundary base e (c :: rest) pos b todo
  | behind {base pos : Nat} {e e' b : Emitter} {c : Command} {rest todo : List Command} :
      (∀ fragment body, c ≠ .detach fragment body) → emit c e = .ok e' →
      Boundary base e' rest pos b todo → Boundary base e (c :: rest) pos b todo
  | insidePair {base pos : Nat} {e b : Emitter} {fragment : String}
      {body rest todo : List Command} :
      Boundary (base + e.code.size) { e with code := [] } body pos b todo →
      Boundary base e (.detach fragment body :: .append fragment :: rest) pos b todo
  | behindPair {base pos : Nat} {e e' b : Emitter} {fragment : String}
      {body rest todo : List Command} :
      emitAll [.detach fragment body, .append fragment] e = .ok e' →
      Boundary base e' rest pos b todo →
      Boundary base e (.detach fragment body :: .append fragment :: rest) pos b todo

/-- A program that holds the code of an emitter holds what had been emitted before. -/
theorem Program.Holds.of_extends {p : Program} {base : Nat} {e e' : Emitter}
    (hp : p.Holds base e'.code.symbols) (h : Extends e' e) : p.Holds base e.code.symbols := by
  obtain ⟨t, ht⟩ := h
  rw [ht] at hp
  exact (Program.holds_append.mp hp).1

/-- What is emitted within a loop lies between its brackets. -/
theorem size_of_loop {x : Slot} {f : Emission} {e e' e₁ : Emitter} (h : loop x f e = .ok e')
    (h₁ : seek x e = .ok e₁) : ∃ e₂, f { e₁ with code := [] } = .ok e₂ ∧
      e.code.size ≤ e₁.code.size ∧ e₁.code.size + 1 + e₂.code.size < e'.code.size := by
  obtain ⟨e₁', e₂, e₃, h₁', h₂, h₃, h₄⟩ := loop_eq_ok_iff.mp h
  obtain rfl := Except.ok.inj (h₁.symm.trans h₁')
  refine ⟨e₂, h₂, (extends_of_seek h₁).size_le, ?_⟩
  have hsize := (extends_of_seek h₃).size_le
  have hloop := Code.size_of_symbols (symbols_of_push_loop h₄)
  simp only [List.length_cons, List.length_append, List.length_nil, Code.length_symbols] at hloop
  omega

/-- The body of a command is emitted as a part of the command. -/
theorem Body.exists_emitAll {base base' : Nat} {e e' eb : Emitter} {c : Command}
    {body : List Command} (hbody : Body base e c body base' eb) (h : emit c e = .ok e') :
    ∃ eb', emitAll body eb = .ok eb' ∧ base + e.code.size ≤ base' + eb.code.size ∧
      base' + eb'.code.size ≤ base + e'.code.size := by
  cases hbody with
  | loop h₁ =>
    obtain ⟨e₂, h₂, hlo, hhi⟩ := size_of_loop h h₁
    exact ⟨e₂, h₂, by simp only [Code.size]; omega, by omega⟩
  | branch h₁ =>
    obtain ⟨e₂, h₂, hlo, hhi⟩ := size_of_loop h h₁
    obtain ⟨eb', hb', hreset⟩ := Violation.bind_eq_ok_iff.mp h₂
    have hsize := (extends_of_onCell hreset).size_le
    exact ⟨eb', hb', by simp only [Code.size]; omega, by omega⟩
  | scope =>
    obtain ⟨e₁, h₁, h₂⟩ := scope_eq_ok_iff.mp h
    exact ⟨e₁, h₁, Nat.le_refl _, Nat.le_of_eq (by rw [(release_eq_ok h₂).1])⟩

/-- The boundaries of commands lie within their text. -/
theorem Boundary.mem_range {base pos : Nat} {e e' b : Emitter} {cs todo : List Command}
    (hb : Boundary base e cs pos b todo) (h : emitAll cs e = .ok e') :
    base + e.code.size ≤ pos ∧ pos ≤ base + e'.code.size := by
  induction hb generalizing e' with
  | here base e cs =>
    have hsize := (extends_of_emitAll h).size_le
    omega
  | inside hbody _ ih =>
    obtain ⟨e₁, h₁, h₂⟩ := emitAll_cons_eq_ok_iff.mp h
    obtain ⟨eb', hb', hlo, hhi⟩ := hbody.exists_emitAll h₁
    have hpos := ih hb'
    have hsize := (extends_of_emitAll h₂).size_le
    omega
  | behind _ hc _ ih =>
    obtain ⟨e₁, h₁, h₂⟩ := emitAll_cons_eq_ok_iff.mp h
    obtain rfl := Except.ok.inj (h₁.symm.trans hc)
    have hpos := ih h₂
    have hsize := (extends_of_emit h₁).size_le
    omega
  | insidePair _ ih =>
    obtain ⟨e₁, e₂, h₁, _, _, hsymbols, h₂⟩ := emitAll_pair_eq_ok h
    have hpos := ih h₁
    have hsize := (extends_of_emitAll h₂).size_le
    have hpair := Code.size_of_symbols hsymbols
    rw [Code.length_symbols] at hpair
    simp only [Code.size] at hpos
    omega
  | behindPair hpair _ ih =>
    obtain ⟨_, e₂, _, hpair', _, _, h₂⟩ := emitAll_pair_eq_ok h
    obtain rfl := Except.ok.inj (hpair.symm.trans hpair')
    have hpos := ih h₂
    have hsize := (extends_of_emitAll hpair).size_le
    omega

end TapeLowering
