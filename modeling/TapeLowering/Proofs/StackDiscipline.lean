import TapeLowering.Proofs.Emission

/-!
# The stack discipline of slots

Whatever slots are allocated, released and moved to, and however stale the handles are, the live slots
are packed: they are those of the cells from zero up to their number (`SlotStack.Reaches.isPacked`).
A slot can therefore be released if and only if its index is the greatest live one.

Generating code does nothing else to the slots (`Emitter.reaches_of_emitAll`). Commands that make slots
live by scopes only leave the live slots as they were, and never release a slot out of order
(`Emitter.keepsLive_emitAll`).
-/

namespace TapeLowering

namespace SlotStack

variable {s t u : SlotStack} {x : Slot}

/-- Allocations, releases and moves, of any slots and in any order, lead from the first stack to the
second one. -/
inductive Reaches (s : SlotStack) : SlotStack → Prop where
  | refl : Reaches s s
  | allocate {t : SlotStack} : Reaches s t → Reaches s t.allocate
  | release {t u : SlotStack} {x : Slot} : Reaches s t → t.release x = .ok u → Reaches s u
  | pointAt {t : SlotStack} (x : Slot) : Reaches s t → Reaches s (t.pointAt x)

theorem Reaches.trans (h : s.Reaches t) (h' : t.Reaches u) : s.Reaches u := by
  induction h' with
  | refl => exact h
  | allocate _ ih => exact ih.allocate
  | release _ hrelease ih => exact ih.release hrelease
  | pointAt x _ ih => exact ih.pointAt x

/-- The live slots are those of the cells below the depth, the latest first. -/
def IsPacked (s : SlotStack) : Prop := s.live = (List.range s.depth).reverse.map Slot.mk

/-- A slot that is made live is the next one, so the slots stay packed. -/
theorem IsPacked.allocate (h : s.IsPacked) : s.allocate.IsPacked := by
  rw [IsPacked, depth_allocate, List.range_succ, List.reverse_append, List.map_append, ← h]
  rfl

/-- A slot that is released is the last one, so the slots stay packed. -/
theorem IsPacked.release (h : s.IsPacked) (ht : s.release x = .ok t) : t.IsPacked := by
  obtain ⟨others, hlive, rfl⟩ := release_eq_ok_iff.mp ht
  have hdepth : s.depth = others.length + 1 := by rw [depth, hlive, List.length_cons]
  rw [IsPacked, hdepth, List.range_succ, List.reverse_append, List.map_append, hlive] at h
  exact (List.cons.inj h).2

/-- Whatever is done to packed slots, they stay packed. -/
theorem Reaches.isPacked (hs : s.IsPacked) (h : s.Reaches t) : t.IsPacked := by
  induction h with
  | refl => exact hs
  | allocate _ ih => exact ih.allocate
  | release _ hrelease ih => exact ih.release hrelease
  | pointAt _ _ ih => exact ih

theorem isPacked_empty : IsPacked {} := rfl

theorem IsPacked.nodup (h : s.IsPacked) : s.live.Nodup := by
  have hrange : (List.range s.depth).reverse.Nodup :=
    List.pairwise_reverse.mpr (List.nodup_range.imp Ne.symm)
  rw [h]
  exact List.Pairwise.map Slot.mk (fun _ _ hne heq => hne (Slot.mk.inj heq)) hrange

/-- The latest live slot can be released, and no other one. -/
theorem exists_release_iff : (∃ t, s.release x = .ok t) ↔ s.live.head? = some x := by
  cases hl : s.live with
  | nil => simp [release, hl]
  | cons latest others => by_cases hx : latest = x <;> simp [release, hl, hx]

/-- Only the live slot with the greatest index can be released. -/
theorem IsPacked.exists_release_iff (h : s.IsPacked) :
    (∃ t, s.release x = .ok t) ↔ x.index + 1 = s.depth := by
  rw [SlotStack.exists_release_iff, h, List.head?_map, List.head?_reverse, List.getLast?_range]
  split
  · rename_i hzero
    simp [hzero]
  · rename_i hpos
    cases x
    simp only [Option.map_some, Option.some.injEq, Slot.mk.injEq]
    omega

/-- A release that fails does so because of the order. -/
theorem release_eq_error_iff {v : Violation} :
    s.release x = .error v ↔ v = .releaseOrder ∧ ¬ ∃ t, s.release x = .ok t := by
  cases hl : s.live with
  | nil => simp [release, hl, eq_comm]
  | cons latest others => by_cases hx : latest = x <;> simp [release, hl, hx, eq_comm]

end SlotStack

open SlotStack

namespace Emitter

variable {e e' : Emitter} {f g : Emission} {x y : Slot}

/-! ## What the generation of code does to the slots -/

/-- The generation of code does nothing to the slots but to make them live, to release them and to move
to them. -/
theorem tracks_reaches : Tracks fun e e' => e.stack.Reaches e'.stack where
  refl _ := .refl
  trans := .trans
  pointAt _ x := Reaches.refl.pointAt x
  allocate _ := Reaches.refl.allocate
  release h := by
    obtain ⟨stack, hstack, rfl⟩ := Violation.map_eq_ok_iff.mp h
    exact Reaches.refl.release hstack
  push h := stack_of_push h ▸ .refl
  extend h := (extend_eq_ok h).1 ▸ .refl
  detached h := h
  keep _ _ _ := .refl

/-- Commands allocate, release and move, and do nothing else to the slots. -/
theorem reaches_of_emitAll {cs : List Command} (h : emitAll cs e = .ok e') :
    e.stack.Reaches e'.stack := tracks_reaches.emitAll cs h

/-- An emitter that commands and moves lead to, at any nesting level: the body of a loop or of a
fragment starts with no code of its own, that of a loop at its origin. -/
inductive Reached : Emitter → Prop where
  | start : Reached {}
  | emit {e e' : Emitter} {c : Command} :
      Reached e → emit c e = .ok e' → Reached e'
  | seek {e e' : Emitter} {x : Slot} : Reached e → seek x e = .ok e' → Reached e'
  | inside {e : Emitter} : Reached e → Reached { e with code := [] }

/-- The slots of an emitter that is reached are reached from none. -/
theorem Reached.reaches (h : e.Reached) : SlotStack.Reaches {} e.stack := by
  induction h with
  | start => exact .refl
  | emit _ hemit ih => exact ih.trans (tracks_reaches.emit _ hemit)
  | seek _ hseek ih => exact ih.trans (tracks_reaches.seek hseek)
  | inside _ ih => exact ih

/-- The live slots of an emitter are packed, whatever it has emitted. -/
theorem Reached.isPacked (h : e.Reached) : e.stack.IsPacked :=
  h.reaches.isPacked SlotStack.isPacked_empty

end Emitter

namespace Command

mutual

/-- Whether a command makes slots live by scopes only, in its parts as well. -/
def isScoped : Command → Bool
  | .allocate | .release _ => false
  | .loop _ body | .branch _ body | .scope body | .detach _ body => areScoped body
  | .increment _ | .decrement _ | .reset _ | .set _ _ | .read _ | .write _ | .transfer _ _
  | .deduct _ _ | .append _ | .unknown _ => true

/-- Whether commands make slots live by scopes only, in their parts as well. -/
def areScoped : List Command → Bool
  | [] => true
  | c :: rest => c.isScoped && areScoped rest

end

end Command

/-! ## Scopes -/

namespace Emitter

open Command

variable {e e' : Emitter} {f g : Emission} {x y : Slot}

/-- An emission leaves the live slots as they were, and releases none out of order. -/
structure KeepsLive (f : Emission) : Prop where
  live : ∀ {e e'}, f e = .ok e' → e'.stack.live = e.stack.live
  ordered : ∀ e, f e ≠ .error .releaseOrder

/-- Two emissions that keep the live slots do so in a row. -/
theorem KeepsLive.bind (hf : KeepsLive f) (hg : KeepsLive g) :
    KeepsLive fun e => f e >>= g where
  live h := by
    obtain ⟨e₁, h₁, h₂⟩ := Violation.bind_eq_ok_iff.mp h
    exact (hg.live h₂).trans (hf.live h₁)
  ordered e h := by
    rcases Violation.bind_eq_error_iff.mp h with hfirst | ⟨e₁, _, hnext⟩
    · exact hf.ordered e hfirst
    · exact hg.ordered e₁ hnext

theorem keepsLive_extend (c : Code) : KeepsLive (extend c) where
  live h := by rw [(extend_eq_ok h).1]
  ordered e h := by cases Code.eq_overflow_of_extend (Violation.map_eq_error_iff.mp h)

theorem keepsLive_push (i : Instruction) : KeepsLive (push i) where
  live h := by rw [stack_of_push h]
  ordered e h := by cases Code.eq_overflow_of_push (Violation.map_eq_error_iff.mp h)

/-- A move to a slot makes no slot live and releases none. -/
theorem keepsLive_seek (x : Slot) : KeepsLive (seek x) where
  live h := by rw [(seek_eq_ok h).1, SlotStack.pointAt]
  ordered e h := by
    rcases Violation.bind_eq_error_iff.mp h with hmoves | ⟨moves, _, hextend⟩
    · cases (Amount.ofInt_eq_error_iff.mp (Violation.map_eq_error_iff.mp hmoves)).2
    · exact (keepsLive_extend moves).ordered _ hextend

theorem keepsLive_onCell (x : Slot) (i : Instruction) : KeepsLive (onCell x i) :=
  (keepsLive_seek x).bind (keepsLive_push i)

/-- Setting a cell keeps the live slots, whether the value is in range or not. -/
theorem keepsLive_set (x : Slot) (v : Cell) : KeepsLive (set x v) := by
  by_cases hv : v.toNat < 0x8000000000000000
  · rw [set_of_lt hv]
    exact (keepsLive_onCell x .clear).bind (keepsLive_push _)
  · rw [set_of_not_lt hv]
    exact ⟨nofun, nofun⟩

/-- Code of its own leaves the live slots as its body does. -/
theorem KeepsLive.detached_bind {k : Code → Emission} (hf : KeepsLive f)
    (hk : ∀ c, KeepsLive (k c)) : KeepsLive fun e => e.detached f >>= fun p => k p.2 p.1 where
  live h := by
    obtain ⟨b, hb, h⟩ := detached_bind_eq_ok_iff.mp h
    exact ((hk _).live h).trans (hf.live hb :)
  ordered e h := by
    rcases Violation.bind_eq_error_iff.mp h with hbody | ⟨p, _, hnext⟩
    · exact hf.ordered _ (Violation.map_eq_error_iff.mp hbody)
    · exact (hk _).ordered _ hnext

theorem KeepsLive.loop (hf : KeepsLive f) : KeepsLive (loop x f) :=
  (keepsLive_seek x).bind <|
    (hf.bind (keepsLive_seek x)).detached_bind fun c => keepsLive_push (.loop c)

/-- A drain keeps the live slots, also where no code is generated for it. -/
theorem keepsLive_drain (x y : Slot) (change : Amount) : KeepsLive (drain x y change) := by
  by_cases hxy : x = y
  · rw [hxy, drain_self]
    exact ⟨nofun, nofun⟩
  · rw [drain_of_ne hxy]
    exact ((keepsLive_onCell x _).bind (keepsLive_onCell y _)).loop

/-- A scope whose body leaves the live slots as they were finds its own slot on top of them. -/
theorem KeepsLive.scope (hf : KeepsLive f) : KeepsLive (scope f) where
  live {e e'} h := by
    obtain ⟨e₁, h₁, h₂⟩ := scope_eq_ok_iff.mp h
    obtain ⟨stack, hstack, rfl⟩ := Violation.map_eq_ok_iff.mp h₂
    obtain ⟨others, hlive, rfl⟩ := SlotStack.release_eq_ok_iff.mp hstack
    exact (List.cons.inj (hlive.symm.trans (hf.live h₁))).2
  ordered e h := by
    rcases Violation.bind_eq_error_iff.mp h with hbody | ⟨e₁, h₁, hrelease⟩
    · exact hf.ordered _ hbody
    · have hlive : e₁.stack.live = e.stack.next :: e.stack.live := hf.live h₁
      simp [release, SlotStack.release, hlive, Except.map] at hrelease

/-- Placing a fragment keeps the live slots, also where none is kept by that name. -/
theorem keepsLive_append (fragment : String) : KeepsLive (append fragment) where
  live h := by
    rw [append] at h
    split at h
    · exact (keepsLive_extend _).live h
    · cases h
  ordered e h := by
    rw [append] at h
    split at h
    · exact (keepsLive_extend _).ordered e h
    · cases h

/-- Behind its body, a scope is the release of the slot that it has made live. -/
theorem scope_eq_release {e₁ : Emitter} (h : f e.allocate = .ok e₁) :
    scope f e = release e.stack.next e₁ := by
  rw [scope, h]
  rfl

/-- A scope whose body is done can be left if and only if the body ended with as many live slots as it
started with. -/
theorem exists_scope_iff {e₁ : Emitter} (hpacked : e₁.stack.IsPacked)
    (h : f e.allocate = .ok e₁) :
    (∃ e', scope f e = .ok e') ↔ e₁.depth = e.allocate.depth := by
  have hrelease : (∃ e', scope f e = .ok e') ↔ ∃ t, e₁.stack.release e.stack.next = .ok t := by
    rw [scope_eq_release h]
    simp only [release, Violation.map_eq_ok_iff]
    exact ⟨fun ⟨_, t, ht, _⟩ => ⟨t, ht⟩, fun ⟨t, ht⟩ => ⟨_, t, ht, rfl⟩⟩
  rw [hrelease, hpacked.exists_release_iff]
  exact eq_comm

/-- A scope is out of order if its body leaves more or fewer slots live than it found. -/
theorem scope_eq_error_iff {e₁ : Emitter} (hpacked : e₁.stack.IsPacked)
    (h : f e.allocate = .ok e₁) :
    scope f e = .error .releaseOrder ↔ e₁.depth ≠ e.allocate.depth := by
  rw [ne_eq, ← exists_scope_iff hpacked h]
  cases hs : scope f e with
  | ok e' => simp
  | error v =>
    rw [scope_eq_release h] at hs
    have hv := (SlotStack.release_eq_error_iff.mp (Violation.map_eq_error_iff.mp hs)).1
    simp [hv]

mutual

/-- A command that makes slots live in scopes only keeps the live ones. By induction on the command,
together with `keepsLive_emitAll`. -/
theorem keepsLive_emit (c : Command) (h : c.isScoped = true) : KeepsLive (emit c) := by
  cases c with
  | allocate | release => cases h
  | increment x | decrement x | reset x | read x | write x => exact keepsLive_onCell x _
  | set x v => exact keepsLive_set x v
  | transfer x y | deduct x y => exact keepsLive_drain x y _
  | loop x body => exact (keepsLive_emitAll body h).loop
  | branch x body => exact ((keepsLive_emitAll body h).bind (keepsLive_onCell x _)).loop
  | scope body => exact (keepsLive_emitAll body h).scope
  | detach fragment body =>
    have hkeep : ∀ code, KeepsLive fun e => .ok (e.keep fragment code) :=
      fun code => ⟨fun h => by cases h; rfl, nofun⟩
    rw [emit_detach]
    exact (keepsLive_emitAll body h).detached_bind hkeep
  | append fragment => exact keepsLive_append fragment
  | unknown word => exact ⟨nofun, nofun⟩

/-- Commands that make slots live by scopes only leave the live slots as they were, and release none
out of order. -/
theorem keepsLive_emitAll (cs : List Command) (h : areScoped cs = true) :
    KeepsLive (emitAll cs) := by
  match cs with
  | [] => exact ⟨fun h => by cases h; rfl, nofun⟩
  | c :: rest =>
    rw [areScoped, Bool.and_eq_true] at h
    exact (keepsLive_emit c h.1).bind (keepsLive_emitAll rest h.2)

end

end Emitter

end TapeLowering
