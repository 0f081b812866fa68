import TapeLowering.Proofs.InlineRoutines
import TapeLowering.Proofs.Survey

/-!
# The tracked cursor is exact

The generation keeps track of where the pointer is. It emits the body of a loop once, while a run goes
through it any number of times, or skips it. `pointer_of_run` says that the pointer is at the tracked
cursor at every boundary between two commands, whenever a run comes by, and that it never leaves the
cells that the generation moved it to.

The survey behind it demands nothing but the place of the pointer. Every loop returns to its origin,
so the place does not depend on how often a loop was run.
-/

namespace TapeLowering

open Emitter

/-- Every fragment is placed at once where it is kept, and nowhere else. -/
inductive Paired : List Command → Prop where
  | nil : Paired []
  | plain {c : Command} {rest : List Command} : c.isPlain = true → Paired rest → Paired (c :: rest)
  | loop {x : Slot} {body rest : List Command} : Paired body → Paired rest →
      Paired (.loop x body :: rest)
  | branch {x : Slot} {body rest : List Command} : Paired body → Paired rest →
      Paired (.branch x body :: rest)
  | scope {body rest : List Command} : Paired body → Paired rest → Paired (.scope body :: rest)
  | pair {fragment : String} {body rest : List Command} : Paired body → Paired rest →
      Paired (.detach fragment body :: .append fragment :: rest)

/-- Commands without fragments are paired. -/
theorem paired_of_areInline (cs : List Command) (h : Command.areInline cs = true) : Paired cs := by
  cases cs with
  | nil => exact .nil
  | cons c rest =>
    rw [Command.areInline, Bool.and_eq_true] at h
    have hrest := paired_of_areInline rest h.2
    cases c with
    | loop x body => exact .loop (paired_of_areInline body h.1) hrest
    | branch x body => exact .branch (paired_of_areInline body h.1) hrest
    | scope body => exact .scope (paired_of_areInline body h.1) hrest
    | detach | append => cases h.1
    | allocate | release | increment | decrement | reset | set | read | write | transfer | deduct
    | unknown => exact .plain rfl hrest

/-- Commands that are paired one by one are paired together. -/
theorem Paired.append {cs ds : List Command} (hcs : Paired cs) (hds : Paired ds) :
    Paired (cs ++ ds) := by
  induction hcs with
  | nil => exact hds
  | plain hc _ ih => exact .plain hc ih
  | loop hbody _ _ ih => exact .loop hbody ih
  | branch hbody _ _ ih => exact .branch hbody ih
  | scope hbody _ _ ih => exact .scope hbody ih
  | pair hbody _ _ ih => exact .pair hbody ih

/-- A call of the library may stand before any commands. -/
theorem Paired.call (o : Operation Slot) (depth : Nat) {cs : List Command} (hcs : Paired cs) :
    Paired (o.routine.commands depth ++ cs) :=
  (paired_of_areInline _ (o.inline_routine depth)).append hcs

namespace Survey

variable {S : Survey} {base : Nat} {e : Emitter} {cs : List Command}

/-- Nothing is known of any cell. -/
def unknown : Nat → Bool := fun _ => false

/-- Nothing is demanded but the place of the pointer. -/
theorem coversAll_of_paired (hdemand : ∀ b w, S.demand b w) (h : Paired cs)
    (hreach : Command.reachAll cs ≤ S.bound) : S.CoversAll base e cs unknown unknown := by
  -- by induction on how the list is paired, with nothing known of any cell
  induction h generalizing base e with
  | nil => exact coversAll_nil fun w _ => hdemand e w
  | plain hc _ ih =>
    obtain ⟨hfirst, hrest⟩ := Nat.max_le.mp hreach
    have hfirst : S.Covers base e _ unknown unknown := (covers_of_isPlain hc hfirst).weaken nofun
    refine coversAll_cons ?_ (fun w _ => hdemand e w) hfirst fun _ _ => ih hrest
    rintro fragment body rfl
    cases hc
  | @loop x body _ _ _ ihbody ih | @branch x body _ _ _ ihbody ih =>
    obtain ⟨hfirst, hrest⟩ := Nat.max_le.mp hreach
    obtain ⟨hx, hbody⟩ := Nat.max_le.mp hfirst
    refine coversAll_cons nofun (fun w _ => hdemand e w) ?_ fun _ _ => ih hrest
    exact (covers_bracketed (by simp) hx unknown nofun nofun fun _ _ => ihbody hbody).weaken nofun
  | @scope body _ _ _ ihbody ih =>
    obtain ⟨hbody, hrest⟩ := Nat.max_le.mp hreach
    have hfirst : S.Covers base e (.scope body) unknown unknown :=
      covers_scope (ihbody hbody) fun _ _ _ => nofun
    exact coversAll_cons nofun (fun w _ => hdemand e w) hfirst fun _ _ => ih hrest
  | pair _ _ ihbody ih =>
    obtain ⟨hbody, hrest⟩ := Nat.max_le.mp hreach
    have hrest := (Nat.max_le.mp hrest).2
    exact coversAll_pair (fun w _ => hdemand e w) (ihbody hbody) fun _ _ => ih hrest

end Survey

/-- Whenever a run of generated code is at the boundary between two commands, at any nesting level and
in any round of any loop, the pointer is at the cursor that the generation had there. It never goes
beyond the slots that the generation moved it to, and no run fails to the left of the first cell or
at a bracket without a partner. A run that halts leaves the pointer at the final cursor. -/
theorem pointer_of_run {cs : List Command} {e : Emitter} (hpaired : Paired cs)
    (he : emitAll cs {} = .ok e) (inputs : List Cell) (n : Nat) :
    let r := State.run (.ofText e.code.text) none n (.start inputs)
    (∀ b todo, Boundary 0 {} cs r.state.counter b todo → r.state.tape.pointer = b.cursor) ∧
      r.state.tape.pointer ≤ Command.reachAll cs ∧
      (∀ position, r.error? ≠ some (.fault position .leftOfOrigin) ∧
        r.error? ≠ some (.fault position .unmatchedBracket)) ∧
      ∀ t, r = .halted t → t.tape.pointer = e.cursor := by
  let S : Survey := ⟨.ofText e.code.text, fun _ _ => True, Command.reachAll cs, fun _ _ => True⟩
  have hcovers : S.CoversAll 0 {} cs Survey.unknown Survey.unknown :=
    Survey.coversAll_of_paired (fun _ _ => trivial) hpaired (Nat.le_refl _)
  obtain ⟨⟨hwithin, hboundary⟩, hhalted, hsafe⟩ :=
    Survey.sound he rfl hcovers inputs n fun _ _ => trivial
  exact ⟨fun b todo hb => (hboundary b todo hb).1, hwithin, hsafe, hhalted⟩

/-- A loop with a fragment in its body moves the pointer back and forth between two cells. -/
theorem pointer_of_run_counting :
    let cs : List Command := [.allocate, .allocate, .read ⟨0⟩,
      .loop ⟨0⟩ [.decrement ⟨0⟩, .detach "count" [.increment ⟨1⟩], .append "count"], .write ⟨1⟩]
    let e : Emitter := {
      stack := { live := [⟨1⟩, ⟨0⟩], cursor := 1 }
      code := [.read, .loop [.add .negOne, .right .one, .add .one, .right .negOne], .right .one,
        .write]
      fragments := [("count", [.right .one, .add .one])] }
    Paired cs ∧ emitAll cs {} = .ok e ∧ ∀ inputs n,
      let r := State.run (.ofText e.code.text) none n (.start inputs)
      r.state.tape.pointer ≤ 1 ∧ ∀ t, r = .halted t → t.tape.pointer = 1 := by
  intro cs e
  have hpaired : Paired cs := .plain rfl <| .plain rfl <| .plain rfl <|
    .loop (.plain rfl <| .pair (.plain rfl .nil) .nil) <| .plain rfl .nil
  have he : emitAll cs {} = .ok e := by decide +kernel
  refine ⟨hpaired, he, fun inputs n => ?_⟩
  obtain ⟨_, hwithin, _, hhalted⟩ := pointer_of_run hpaired he inputs n
  exact ⟨hwithin, hhalted⟩

end TapeLowering
