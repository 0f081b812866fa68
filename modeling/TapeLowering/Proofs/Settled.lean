import TapeLowering.Proofs.NormalForm
import TapeLowering.Proofs.StackDiscipline

/-!
# Code between two commands

A move is emitted for the sake of what comes behind it, so no command leaves a move at the end of the
code, and no fragment ends in one (`Emitter.Between.settled`). What is emitted next therefore meets a
loop, an addition, a read or a write, or nothing at all.

`Emitter.Between` are the emitters that commands find: at the top level, at the start of the body of a
loop or of a fragment, and behind any command.
-/

namespace TapeLowering

/-- Whether an instruction is a move. -/
def Instruction.isMove : Instruction → Bool
  | .right _ => true
  | .add _ | .read | .write | .loop _ => false

theorem Instruction.isMove_eq (i : Instruction) : i.isMove = i.course.any Prod.fst := by
  cases i <;> rfl

/-- The last instruction of some code, if there is any, is not a move. -/
def Code.Settled (c : Code) : Prop := ∀ i ∈ c.getLast?, i.isMove = false

namespace Code

variable {c d r : Code} {i : Instruction}

@[simp] theorem settled_nil : Settled [] := nofun

@[simp] theorem settled_append_singleton : Settled (c ++ [i]) ↔ i.isMove = false := by
  simp [Settled]

/-- Code is settled if its last part is, where there is one. -/
theorem settled_append (hd : d ≠ []) : Settled (c ++ d) ↔ d.Settled := by
  rw [Settled, List.getLast?_append_of_ne_nil c hd, Settled]

/-- What is joined to the end of some code is there afterwards, alone or as a part of a sum. -/
theorem settled_of_joinLast (hi : i.isMove = false) (h : joinLast i c = .ok r) : r.Settled := by
  rcases List.eq_nil_or_concat c with rfl | ⟨init, last, rfl⟩
  · cases h
    exact (settled_append_singleton (c := [])).mpr hi
  · rw [List.concat_eq_append, joinLast_append_singleton] at h
    obtain ⟨tail, htail, rfl⟩ := Violation.map_eq_ok_iff.mp h
    cases hf : last.fuses i with
    | false =>
      obtain rfl := Except.ok.inj ((Instruction.join_of_not_fuses hf).symm.trans htail)
      exact (settled_append (by simp)).mpr ((settled_append_singleton (c := [last])).mpr hi)
    | true =>
      obtain ⟨k, rfl, hk⟩ := Instruction.join_of_fuses hf htail
      have hcourse : k.course = i.course := hk.trans (Instruction.fuses_iff.mp hf).1
      rw [settled_append_singleton, Instruction.isMove_eq, hcourse, ← Instruction.isMove_eq, hi]

/-- Settled code stays so if anything but a move is pushed. -/
theorem settled_of_push (hc : c.Settled) (hi : i.isMove = false) (h : c.push i = .ok r) :
    r.Settled := by
  rw [push] at h
  split at h
  · cases h
    exact hc
  · exact settled_of_joinLast hi h

/-- Settled code stays so if it is extended by settled code. -/
theorem settled_of_extend (hc : c.Settled) (hd : d.Settled) (h : c.extend d = .ok r) :
    r.Settled := by
  cases d with
  | nil =>
    cases h
    exact hc
  | cons first rest =>
    obtain ⟨head, hhead, rfl⟩ := Violation.map_eq_ok_iff.mp h
    by_cases hrest : rest = []
    · subst hrest
      rw [List.append_nil]
      exact settled_of_push hc (hd first rfl) hhead
    · rw [settled_append hrest]
      exact (settled_append (c := [first]) hrest).mp hd

end Code

namespace Emitter

variable {e e' : Emitter} {f g : Emission} {x y : Slot} {i : Instruction}

/-- No code that an emitter holds ends in a move. -/
structure Settled (e : Emitter) : Prop where
  code : e.code.Settled
  fragments : ∀ p ∈ e.fragments, p.2.Settled

theorem fragments_of_push (h : push i e = .ok e') : e'.fragments = e.fragments := by
  obtain ⟨c, _, rfl⟩ := push_eq_ok_iff.mp h
  rfl

theorem fragments_of_seek (h : seek x e = .ok e') : e'.fragments = e.fragments := by
  obtain ⟨moves, _, h⟩ := Violation.bind_eq_ok_iff.mp h
  obtain ⟨c, _, rfl⟩ := Violation.map_eq_ok_iff.mp h
  rfl

theorem Settled.replace (h : e.Settled) {c : Code} (hc : c.Settled) :
    Settled { e with code := c } :=
  ⟨hc, h.fragments⟩

/-- An instruction that is no move settles the code, whatever stands before it. -/
theorem settled_of_push (he : ∀ p ∈ e.fragments, p.2.Settled) (hi : i.isMove = false)
    (hidle : i.isIdle = false) (h : push i e = .ok e') : e'.Settled := by
  refine ⟨?_, fragments_of_push h ▸ he⟩
  obtain ⟨c, hc, rfl⟩ := push_eq_ok_iff.mp h
  rw [Code.push, if_neg (by simp [hidle])] at hc
  exact Code.settled_of_joinLast hi hc

/-- An instruction on a cell settles the code, unless it is a move or idle. -/
theorem Settled.onCell (he : e.Settled) (hi : i.isMove = false) (hidle : i.isIdle = false)
    (h : onCell x i e = .ok e') : e'.Settled := by
  obtain ⟨e₁, h₁, h⟩ := onCell_eq_ok_iff.mp h
  exact settled_of_push (fragments_of_seek h₁ ▸ he.fragments) hi hidle h

/-- A set ends in an addition, or in the reset before it. -/
theorem Settled.set {v : Cell} (he : e.Settled) (h : set x v e = .ok e') : e'.Settled := by
  obtain ⟨hv, h⟩ := set_eq_ok_iff.mp h
  rw [← onCell_bind_push] at h
  obtain ⟨e₁, h₁, h⟩ := Violation.bind_eq_ok_iff.mp h
  have h₁ := he.onCell rfl rfl h₁
  refine ⟨?_, fragments_of_push h ▸ h₁.fragments⟩
  obtain ⟨c, hc, rfl⟩ := push_eq_ok_iff.mp h
  exact Code.settled_of_push h₁.code rfl hc

/-- A loop settles the code, and the fragments of its body are settled. -/
theorem Settled.loop (he : e.Settled) (hf : ∀ {e e'}, e.Settled → f e = .ok e' → e'.Settled)
    (h : loop x f e = .ok e') : e'.Settled := by
  obtain ⟨e₁, e₂, e₃, h₁, h₂, h₃, h⟩ := loop_eq_ok_iff.mp h
  have hstart : Settled { e₁ with code := [] } :=
    ⟨Code.settled_nil, (fragments_of_seek h₁ ▸ he.fragments :)⟩
  have hbody : e₂.Settled := hf hstart h₂
  have hback : ∀ p ∈ e₃.fragments, p.2.Settled := fragments_of_seek h₃ ▸ hbody.fragments
  exact settled_of_push (e := { e₃ with code := e₁.code }) hback rfl rfl h

/-- A drain is a loop with two additions. -/
theorem Settled.drain {change : Amount} (he : e.Settled) (hchange : change.isZero = false)
    (h : drain x y change e = .ok e') : e'.Settled := by
  have hidle : (Instruction.add change).isIdle = false := hchange
  refine he.loop (fun he h => ?_) (drain_eq_ok_iff.mp h).2
  obtain ⟨e₁, h₁, h₂⟩ := Violation.bind_eq_ok_iff.mp h
  exact (he.onCell rfl rfl h₁).onCell rfl hidle h₂

theorem Settled.release (he : e.Settled) (h : release x e = .ok e') : e'.Settled := by
  obtain ⟨stack, _, rfl⟩ := Violation.map_eq_ok_iff.mp h
  exact ⟨he.code, he.fragments⟩

/-- Placing a fragment leaves settled code, since the fragments that are kept are settled. -/
theorem Settled.append {fragment : String} (he : e.Settled) (h : append fragment e = .ok e') :
    e'.Settled := by
  rw [Emitter.append] at h
  split at h
  · rename_i c hc
    obtain ⟨_, _, hmem, _⟩ := List.lookup_eq_some_iff.mp hc
    obtain ⟨r, hr, rfl⟩ := Violation.map_eq_ok_iff.mp h
    have hfragment : c.Settled := he.fragments (fragment, c) (by simp [hmem])
    exact he.replace (Code.settled_of_extend he.code hfragment hr)
  · cases h

mutual

/-- Every command leaves settled code and settled fragments. By induction on the command, together with
`Settled.emitAll`. -/
theorem Settled.emit (c : Command) {e e' : Emitter} (he : e.Settled) (h : emit c e = .ok e') :
    e'.Settled := by
  cases c with
  | allocate =>
    cases h
    exact ⟨he.code, he.fragments⟩
  | release x => exact he.release h
  | increment | decrement | reset | read | write => exact he.onCell rfl rfl h
  | set x v => exact he.set h
  | transfer | deduct => exact he.drain rfl h
  | loop x body => exact he.loop (.emitAll body) h
  | branch x body =>
    refine he.loop (fun he h => ?_) h
    obtain ⟨e₁, h₁, h₂⟩ := Violation.bind_eq_ok_iff.mp h
    exact (Settled.emitAll body he h₁).onCell rfl rfl h₂
  | scope body =>
    obtain ⟨e₁, h₁, h₂⟩ := scope_eq_ok_iff.mp h
    have hallocate : e.allocate.Settled := ⟨he.code, he.fragments⟩
    have hbody : e₁.Settled := .emitAll body hallocate h₁
    exact hbody.release h₂
  | detach fragment body =>
    rw [emit_detach] at h
    obtain ⟨b, hb, ⟨⟩⟩ := detached_bind_eq_ok_iff.mp h
    have hbody : b.Settled := .emitAll body (he.replace Code.settled_nil) hb
    exact ⟨he.code, List.forall_mem_cons.mpr ⟨hbody.code, hbody.fragments⟩⟩
  | append fragment => exact he.append h
  | unknown word => cases h

/-- Commands leave no move at the end of the code. -/
theorem Settled.emitAll (cs : List Command) {e e' : Emitter} (he : e.Settled)
    (h : emitAll cs e = .ok e') : e'.Settled := by
  match cs with
  | [] =>
    cases h
    exact he
  | c :: rest =>
    obtain ⟨e₁, h₁, h₂⟩ := emitAll_cons_eq_ok_iff.mp h
    exact .emitAll rest (.emit c he h₁) h₂

end

/-- An emitter as a command finds it, at any nesting level: behind other commands, or at the start of
the body of a loop, with the pointer at its origin, or of a fragment. Unlike an emitter that is only
`Reached`, it does not stand behind a move. -/
inductive Between : Emitter → Prop where
  | start : Between {}
  | emit {e e' : Emitter} {c : Command} : Between e → emit c e = .ok e' → Between e'
  | loopBody {e e' : Emitter} {x : Slot} :
      Between e → seek x e = .ok e' → Between { e' with code := [] }
  | fragmentBody {e : Emitter} : Between e → Between { e with code := [] }

namespace Between

/-- What commands find is settled. -/
theorem settled (h : e.Between) : e.Settled := by
  induction h with
  | start => exact ⟨Code.settled_nil, nofun⟩
  | emit _ hemit ih => exact .emit _ ih hemit
  | loopBody _ hseek ih => exact ⟨Code.settled_nil, (fragments_of_seek hseek ▸ ih.fragments :)⟩
  | fragmentBody _ ih => exact ih.replace Code.settled_nil

/-- What is known of all emitters that commands and moves lead to holds of those that commands find. -/
theorem reached (h : e.Between) : e.Reached := by
  induction h with
  | start => exact .start
  | emit _ hemit ih => exact ih.emit hemit
  | loopBody _ hseek ih => exact (ih.seek hseek).inside
  | fragmentBody _ ih => exact ih.inside

theorem isPacked (h : e.Between) : e.stack.IsPacked := h.reached.isPacked

end Between

end Emitter

end TapeLowering
