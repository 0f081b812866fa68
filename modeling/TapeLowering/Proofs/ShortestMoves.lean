import TapeLowering.Proofs.Detachment
import TapeLowering.Proofs.MoveRuns

/-!
# Moves are shortest

The pointer is only ever moved to a slot, and then on the shortest way from where the cursor is. That the
moves in the text are no more than these ways is a matter of what stands between them: no two moves come
one behind the other, so there is nothing that a shorter way could save.

`Command.itinerary` says where the commands send the pointer, in the order of the text: a loop is written
once and so are its ways, and a fragment has its ways wherever it is placed. The maximal runs of moves in
the text of the commands are these ways (`Emitter.follows_emitAll`).
-/

namespace TapeLowering

/-- What the ways of the pointer depend on. -/
structure Whereabouts where
  /-- The cell that the pointer is at. -/
  cursor : Nat := 0
  /-- The legs of the fragments kept so far, the latest first. -/
  fragments : List (String × List Leg) := []

/-- The legs of the pointer, and where it is behind them. -/
abbrev Itinerary := Whereabouts → List Leg × Whereabouts

namespace Itinerary

/-- The pointer is not sent anywhere. -/
def stay : Itinerary := fun w => ([], w)

/-- The pointer is sent to a slot. -/
def visit (x : Slot) : Itinerary := fun w => ([⟨w.cursor, x.index⟩], { w with cursor := x.index })

/-- One itinerary after another. -/
def andThen (f g : Itinerary) : Itinerary := fun w => ((f w).1 ++ (g (f w).2).1, (g (f w).2).2)

/-- There and back again, with an itinerary in between. -/
def around (x : Slot) (f : Itinerary) : Itinerary := ((visit x).andThen f).andThen (visit x)

/-- The legs are kept under the name of a fragment, and are none of the code at hand. -/
def keep (fragment : String) (f : Itinerary) : Itinerary := fun w =>
  ([], { (f w).2 with fragments := (fragment, (f w).1) :: (f w).2.fragments })

/-- The legs of a fragment once more; the cursor does not take part in them. -/
def place (fragment : String) : Itinerary := fun w => ((w.fragments.lookup fragment).getD [], w)

end Itinerary

namespace Command

open Itinerary

mutual

/-- Where a command sends the pointer. -/
def itinerary : Command → Itinerary
  | .allocate | .release _ | .unknown _ => stay
  | .increment x | .decrement x | .reset x | .set x _ | .read x | .write x => visit x
  | .transfer x y | .deduct x y => around x ((visit x).andThen (visit y))
  | .loop x body => around x (itineraryAll body)
  | .branch x body => around x ((itineraryAll body).andThen (visit x))
  | .scope body => itineraryAll body
  | .detach fragment body => keep fragment (itineraryAll body)
  | .append fragment => place fragment

/-- Where commands send the pointer, one after the other. -/
def itineraryAll : List Command → Itinerary
  | [] => stay
  | c :: rest => (itinerary c).andThen (itineraryAll rest)

end

end Command

namespace Emitter

variable {e e' : Emitter} {f f' : Emission} {g g' : Itinerary} {w : Whereabouts} {x y : Slot}
  {i : Instruction}

/-- The cursor and the fragments of an emitter are as the whereabouts say. -/
structure At (e : Emitter) (w : Whereabouts) : Prop where
  cursor : e.cursor = w.cursor
  fragments : List.Forall₂ (fun p q => p.1 = q.1 ∧ Parted p.2.symbols q.2) e.fragments w.fragments

/-- A fragment that is kept has legs that are kept by the same name, because both lists grow
together. -/
theorem At.exists_lookup (h : e.At w) {fragment : String} {c : Code}
    (hc : e.fragments.lookup fragment = some c) :
    Parted c.symbols ((w.fragments.lookup fragment).getD []) := by
  obtain ⟨-, hfragments⟩ := h
  generalize e.fragments = kept at hc hfragments
  generalize w.fragments = legs at hfragments ⊢
  induction hfragments with
  | nil => cases hc
  | @cons p q _ _ hpq _ ih =>
    obtain ⟨hname, hparted⟩ := hpq
    rw [List.lookup_cons] at hc ⊢
    rw [← hname]
    split at hc
    · cases hc
      exact hparted
    · exact ih hc

/-- The moves in the code that is emitted are the legs of an itinerary. -/
def Follows (f : Emission) (g : Itinerary) : Prop := ∀ ⦃e e' : Emitter⦄ ⦃w : Whereabouts⦄,
  e.At w → f e = .ok e' → e'.At (g w).2 ∧
    ∃ t, e'.code.symbols = e.code.symbols ++ t ∧ Parted t (g w).1

/-- A move to a slot has one leg, from where the pointer was to the slot. -/
theorem At.seek (he : e.At w) (h : seek x e = .ok e') : e'.At { w with cursor := x.index } ∧
    e'.code.symbols = e.code.symbols ++ Leg.symbols ⟨w.cursor, x.index⟩ := by
  obtain ⟨-, a, ha, hsymbols⟩ := seek_eq_ok h
  refine ⟨⟨cursor_of_seek h, fragments_of_seek h ▸ he.fragments⟩, ?_⟩
  rw [hsymbols, Amount.symbols_right (he.cursor ▸ ha)]

theorem At.push (he : e.At w) (h : push i e = .ok e') : e'.At w where
  cursor := (congrArg SlotStack.cursor (stack_of_push h)).trans he.cursor
  fragments := fragments_of_push h ▸ he.fragments

/-- Without code there are no legs. -/
theorem follows_stay : Follows .ok .stay := by
  rintro e _ w he ⟨⟩
  exact ⟨he, [], (List.append_nil _).symm, .of_not_isMove nofun⟩

/-- The legs of two emissions are those of the one and then those of the other. -/
theorem Follows.bind (hf : Follows f g) (hf' : Follows f' g') :
    Follows (fun e => f e >>= f') (g.andThen g') := by
  intro e e' w he h
  obtain ⟨e₁, h₁, h₂⟩ := Violation.bind_eq_ok_iff.mp h
  obtain ⟨he₁, t, ht, hparted⟩ := hf he h₁
  obtain ⟨he', t', ht', hparted'⟩ := hf' he₁ h₂
  exact ⟨he', t ++ t', by rw [ht', ht, List.append_assoc], hparted.append hparted'⟩

/-- An instruction that is no move, emitted for the cell of a slot. -/
theorem follows_onCell (hne : i.symbols ≠ []) (hi : ∀ s ∈ i.symbols, s.isMove = false) :
    Follows (onCell x i) (.visit x) := by
  intro e e' w he h
  obtain ⟨e₁, h₁, h₂⟩ := onCell_eq_ok_iff.mp h
  obtain ⟨he₁, ht⟩ := he.seek h₁
  refine ⟨he₁.push h₂, _, ?_, .leg_append ⟨w.cursor, x.index⟩ hne hi⟩
  rw [symbols_of_push h₂, ht, List.append_assoc]

/-- An instruction without moves has no legs. -/
theorem follows_push (hi : ∀ s ∈ i.symbols, s.isMove = false) : Follows (push i) .stay := by
  intro e e' w he h
  exact ⟨he.push h, _, symbols_of_push h, .of_not_isMove hi⟩

/-- The legs of a loop are those to its origin, through its body and back to the origin. -/
theorem Follows.loop (hf : Follows f g) : Follows (loop x f) (.around x g) := by
  intro e e' w he h
  obtain ⟨e₁, e₂, e₃, h₁, h₂, h₃, h⟩ := loop_eq_ok_iff.mp h
  obtain ⟨he₁, hthere⟩ := he.seek h₁
  have hstart : At { e₁ with code := [] } { w with cursor := x.index } := ⟨he₁.cursor, he₁.fragments⟩
  obtain ⟨he₂, t, ht, hbody⟩ := hf hstart h₂
  obtain ⟨he₃, hback⟩ := he₂.seek h₃
  have hplaced : At { e₃ with code := e₁.code } _ := ⟨he₃.cursor, he₃.fragments⟩
  -- a bracket stands behind the way there, and behind the way back
  have hopen : Parted (Leg.symbols ⟨w.cursor, x.index⟩ ++ [.loopStart]) _ :=
    .leg_append _ (by simp) (by simp [Symbol.isMove])
  have hclose : Parted (Leg.symbols ⟨(g { w with cursor := x.index }).2.cursor, x.index⟩ ++ [.loopEnd]) _ :=
    .leg_append _ (by simp) (by simp [Symbol.isMove])
  refine ⟨hplaced.push h, _, ?_, (hopen.append hbody).append hclose⟩
  rw [symbols_of_push_loop h, hback, ht, hthere]
  simp [Code.symbols]

theorem isMove_symbols_add (a : Amount) : ∀ s ∈ (Instruction.add a).symbols, s.isMove = false := by
  intro s hs
  rw [List.eq_of_mem_replicate hs, Amount.direction]
  split <;> rfl

/-- An addition has one leg, to its slot. -/
theorem follows_add {a : Amount} (ha : a.magnitude = 1) : Follows (onCell x (.add a)) (.visit x) :=
  follows_onCell (by simp [Instruction.symbols, ha]) (isMove_symbols_add a)

theorem follows_clear : Follows (onCell x .clear) (.visit x) :=
  follows_onCell (by simp [Instruction.clear, Instruction.symbols])
    (by simp [Instruction.clear, Instruction.symbols, Code.symbols, Symbol.isMove])

/-- A set has one leg: the addition is where the reset is. -/
theorem follows_set (v : Cell) : Follows (set x v) (.visit x) := by
  intro e e' w he h
  obtain ⟨hv, h⟩ := set_eq_ok_iff.mp h
  rw [← onCell_bind_push] at h
  have hfollows := (follows_clear.bind (follows_push (isMove_symbols_add _))) he h
  simpa [Itinerary.andThen, Itinerary.stay] using hfollows

/-- A drain goes from its source to the destination and back. -/
theorem follows_drain {change : Amount} (hchange : change.magnitude = 1) :
    Follows (drain x y change) (.around x ((Itinerary.visit x).andThen (.visit y))) :=
  fun _ _ _ he h =>
    (((follows_add Amount.magnitude_negOne).bind (follows_add hchange)).loop) he (drain_eq_ok_iff.mp h).2

/-- A fragment that is placed has the legs that it was kept with. -/
theorem follows_append (fragment : String) : Follows (append fragment) (.place fragment) := by
  intro e e' w he h
  rw [append] at h
  split at h
  · rename_i c hc
    obtain ⟨hstack, hsymbols⟩ := extend_eq_ok h
    obtain ⟨d, -, rfl⟩ := Violation.map_eq_ok_iff.mp h
    exact ⟨⟨he.cursor, he.fragments⟩, c.symbols, hsymbols, he.exists_lookup hc⟩
  · cases h

theorem At.release (he : e.At w) (h : release x e = .ok e') : e'.At w := by
  obtain ⟨stack, hstack, rfl⟩ := Violation.map_eq_ok_iff.mp h
  obtain ⟨others, -, rfl⟩ := SlotStack.release_eq_ok_iff.mp hstack
  exact ⟨he.cursor, he.fragments⟩

theorem Follows.scope (hf : Follows f g) : Follows (scope f) g := by
  intro e e' w he h
  obtain ⟨e₁, h₁, h₂⟩ := scope_eq_ok_iff.mp h
  have hallocate : e.allocate.At w := ⟨he.cursor, he.fragments⟩
  obtain ⟨he₁, t, ht, hparted⟩ := hf hallocate h₁
  exact ⟨he₁.release h₂, t, (congrArg Code.symbols (release_eq_ok h₂).1).trans ht, hparted⟩

/-- The code of a fragment is emitted apart, and nothing of it shows. -/
theorem follows_detach {fragment : String} {body : List Command} (hf : Follows (emitAll body) g) :
    Follows (emit (.detach fragment body)) (.keep fragment g) := by
  intro e e' w he h
  rw [emit_detach] at h
  obtain ⟨b, hb, ⟨⟩⟩ := detached_bind_eq_ok_iff.mp h
  have hstart : At { e with code := [] } w := ⟨he.cursor, he.fragments⟩
  obtain ⟨hend, t, ht, hparted⟩ := hf hstart hb
  have hcode : Parted b.code.symbols (g w).1 := by rwa [ht]
  exact ⟨⟨hend.cursor, .cons ⟨rfl, hcode⟩ hend.fragments⟩, [], (List.append_nil _).symm,
    .of_not_isMove nofun⟩

mutual

/-- The legs of every command are in its itinerary. By induction on the command, together with
`follows_emitAll`. -/
theorem follows_emit (c : Command) : Follows (emit c) c.itinerary := by
  cases c with
  | allocate =>
    rintro e _ w he ⟨⟩
    exact ⟨⟨he.cursor, he.fragments⟩, [], (List.append_nil _).symm, .of_not_isMove nofun⟩
  | release x =>
    intro e e' w he h
    exact ⟨he.release h, [], by rw [(release_eq_ok h).1, List.append_nil], .of_not_isMove nofun⟩
  | increment | decrement => exact follows_add rfl
  | reset => exact follows_clear
  | read | write =>
    exact follows_onCell (by simp [Instruction.symbols]) (by simp [Instruction.symbols, Symbol.isMove])
  | set x v => exact follows_set v
  | transfer | deduct => exact follows_drain rfl
  | loop x body => exact (follows_emitAll body).loop
  | branch x body => exact ((follows_emitAll body).bind follows_clear).loop
  | scope body => exact (follows_emitAll body).scope
  | detach fragment body => exact follows_detach (follows_emitAll body)
  | append fragment => exact follows_append fragment
  | unknown word => exact fun _ _ _ _ h => nomatch h

/-- The moves in the code of commands are the legs of their itinerary. -/
theorem follows_emitAll (cs : List Command) : Follows (emitAll cs) (Command.itineraryAll cs) := by
  match cs with
  | [] => exact follows_stay
  | c :: rest => exact (follows_emit c).bind (follows_emitAll rest)

end

end Emitter

namespace Command

/-- Moves are shortest. At no nesting level of the code are two moves adjacent, so its text turns back
nowhere, and the code does not end in a move. Hence every maximal run of moves in the text is one of the
legs on which the commands send the pointer, and has one move for each cell between its ends. -/
theorem moves_are_shortest {cs : List Command} {c : Code} (h : compile cs = .ok c) :
    c.movesApart = true ∧ c.Settled ∧
    ¬ "<>".toList <:+: c.text.toList ∧ ¬ "><".toList <:+: c.text.toList ∧
    moveRuns c.symbols = ((itineraryAll cs {}).1.filter (!·.isIdle)).map Leg.symbols := by
  obtain ⟨e, he, rfl⟩ := Violation.map_eq_ok_iff.mp h
  have hstart : Emitter.At {} {} := ⟨rfl, .nil⟩
  have hnormal₀ : Emitter.IsNormal {} := ⟨Code.isNormal_nil, nofun⟩
  have hnormal : e.IsNormal := (Emitter.detachable_emitAll cs).isNormal hnormal₀ he
  have hsettled : e.Settled := .emitAll cs Emitter.Between.start.settled he
  obtain ⟨-, t, ht, hparted⟩ := Emitter.follows_emitAll cs hstart he
  obtain rfl : e.code.symbols = t := ht
  have htext : e.code.text.toList = e.code.symbols.map Symbol.toChar := String.toList_ofList
  rw [htext]
  exact ⟨Code.movesApart_of_straight e.code hnormal.code hparted.straight, hsettled.code,
    hparted.straight.not_adjacent (a := .act .left) (b := .act .right) rfl,
    hparted.straight.not_adjacent (a := .act .right) (b := .act .left) rfl, hparted.runs⟩

/-- A fragment that is placed twice, the second time in the body of a loop, and an empty loop behind it. -/
theorem moves_are_shortest_fragment :
    let cs : List Command := [.detach "f" [.increment ⟨2⟩], .append "f",
      .loop ⟨0⟩ [.append "f", .decrement ⟨1⟩], .loop ⟨1⟩ []]
    ∃ c, compile cs = .ok c ∧ c.text = ">>+<<[>>+>-<]>[]" ∧ c.movesApart = true ∧
      moveRuns c.symbols =
        [⟨0, 2⟩, ⟨2, 0⟩, ⟨0, 2⟩, ⟨0, 1⟩, ⟨1, 0⟩, ⟨0, 1⟩].map Leg.symbols := by
  intro cs
  have hcompile : compile cs = .ok [.right { val := 2 }, .add .one, .right { val := -2 },
      .loop [.right { val := 2 }, .add .one, .right .one, .add .negOne, .right .negOne],
      .right .one, .loop []] := by
    decide +kernel
  obtain ⟨hapart, -, -, -, hruns⟩ := moves_are_shortest hcompile
  have hlegs : (itineraryAll cs {}).1.filter (!·.isIdle)
      = [⟨0, 2⟩, ⟨2, 0⟩, ⟨0, 2⟩, ⟨0, 1⟩, ⟨1, 0⟩, ⟨0, 1⟩] := by
    decide +kernel
  exact ⟨_, hcompile, by decide +kernel, hapart, hlegs ▸ hruns⟩

end Command

end TapeLowering
