import TapeLowering.Proofs.Joining
import TapeLowering.Proofs.Settled
import TapeLowering.Proofs.TidyRoutines

/-!
# Calls of the library are emitted

Code is generated for every operation of the library, on any live slots. What could go wrong besides
the release of a slot is that an amount leaves its range. A move never fuses with another one, since
there is none at the end of the code (`Emitter.Between.settled`), so an index that is small enough is
reached. An addition may meet a great one there, and whether the sum fits depends on the magnitude of
that one: `Code.load`. A loop brings it down to zero, and every operation begins with a loop.

`Routine.Fits` tells the load behind a routine from the load before it, and is closed under the ways in
which routines are put together.
-/

namespace TapeLowering

/-- Two amounts have a sum if their magnitudes together are in range. -/
theorem Amount.exists_add {a b : Amount} (h : a.magnitude + b.magnitude < 0x8000000000000000) :
    ∃ s, a.add b = .ok s ∧ s.magnitude ≤ a.magnitude + b.magnitude := by
  unfold magnitude at h ⊢
  exact ⟨⟨a.val + b.val, by omega, by omega⟩, ofInt_eq_ok_iff.mpr rfl, by simp only; omega⟩

namespace Code

variable {c body : Code} {a : Amount} {i : Instruction}

/-- The magnitude of the addition that some code ends in, and zero if it ends in none. -/
def load (c : Code) : Nat :=
  match c.getLast? with
  | some (.add a) => a.magnitude
  | _ => 0

/-- The load of code is that of its last instruction. -/
@[simp] theorem load_append_singleton (c : Code) (i : Instruction) :
    load (c ++ [i]) = load [i] := by
  simp [load]

/-- An addition is emitted if it and the one before it fit together. -/
theorem exists_push_add (h : c.load + a.magnitude < 0x8000000000000000) :
    ∃ r, c.push (.add a) = .ok r ∧ r.load ≤ c.load + a.magnitude := by
  rw [push]
  split
  · exact ⟨c, rfl, Nat.le_add_right _ _⟩
  -- two amounts come together only if the last instruction is an addition that fuses
  · by_cases hseam : ∀ k ∈ c.getLast?, k.fuses (.add a) = false
    · refine ⟨c ++ [.add a], joinLast_of_not_fuses hseam, ?_⟩
      rw [load_append_singleton]
      exact Nat.le_add_left _ _
    · obtain ⟨last, hlast, hl⟩ : ∃ last ∈ c.getLast?, last.fuses (.add a) = true := by
        simpa using hseam
      obtain ⟨init, rfl⟩ := List.getLast?_eq_some_iff.mp hlast
      cases last with
      | add b =>
        rw [load_append_singleton] at h ⊢
        obtain ⟨s, hs, hle⟩ := Amount.exists_add (a := b) (b := a) h
        have hjoin : (Instruction.add b).join (.add a) = .ok [.add s] := by
          rw [Instruction.join, if_pos (show b.sameSign a = true from hl), hs]
          rfl
        refine ⟨init ++ [.add s], ?_, ?_⟩
        · rw [joinLast_append_singleton, hjoin]
          rfl
        · rw [load_append_singleton]
          exact hle
      | right | read | write | loop => cases hl

/-- A loop fuses with nothing, so it is put behind the code. -/
theorem push_loop (c body : Code) : c.push (.loop body) = .ok (c ++ [.loop body]) := by
  rw [push, if_neg (by simp [Instruction.isIdle])]
  exact joinLast_of_not_fuses fun k _ => by cases k <;> rfl

/-- A move is emitted behind code that does not end in one. -/
theorem Settled.exists_push_right (hc : c.Settled) (a : Amount) :
    ∃ r, c.push (.right a) = .ok r ∧ r.load ≤ c.load := by
  rw [push]
  split
  · exact ⟨c, rfl, Nat.le_refl _⟩
  · have hseam : ∀ k ∈ c.getLast?, k.fuses (.right a) = false := by
      intro k hk
      have hmove := hc k hk
      cases k with
      | right => cases hmove
      | add | read | write | loop => rfl
    refine ⟨c ++ [.right a], joinLast_of_not_fuses hseam, ?_⟩
    rw [load_append_singleton]
    exact Nat.zero_le _

end Code

namespace Emitter

/-- A number of slots is live, the cursor is in range, and the code is settled and ends in an addition
of no more than some load. -/
structure Ready (depth load : Nat) (e : Emitter) : Prop where
  packed : e.stack.IsPacked
  depth : e.depth = depth
  cursor : e.cursor < 0x8000000000000000
  settled : e.code.Settled
  load : e.code.load ≤ load

end Emitter

/-- An emission succeeds where it is ready, and leaves the number of live slots as it was. -/
def Emission.Completes (f : Emission) (depth load load' : Nat) : Prop :=
  ∀ e : Emitter, e.Ready depth load → ∃ e', f e = .ok e' ∧ e'.Ready depth load'

namespace Emission.Completes

open Emitter

variable {f g : Emission} {depth l m n : Nat} {x y : Slot}

/-- The load between two emissions is the one that the first leaves for the second. -/
theorem bind (hf : f.Completes depth l m) (hg : g.Completes depth m n) :
    Completes (fun e => f e >>= g) depth l n := by
  intro e he
  obtain ⟨e₁, h₁, he₁⟩ := hf e he
  obtain ⟨e₂, h₂, he₂⟩ := hg e₁ he₁
  exact ⟨e₂, Violation.bind_eq_ok_iff.mpr ⟨e₁, h₁, h₂⟩, he₂⟩

/-- A slot within range is reached, since a move has nothing to fuse with in settled code. -/
theorem exists_seek {e : Emitter} (he : e.Ready depth l) (hx : x.index < 0x8000000000000000) :
    ∃ e', seek x e = .ok e' ∧ e'.code.load ≤ l := by
  have hcursor : e.stack.cursor < 0x8000000000000000 := he.cursor
  have hamount : ∃ a, Amount.ofInt ((x.index : Int) - e.stack.cursor) = .ok a :=
    ⟨⟨_, by omega, by omega⟩, Amount.ofInt_eq_ok_iff.mpr rfl⟩
  obtain ⟨a, ha⟩ := hamount
  obtain ⟨c, hc, hle⟩ := he.settled.exists_push_right a
  refine ⟨{ e with stack := e.stack.pointAt x, code := c }, ?_, Nat.le_trans hle he.load⟩
  have hmoves : e.stack.seek x = .ok (.ofInstruction (.right a)) :=
    Violation.map_eq_ok_iff.mpr ⟨a, ha, rfl⟩
  exact Violation.bind_eq_ok_iff.mpr ⟨_, hmoves,
    Violation.map_eq_ok_iff.mpr ⟨c, (Code.extend_ofInstruction _ _).trans hc, rfl⟩⟩

/-- An instruction that is no move settles the code. -/
theorem onCell {i : Instruction} (hx : x.index < 0x8000000000000000) (hi : i.isMove = false)
    (hidle : i.isIdle = false)
    (hpush : ∀ c : Code, c.load ≤ l → ∃ r, c.push i = .ok r ∧ r.load ≤ m) :
    (onCell x i).Completes depth l m := by
  intro e he
  obtain ⟨e₁, h₁, hload⟩ := exists_seek he hx
  obtain ⟨c, hc, hle⟩ := hpush e₁.code hload
  have h₂ : push i e₁ = .ok { e₁ with code := c } := push_eq_ok_iff.mpr ⟨c, hc, rfl⟩
  have h : Emitter.onCell x i e = .ok { e₁ with code := c } := onCell_eq_ok_iff.mpr ⟨e₁, h₁, h₂⟩
  refine ⟨_, h, (tracks_reaches.onCell h).isPacked he.packed, (depth_of_onCell h).trans he.depth, ?_, ?_,
    hle⟩
  · rw [cursor_of_onCell h]
    exact hx
  · rw [Code.push, if_neg (by simp [hidle])] at hc
    exact Code.settled_of_joinLast hi hc

/-- An addition is emitted if the load before it leaves room for it. -/
theorem add {a : Amount} (hx : x.index < 0x8000000000000000) (hidle : a.isZero = false)
    (hl : l + a.magnitude < 0x8000000000000000) :
    (Emitter.onCell x (.add a)).Completes depth l (l + a.magnitude) := by
  refine onCell hx rfl hidle fun c hc => ?_
  obtain ⟨r, hr, hle⟩ := Code.exists_push_add (c := c) (a := a) (by omega)
  exact ⟨r, hr, by omega⟩

/-- Emptying a cell leaves no load behind. -/
theorem clear (hx : x.index < 0x8000000000000000) :
    (Emitter.onCell x .clear).Completes depth l 0 :=
  onCell hx rfl rfl fun c _ => ⟨_, c.push_loop _, Nat.le_of_eq (Code.load_append_singleton c _)⟩

/-- A loop is emitted on any load if its body is emitted on none, and it leaves none. -/
theorem loop (hx : x.index < 0x8000000000000000) (hf : f.Completes depth 0 m) :
    (loop x f).Completes depth l 0 := by
  intro e he
  obtain ⟨e₁, h₁, _⟩ := exists_seek he hx
  have hstart : Ready depth 0 { e₁ with code := [] } :=
    ⟨(tracks_reaches.seek h₁).isPacked he.packed, (depth_of_seek h₁).trans he.depth,
      (cursor_of_seek h₁).trans_lt hx, Code.settled_nil, Nat.le_refl _⟩
  obtain ⟨e₂, h₂, he₂⟩ := hf _ hstart
  obtain ⟨e₃, h₃, _⟩ := exists_seek he₂ hx
  refine ⟨{ e₃ with code := e₁.code ++ [.loop e₃.code] },
    loop_eq_ok_iff.mpr ⟨e₁, e₂, e₃, h₁, h₂, h₃, ?_⟩, ?_⟩
  · exact push_eq_ok_iff.mpr ⟨_, Code.push_loop _ _, rfl⟩
  · exact ⟨(tracks_reaches.seek h₃).isPacked he₂.packed, (depth_of_seek h₃).trans he₂.depth,
      (cursor_of_seek h₃).trans_lt hx, Code.settled_append_singleton.mpr rfl,
      Nat.le_of_eq (Code.load_append_singleton _ _)⟩

/-- Draining a slot into another one is emitted: the two amounts of its body are put behind moves. -/
theorem drain {change : Amount} (hx : x.index < 0x8000000000000000)
    (hy : y.index < 0x8000000000000000) (hne : x ≠ y) (hidle : change.isZero = false)
    (hchange : 1 + change.magnitude < 0x8000000000000000) :
    (drain x y change).Completes depth l 0 := by
  rw [drain_of_ne hne]
  exact loop hx ((add hx rfl (by decide)).bind (add hy hidle (by simpa using hchange)))

/-- Setting a cell to a value that is in range is emitted, and leaves that value as the load. -/
theorem set {v : Cell} (hx : x.index < 0x8000000000000000) (hv : v.toNat < 0x8000000000000000) :
    (set x v).Completes depth l v.toNat := by
  intro e he
  rw [set_of_lt hv]
  obtain ⟨e₁, h₁, he₁⟩ := clear hx e he
  have hload : e₁.code.load + (Amount.ofNat v.toNat hv).magnitude ≤ v.toNat := by
    rw [Nat.le_zero.mp he₁.load, Nat.zero_add, Amount.magnitude_ofNat]
  obtain ⟨c, hc, hle⟩ := Code.exists_push_add (Nat.lt_of_le_of_lt hload hv)
  refine ⟨{ e₁ with code := c }, ?_, he₁.packed, he₁.depth, he₁.cursor,
    Code.settled_of_push he₁.settled rfl hc, Nat.le_trans hle hload⟩
  exact Violation.bind_eq_ok_iff.mpr ⟨e₁, h₁, push_eq_ok_iff.mpr ⟨c, hc, rfl⟩⟩

/-- The slot of a scope is the latest live one again when its body is done. -/
theorem scope (hf : f.Completes (depth + 1) l m) : (scope f).Completes depth l m := by
  intro e he
  have hstart : e.allocate.Ready (depth + 1) l :=
    ⟨he.packed.allocate, congrArg (· + 1) he.depth, he.cursor, he.settled, he.load⟩
  obtain ⟨e₁, h₁, he₁⟩ := hf _ hstart
  have hnext : e.stack.next.index + 1 = e₁.stack.depth :=
    (congrArg (· + 1) he.depth).trans he₁.depth.symm
  obtain ⟨stack, hstack⟩ := he₁.packed.exists_release_iff.mpr hnext
  have h₂ : release e.stack.next e₁ = .ok { e₁ with stack } :=
    Violation.map_eq_ok_iff.mpr ⟨stack, hstack, rfl⟩
  obtain ⟨hcode, hcursor, hdepth⟩ := release_eq_ok h₂
  refine ⟨_, scope_eq_ok_iff.mpr ⟨e₁, h₁, h₂⟩, he₁.packed.release hstack, ?_, ?_, he₁.settled,
    he₁.load⟩
  · have := he₁.depth
    omega
  · rw [hcursor]
    exact he₁.cursor

end Emission.Completes

namespace Routine

open Emitter Command

variable {depth l m n : Nat} {r : Routine} {rs : List Routine} {x y : Slot} {body : Slot → Routine}

/-- Where `depth` slots are live, and if the indices are in range, the commands of a routine are
emitted, with some load before and behind them. -/
def Fits (depth l m : Nat) (r : Routine) : Prop :=
  reachAll (r.commands depth) < 0x8000000000000000 →
    (emitAll (r.commands depth)).Completes depth l m

/-! ## Routines that fit, by their parts -/

theorem fits_nil : (block []).Fits depth l l := fun _ e he => ⟨e, rfl, he⟩

theorem reachAll_append (cs ds : List Command) :
    reachAll (cs ++ ds) = max (reachAll cs) (reachAll ds) := by
  induction cs with
  | nil => rw [List.nil_append, reachAll, Nat.zero_max]
  | cons c rest ih => rw [List.cons_append, reachAll, ih, reachAll, Nat.max_assoc]

/-- A block fits if its routines do, one behind another. -/
theorem Fits.cons (hr : r.Fits depth l m) (hs : (block rs).Fits depth m n) :
    (block (r :: rs)).Fits depth l n := by
  intro hreach
  rw [commands_cons, reachAll_append] at hreach
  rw [commands_cons, funext (emitAll_append _ _)]
  exact (hr (by omega)).bind (hs (by omega))

/-- A routine that is one command fits if the command does. -/
theorem fits_of_emit {c : Command} (hcommands : r.commands depth = [c])
    (h : c.reach < 0x8000000000000000 → (emit c).Completes depth l m) : r.Fits depth l m := by
  intro hreach
  rw [hcommands] at hreach ⊢
  have hc := h (Nat.lt_of_le_of_lt (Nat.le_max_left _ _) hreach)
  exact hc.bind (g := emitAll []) fun e he => ⟨e, rfl, he⟩

theorem fits_reset : (reset x).Fits depth l 0 :=
  fits_of_emit rfl fun hx => .clear hx

/-- A set leaves its value as the load, since the cell is emptied before. -/
theorem fits_set {v : Cell} (hv : v.toNat < 0x8000000000000000) :
    (set x v).Fits depth l v.toNat :=
  fits_of_emit rfl fun hx => .set hx hv

theorem fits_increment (hl : l + 1 < 0x8000000000000000) :
    (increment x).Fits depth l (l + 1) :=
  fits_of_emit rfl fun hx => .add hx rfl hl

theorem fits_decrement (hl : l + 1 < 0x8000000000000000) :
    (decrement x).Fits depth l (l + 1) :=
  fits_of_emit rfl fun hx => .add hx rfl hl

/-- A transfer between two slots fits on any load, as it is a loop. -/
theorem fits_transfer (hne : x ≠ y) : (transfer x y).Fits depth l 0 :=
  fits_of_emit rfl fun hreach =>
    have ⟨hx, hy⟩ := Nat.max_lt.mp hreach
    .drain hx hy hne rfl (by decide)

theorem fits_deduct (hne : x ≠ y) : (deduct x y).Fits depth l 0 :=
  fits_of_emit rfl fun hreach =>
    have ⟨hx, hy⟩ := Nat.max_lt.mp hreach
    .drain hx hy hne rfl (by decide)

/-- A loop fits on any load if its body fits on none. -/
theorem Fits.loop (hr : r.Fits depth 0 m) : (loop x r).Fits depth l 0 :=
  fits_of_emit rfl fun hreach =>
    have ⟨hx, hbody⟩ := Nat.max_lt.mp hreach
    .loop hx (hr hbody)

theorem Fits.branch (hr : r.Fits depth 0 m) : (branch x r).Fits depth l 0 :=
  fits_of_emit rfl fun hreach =>
    have ⟨hx, hbody⟩ := Nat.max_lt.mp hreach
    .loop hx ((hr hbody).bind (.clear hx))

theorem Fits.scratch (h : (body ⟨depth⟩).Fits (depth + 1) l m) :
    (scratch body).Fits depth l m :=
  fits_of_emit rfl fun hreach => .scope (h hreach)

/-! ## The routines -/

/-- A copy to another slot fits on any load, as it begins with a reset and ends with a transfer. -/
theorem fits_copy_of_ne (hne : x ≠ y) (hy : y.index < depth) : (copy x y).Fits depth l 0 := by
  rw [copy, if_neg hne]
  exact .scratch <| fits_reset.cons <| fits_reset.cons <|
    (((fits_decrement (by decide)).cons <| (fits_increment (by decide)).cons <|
      (fits_increment (by decide)).cons fits_nil).loop).cons <|
    (fits_transfer (Slot.mk_ne_of_lt hy)).cons fits_nil

/-- A routine that works on a copy needs no room before it. -/
theorem fits_holding (hx : x.index < depth) (h : (body ⟨depth⟩).Fits (depth + 1) 0 m) :
    (holding x body).Fits depth l m :=
  .scratch <| (fits_copy_of_ne (Slot.mk_ne_of_lt hx) (Nat.lt_succ_of_lt hx)).cons <| h.cons fits_nil

/-- A routine that holds two operands fits if it does so behind the two copies, which leave no load. -/
theorem fits_holding_pair {body : Slot → Slot → Routine} (hx : x.index < depth)
    (hy : y.index < depth) (h : (body ⟨depth⟩ ⟨depth + 1⟩).Fits (depth + 2) 0 m) :
    (holding x fun lhs => holding y fun rhs => body lhs rhs).Fits depth l m :=
  fits_holding hx (fits_holding (Nat.lt_succ_of_lt hy) h)

section

variable {result left right : Slot} (hresult : result.index < depth) (hleft : left.index < depth)
  (hright : right.index < depth)

include hleft in
theorem fits_not : (not result left).Fits depth l 0 :=
  fits_holding hleft <| (fits_set (by decide)).cons <|
    (fits_decrement (by decide)).branch.cons fits_nil

include hleft hright in
theorem fits_and : (and result left right).Fits depth l 0 :=
  fits_holding_pair hleft hright <| fits_reset.cons <|
    (fits_increment (by decide)).branch.branch.cons <| fits_reset.cons fits_nil

include hleft hright in
theorem fits_or : (or result left right).Fits depth l 0 :=
  fits_holding_pair hleft hright <| fits_reset.cons <|
    ((fits_increment (by decide)).cons <| fits_reset.cons fits_nil).branch.cons <|
    (fits_increment (by decide)).branch.cons fits_nil

include hleft hright in
theorem fits_cancel : (cancel left right).Fits depth l 0 :=
  have hand : ∀ l, (and ⟨depth⟩ left right).Fits (depth + 1) l 0 :=
    fun _ => fits_and (Nat.lt_succ_of_lt hleft) (Nat.lt_succ_of_lt hright)
  .scratch <| (hand l).cons <|
    ((fits_decrement (by decide)).cons <| (fits_decrement (by decide)).cons <|
      (hand _).cons fits_nil).loop.cons fits_nil

include hleft hright in
theorem fits_lt : (lt result left right).Fits depth l 0 :=
  have hnot : (not ⟨depth + 2⟩ ⟨depth⟩).Fits (depth + 3) 0 0 := fits_not (by simp)
  have hand : (and result ⟨depth + 2⟩ ⟨depth + 1⟩).Fits (depth + 3) 0 0 :=
    fits_and (by simp) (by simp)
  fits_holding_pair hleft hright <| (fits_cancel (by simp) (by simp)).cons <|
    (Fits.scratch <| hnot.cons <| hand.cons <| fits_reset.cons <| fits_reset.cons <|
      fits_reset.cons fits_nil).cons fits_nil

include hleft hright in
theorem fits_le : (le result left right).Fits depth l 0 :=
  fits_holding_pair hleft hright <| (fits_cancel (by simp) (by simp)).cons <|
    (fits_not (by simp)).cons <| fits_reset.cons <| fits_reset.cons fits_nil

include hresult hleft hright

theorem fits_add : (add result left right).Fits depth l 0 :=
  fits_holding_pair hleft hright <| fits_reset.cons <|
    (fits_transfer (Slot.mk_ne_of_lt hresult)).cons <|
    (fits_transfer (Slot.mk_ne_of_lt (Nat.lt_succ_of_lt hresult))).cons fits_nil

theorem fits_sub : (sub result left right).Fits depth l 0 :=
  fits_holding_pair hleft hright <| fits_reset.cons <|
    (fits_transfer (Slot.mk_ne_of_lt hresult)).cons <|
    (fits_deduct (Slot.mk_ne_of_lt (Nat.lt_succ_of_lt hresult))).cons fits_nil

/-- A product fits on any load: it begins with a copy, and the rest is a reset and a loop. -/
theorem fits_mul : (mul result left right).Fits depth l 0 :=
  have hterm : (holding ⟨depth + 1⟩ fun term => transfer term result).Fits (depth + 2) 0 0 :=
    fits_holding (by simp) (fits_transfer (Slot.mk_ne_of_lt (by omega)))
  fits_holding_pair hleft hright <| fits_reset.cons <|
    (hterm.cons <| (fits_decrement (by decide)).cons fits_nil).loop.cons <|
    fits_reset.cons fits_nil

end

/-- A division fits on any load. Its quotient is emptied behind the copies, and its rounds are a
loop. -/
theorem fits_divMod {quotient remainder dividend divisor : Slot} (hr : remainder.index < depth)
    (hx : dividend.index < depth) (hy : divisor.index < depth) :
    (divMod quotient remainder dividend divisor).Fits depth l 0 :=
  have hge : ∀ l, (ge ⟨depth + 2⟩ ⟨depth⟩ ⟨depth + 1⟩).Fits (depth + 3) l 0 :=
    fun _ => fits_le (by simp) (by simp)
  have hsub : (sub ⟨depth⟩ ⟨depth⟩ ⟨depth + 1⟩).Fits (depth + 3) 0 0 :=
    fits_sub (by simp) (by simp) (by simp)
  have hrest : (⟨depth⟩ : Slot) ≠ remainder := Slot.mk_ne_of_lt hr
  fits_holding_pair hx hy <| fits_reset.cons <|
    (Fits.scratch <| (hge 0).cons <|
      (hsub.cons <| (fits_increment (by decide)).cons <| (hge _).cons fits_nil).loop.cons <|
      fits_reset.cons <| fits_reset.cons <| (fits_transfer hrest).cons fits_nil).cons fits_nil

end Routine

/-- Every operation of the library fits on any load, on live slots, unless it absorbs a slot into
itself. The copy of a slot to itself emits nothing, so it leaves the load that it found. -/
theorem Operation.exists_fits {o : Operation Slot} {depth : Nat}
    (h : ∀ x ∈ o.slots, x.index < depth) (hne : ∀ x, o ≠ .absorb x x) (l : Nat) :
    ∃ m, o.routine.Fits depth l m := by
  cases o with
  | clear x => exact ⟨0, Routine.fits_reset⟩
  | absorb x y =>
    have hxy : y ≠ x := fun heq => hne x (by rw [heq])
    exact ⟨0, Routine.fits_transfer hxy⟩
  | copy x y =>
    simp only [slots, List.forall_mem_cons] at h
    by_cases hxy : x = y
    · refine ⟨l, ?_⟩
      rw [routine, Routine.copy, if_pos hxy]
      exact Routine.fits_nil
    · exact ⟨0, Routine.fits_copy_of_ne hxy h.2.1⟩
  | not x y =>
    simp only [slots, List.forall_mem_cons] at h
    exact ⟨0, Routine.fits_not h.2.1⟩
  | cancel x y =>
    simp only [slots, List.forall_mem_cons] at h
    exact ⟨0, Routine.fits_cancel h.1 h.2.1⟩
  | binary b z x y =>
    simp only [slots, List.forall_mem_cons] at h
    obtain ⟨hz, hx, hy, _⟩ := h
    refine ⟨0, ?_⟩
    cases b with
    | add => exact Routine.fits_add hz hx hy
    | sub => exact Routine.fits_sub hz hx hy
    | mul => exact Routine.fits_mul hz hx hy
    | and => exact Routine.fits_and hx hy
    | or => exact Routine.fits_or hx hy
    | lt => exact Routine.fits_lt hx hy
    | le => exact Routine.fits_le hx hy
    | gt => exact Routine.fits_lt hy hx
    | ge => exact Routine.fits_le hy hx
  | divMod q r x y =>
    simp only [slots, List.forall_mem_cons] at h
    exact ⟨0, Routine.fits_divMod h.2.1 h.2.2.1 h.2.2.2.1⟩

namespace Emitter

open Command

/-- An emitter between two commands is ready for any call of the library. -/
theorem Between.ready {e : Emitter} (h : e.Between) (hcursor : e.cursor < 0x8000000000000000) :
    e.Ready e.depth e.code.load :=
  ⟨h.isPacked, rfl, hcursor, h.settled.code, Nat.le_refl _⟩

/-- The live slots are packed, whatever slots are allocated, released and moved to, so only the one
with the greatest index can be released. Hence a scope can be left if and only if its body ends with
as many live slots as it started with, and commands that make slots live by scopes only always do.
Every operation of the library is emitted, on any live slots, as long as the indices are in range. -/
theorem keeps_stack_discipline :
    (∀ s, SlotStack.Reaches {} s →
      s.live = (List.range s.depth).reverse.map Slot.mk ∧ s.live.Nodup ∧
      ∀ x, (∃ t, s.release x = .ok t) ↔ x.index + 1 = s.depth) ∧
    (∀ (e e₁ : Emitter) (body : List Command), e.Between → emitAll body e.allocate = .ok e₁ →
      ((∃ e', emit (.scope body) e = .ok e') ↔ e₁.depth = e.allocate.depth) ∧
      (emit (.scope body) e = .error .releaseOrder ↔ e₁.depth ≠ e.allocate.depth)) ∧
    (∀ (cs : List Command) (e : Emitter), areScoped cs = true →
      emitAll cs e ≠ .error .releaseOrder ∧
      ∀ e', emitAll cs e = .ok e' → e'.depth = e.depth) ∧
    ∀ (o : Operation Slot) (e : Emitter), e.Between → (∀ x ∈ o.slots, x.index < e.depth) →
      (∀ x, o ≠ .absorb x x) → e.cursor < 0x8000000000000000 →
      reachAll (o.routine.commands e.depth) < 0x8000000000000000 →
      ∃ e', emitAll (o.routine.commands e.depth) e = .ok e' ∧ e'.depth = e.depth := by
  refine ⟨?_, ?_, ?_, ?_⟩
  · intro s hs
    have hpacked := hs.isPacked SlotStack.isPacked_empty
    exact ⟨hpacked, hpacked.nodup, fun x => hpacked.exists_release_iff⟩
  · intro e e₁ body he h₁
    have hallocate : e.allocate.stack.IsPacked := he.isPacked.allocate
    have hpacked := (reaches_of_emitAll h₁).isPacked hallocate
    exact ⟨exists_scope_iff hpacked h₁, scope_eq_error_iff hpacked h₁⟩
  · intro cs e hscoped
    have hkeeps := keepsLive_emitAll cs hscoped
    exact ⟨hkeeps.ordered e, fun e' h => congrArg List.length (hkeeps.live h)⟩
  · intro o e he hslots hne hcursor hreach
    obtain ⟨m, hfits⟩ := Operation.exists_fits hslots hne e.code.load
    obtain ⟨e', h, hready⟩ := hfits hreach e (he.ready hcursor)
    exact ⟨e', h, hready.depth⟩

/-- A division whose results and operands are all in one cell is emitted. -/
theorem keeps_stack_discipline_aliased :
    let x : Slot := ⟨0⟩
    ∃ e', emitAll ((Operation.divMod x x x x).routine.commands 1) (allocate {}) = .ok e' ∧
      e'.depth = 1 := by
  intro x
  have he : Between (allocate {}) := Between.start.emit (c := .allocate) rfl
  exact keeps_stack_discipline.2.2.2 (.divMod x x x x) (allocate {}) he (by decide) nofun (by decide)
    (by decide)

end Emitter

end TapeLowering
