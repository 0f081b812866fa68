import TapeLowering.Proofs.Completion
import TapeLowering.Proofs.Crossing

/-!
# Calls of the library

What a call comes to has two sides: that there is code for it, and what the machine does on the text of
that code (`Operation.Lowers`). `Operation.lowers` passes to the machine from what the commands of the
call ensure, or fail with.

Most operations leave one value behind, in the cell of their result. `Workspace.Puts` is what their
callers see of them.
-/

namespace TapeLowering

namespace Workspace

variable {w w' : Workspace} {text : String}

/-- The value of a slot, as a number. -/
def value (w : Workspace) (x : Slot) : Nat := (w.tape.cellAt x.index).toNat

/-- A value is zero if the cell of the store is. -/
theorem value_eq_zero_iff {x : Slot} : w.value x = 0 ↔ w.store.get x = 0 := by
  rw [← UInt64.toNat_inj, UInt64.toNat_zero]
  rfl

/-- The second workspace has a value in the cell of a slot, and is the first one otherwise, except that
cells from `depth` on may have been set to zero. -/
structure Puts (w : Workspace) (depth : Nat) (x : Slot) (v : Nat) (w' : Workspace) : Prop where
  value_eq : w'.value x = v
  live : ∀ i, i < depth → i ≠ x.index → w'.tape.cellAt i = w.tape.cellAt i
  scratch : ∀ i, depth ≤ i → w'.tape.cellAt i = w.tape.cellAt i ∨ w'.tape.cellAt i = 0
  inputs : w'.inputs = w.inputs
  written : w'.written = w.written

/-- A store that has a value put into one cell, and its scratch cells wiped, is what a caller sees of an
operation that leaves one value behind. -/
theorem puts_of_wiped {depth : Nat} {x : Slot} {v : Cell} (hx : x.index < depth)
    (h : Store.Wiped depth (w.store.put x v) w'.store) : w.Puts depth x v.toNat w' where
  value_eq := by
    have hget := h.get_eq hx
    rw [Store.get_put_self] at hget
    exact congrArg UInt64.toNat hget
  live i hi hne := by
    have hcell := (h.cells i).resolve_right fun hwiped => by omega
    rwa [Store.cells_put, if_neg hne] at hcell
  scratch i hi := by
    have hcell := h.cells i
    rw [Store.cells_put, if_neg (by omega)] at hcell
    exact hcell.imp_right And.right
  inputs := h.inputs
  written := h.written

/-- A machine that crosses a text does not fail on it. -/
theorem Crosses.not_failsOn {fault : Fault} (h : w.Crosses text w') : ¬ w.FailsOn text fault := by
  intro hfails
  obtain ⟨n, t, ht, hcounter, -⟩ := h "" "" 0
  obtain ⟨w'', m, u, hu, -, hlt, hstep, -⟩ := (hfails "" "" 0 fault).mpr rfl
  have hsame := ht.eq_of_last (fun _ hlt => absurd hcounter (Nat.ne_of_lt hlt)) hu
    fun _ _ => ⟨_, hstep⟩
  rw [hsame] at hcounter
  exact Nat.ne_of_lt hlt hcounter

end Workspace

namespace Operation

/-- What holds of the result and of both operands holds of every slot of a binary operation. -/
theorem forall_mem_slots_binary {σ : Type} {o : BinaryOperation} {result left right : σ}
    {P : σ → Prop} (hresult : P result) (hleft : P left) (hright : P right) :
    ∀ x ∈ (binary o result left right).slots, P x := by
  simp [slots, hresult, hleft, hright]

/-- A call of the operation is emitted where all indices are in range. It leaves the number of live slots
as it was, and adds a text: `P` holds of this text, of the cursor behind it and of each workspace with
its pointer at the cursor before it. -/
structure Lowers (o : Operation Slot) (e : Emitter) (P : String → Nat → Workspace → Prop) : Prop where
  completes : e.Between → e.cursor < 0x8000000000000000 →
    Command.reachAll (o.routine.commands e.depth) < 0x8000000000000000 →
    ∃ e', Emitter.emitAll (o.routine.commands e.depth) e = .ok e'
  text (e' : Emitter) : Emitter.emitAll (o.routine.commands e.depth) e = .ok e' →
    e'.depth = e.depth ∧ ∃ text, e'.code.text = e.code.text ++ text ∧
      ∀ w : Workspace, w.tape.pointer = e.cursor → P text e'.cursor w

/-- An operation is lowered if its machine does what its commands ensure, and fails as they fail. That
there is code for it is a matter of its slots alone. -/
theorem lowers_of {o : Operation Slot} {e : Emitter} {P : String → Nat → Workspace → Prop}
    (hslots : ∀ x ∈ o.slots, x.index < e.depth) (hne : ∀ x, o ≠ .absorb x x)
    (h : ∀ text cursor w,
      (∀ Q, Command.Ensures (o.routine.commands e.depth) w.store Q →
        ∃ w', w.Crosses text w' ∧ w'.tape.pointer = cursor ∧ Q w'.store) →
      (∀ fault, Command.Fails (o.routine.commands e.depth) w.store fault →
        w.FailsOn text fault) → P text cursor w) : o.Lowers e P where
  completes he hcursor hreach := by
    obtain ⟨m, hfits⟩ := exists_fits hslots hne e.code.load
    obtain ⟨e', he', -⟩ := hfits hreach e (he.ready hcursor)
    exact ⟨e', he'⟩
  text e' he' := by
    obtain ⟨hdepth, d, htext, hperf⟩ := exists_performs hslots he'
    exact ⟨hdepth, d.text, htext, fun w hw => h d.text e'.cursor w (fun _ => hperf.crosses hw)
      fun _ => hperf.failsOn hw⟩

/-- A call that leaves one value behind, or fails. -/
theorem lowers {o : Operation Slot} {e : Emitter} {P : String → Nat → Workspace → Prop}
    (hslots : ∀ x ∈ o.slots, x.index < e.depth) (hne : ∀ x, o ≠ .absorb x x)
    (h : ∀ text cursor w,
      (∀ (x : Slot) (v : Cell), x.index < e.depth →
        Command.Ensures (o.routine.commands e.depth) w.store
          (Store.Wiped e.depth (w.store.put x v)) →
        ∃ w', w.Crosses text w' ∧ w'.tape.pointer = cursor ∧ w.Puts e.depth x v.toNat w') →
      (∀ fault, Command.Fails (o.routine.commands e.depth) w.store fault →
        w.FailsOn text fault) → P text cursor w) : o.Lowers e P := by
  refine lowers_of hslots hne fun text cursor w hdone hfails => h text cursor w (fun x v hx hv => ?_) hfails
  obtain ⟨w', hcrosses, hpointer, hwiped⟩ := hdone _ hv
  exact ⟨w', hcrosses, hpointer, Workspace.puts_of_wiped hx hwiped⟩

/-- A call of the operation is emitted where all indices are in range, and the machine crosses its text
from every workspace. The two workspaces are related by `R`. -/
def LowersTo (o : Operation Slot) (e : Emitter) (R : Workspace → Workspace → Prop) : Prop :=
  o.Lowers e fun text cursor w => ∃ w', w.Crosses text w' ∧ w'.tape.pointer = cursor ∧ R w w'

/-- An operation that cannot fail is lowered to what its commands ensure. -/
theorem lowersTo {o : Operation Slot} {e : Emitter} {R : Workspace → Workspace → Prop}
    (hslots : ∀ x ∈ o.slots, x.index < e.depth) (hne : ∀ x, o ≠ .absorb x x)
    (h : ∀ w : Workspace, Command.Ensures (o.routine.commands e.depth) w.store
      fun s => ∀ w' : Workspace, w'.store = s → R w w') : o.LowersTo e R := by
  refine lowers_of hslots hne fun text cursor w hdone _ => ?_
  obtain ⟨w', hcrosses, hpointer, hR⟩ := hdone _ (h w)
  exact ⟨w', hcrosses, hpointer, hR w' rfl⟩

/-- A call that puts a value into a cell where the value fits, and fails where it does not. -/
theorem lowers_or_fails {o : Operation Slot} {e : Emitter} {x : Slot} {fits : Workspace → Prop}
    {value : Workspace → Nat} {fault : Fault} (hslots : ∀ x ∈ o.slots, x.index < e.depth)
    (hne : ∀ x, o ≠ .absorb x x) (hx : x.index < e.depth)
    (hfits : ∀ w, fits w → ∃ v : Cell, v.toNat = value w ∧
      Command.Ensures (o.routine.commands e.depth) w.store (Store.Wiped e.depth (w.store.put x v)))
    (hfails : ∀ w, ¬ fits w → Command.Fails (o.routine.commands e.depth) w.store fault) :
    o.Lowers e fun text cursor w =>
      (fits w → ∃ w', w.Crosses text w' ∧ w'.tape.pointer = cursor ∧ w.Puts e.depth x (value w) w') ∧
      (w.FailsOn text fault ↔ ¬ fits w) := by
  refine lowers hslots hne fun text cursor w hcross hfail => ?_
  have hdone : fits w →
      ∃ w', w.Crosses text w' ∧ w'.tape.pointer = cursor ∧ w.Puts e.depth x (value w) w' := by
    intro hw
    obtain ⟨v, hv, hensures⟩ := hfits w hw
    exact hv ▸ hcross x v hx hensures
  refine ⟨hdone, fun hfault hw => ?_, fun hw => hfail fault (hfails w hw)⟩
  obtain ⟨w', hcrosses, -⟩ := hdone hw
  exact hcrosses.not_failsOn hfault

/-- Where no code was emitted before, the text of the call is all there is. -/
theorem Lowers.of_empty {o : Operation Slot} {e : Emitter} {P : String → Nat → Workspace → Prop}
    (h : o.Lowers e P) (he : e.Between) (hcursor : e.cursor < 0x8000000000000000)
    (hreach : Command.reachAll (o.routine.commands e.depth) < 0x8000000000000000)
    (hempty : e.code = []) :
    ∃ e', Emitter.emitAll (o.routine.commands e.depth) e = .ok e' ∧
      ∀ w : Workspace, w.tape.pointer = e.cursor → P e'.code.text e'.cursor w := by
  obtain ⟨e', he'⟩ := h.completes he hcursor hreach
  obtain ⟨-, text, htext, hcall⟩ := h.text e' he'
  have hbefore : e.code.text = "" := by
    rw [hempty]
    rfl
  rw [hbefore, String.empty_append] at htext
  subst htext
  exact ⟨e', he', hcall⟩

end Operation

end TapeLowering
