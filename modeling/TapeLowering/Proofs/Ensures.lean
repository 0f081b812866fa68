import TapeLowering.Proofs.TidyRoutines
import TapeLowering.Proofs.UnitSteps

/-!
# What commands ensure

`Command.Ensures` says that some commands end without a failure, and what holds of the store then. It
passes through the ways in which routines are put together: the routines of a block one after the
other, the two cases of a branch, and the rounds of a loop (`ensures_loop`).

Commands may also fail, or go on. What is done before does not matter to how they end, as soon as it is
done: `Command.Inherited` is what such statements have in common.

A routine leaves its scratch cells at zero, and which cells these are is of no interest to its callers.
`Store.Wiped` relates two stores that differ in nothing but such cells.
-/

namespace TapeLowering

open Outcome

namespace Command

variable {cs ds : List Command} {s : Store} {Q R : Store → Prop}

/-- With enough fuel the commands are done, in a store of which a statement holds. -/
def Ensures (cs : List Command) (s : Store) (Q : Store → Prop) : Prop :=
  ∃ fuel t, runAll fuel cs s = .done t ∧ Q t

/-- What is ensured may be weakened. -/
theorem Ensures.mono (h : Ensures cs s Q) (hQR : ∀ t, Q t → R t) : Ensures cs s R := by
  obtain ⟨fuel, t, ht, hQ⟩ := h
  exact ⟨fuel, t, ht, hQR t hQ⟩

/-- With any amount of fuel the commands end like that, or have not ended. -/
theorem Ensures.unfinished_or (h : Ensures cs s Q) (fuel : Nat) :
    runAll fuel cs s = .unfinished ∨ ∃ t, runAll fuel cs s = .done t ∧ Q t := by
  obtain ⟨n, t, ht, hQ⟩ := h
  by_cases hfuel : runAll fuel cs s = .unfinished
  · exact .inl hfuel
  · have hsame := (growing_runAll cs s).unique hfuel (n := fuel) (m := n) (by simp [ht])
    exact .inr ⟨t, hsame.trans ht, hQ⟩

@[simp] theorem ensures_nil : Ensures [] s Q ↔ Q s := by
  simp [Ensures, runAll]

/-- Once the first commands are done, what is known of the others is known of all of them. -/
theorem runAll_append_of_done {n m : Nat} {t : Store} (ht : runAll n cs s = .done t)
    (hne : runAll m ds t ≠ .unfinished) : runAll (max n m) (cs ++ ds) s = runAll m ds t := by
  rw [runAll_append]
  exact (growing_runAll cs s).andThen_of_done (growing_runAll ds) ht hne

/-- Commands one after the other ensure what the second ones do on whatever the first ones leave. -/
theorem ensures_append : Ensures (cs ++ ds) s Q ↔ Ensures cs s fun t => Ensures ds t Q := by
  constructor
  · rintro ⟨fuel, u, hu, hQ⟩
    rw [runAll_append] at hu
    cases ht : runAll fuel cs s with
    | done t =>
      rw [ht, andThen_done] at hu
      exact ⟨fuel, t, ht, fuel, u, hu, hQ⟩
    | failed | unfinished => simp [ht] at hu
  · rintro ⟨n, t, ht, m, u, hu, hQ⟩
    exact ⟨max n m, u, (runAll_append_of_done ht (by simp [hu])).trans hu, hQ⟩

/-! ## Single commands -/

/-- A list of one command ensures what the command does. -/
theorem ensures_singleton {c : Command} :
    Ensures [c] s Q ↔ ∃ fuel t, c.run fuel s = .done t ∧ Q t := by
  simp only [Ensures, runAll, andThen_done_right]

/-- A command whose outcome does not depend on fuel. -/
theorem ensures_of_run {c : Command} {t : Store} (h : ∀ fuel, c.run fuel s = .done t) :
    Ensures [c] s Q ↔ Q t := by
  rw [ensures_singleton]
  simp only [h, done.injEq, exists_const, exists_eq_left']

/-! ## Loops -/

variable {x : Slot} {body : List Command}

/-- A loop repeats its body while its origin is not zero. -/
theorem runAll_loop (fuel : Nat) (x : Slot) (body : List Command) (s : Store) :
    runAll fuel [.loop x body] s
      = repeatWhile (fun s => s.get x != 0) (runAll fuel body) fuel s := by
  simp only [runAll, run, andThen_done_right]

theorem ensures_loop_of_eq_zero (h : s.get x = 0) : Ensures [.loop x body] s Q ↔ Q s := by
  refine ensures_of_run fun fuel => ?_
  rw [run]
  exact repeatWhile_of_not (by simp [h]) _ _

/-- Once a round is done, what is known of the rest of a loop is known of the loop. -/
theorem runAll_loop_of_done {n m : Nat} {t : Store} (h : s.get x ≠ 0)
    (ht : runAll n body s = .done t) (hne : runAll m [.loop x body] t ≠ .unfinished) :
    runAll (max n m + 1) [.loop x body] s = runAll m [.loop x body] t := by
  rw [runAll_loop] at hne ⊢
  rw [runAll_loop]
  exact repeatWhile_of_done (growing_runAll body) (by simp [h]) ht hne

/-- A round comes before the rest of a loop. -/
theorem Ensures.loop_of_ne_zero (h : s.get x ≠ 0)
    (hround : Ensures body s fun t => Ensures [.loop x body] t Q) : Ensures [.loop x body] s Q := by
  obtain ⟨n, t, ht, m, u, hu, hQ⟩ := hround
  exact ⟨max n m + 1, u, (runAll_loop_of_done h ht (by simp [hu])).trans hu, hQ⟩

/-- A loop ends if every round leaves it with one round less. -/
theorem ensures_loop {P : Nat → Store → Prop} (hstop : ∀ s, P 0 s → s.get x = 0)
    (hround : ∀ n s, P (n + 1) s → s.get x ≠ 0 ∧ Ensures body s (P n)) {n : Nat}
    (h : P n s) : Ensures [.loop x body] s (P 0) := by
  induction n generalizing s with
  | zero => exact (ensures_loop_of_eq_zero (hstop s h)).mpr h
  | succ n ih =>
    obtain ⟨hne, hbody⟩ := hround n s h
    exact .loop_of_ne_zero hne (hbody.mono fun t ht => ih ht)

/-! ## How commands end, by their last part -/

/-- A statement on how commands end from a store, which is the same for what other commands leave to them
and inside of a scope. -/
structure Inherited (P : List Command → Store → Prop) : Prop where
  append {cs ds : List Command} {s : Store} : Ensures cs s (P ds) → P (cs ++ ds) s
  scope {body : List Command} {s : Store} : P body s → P [.scope body] s

/-- A statement that commands do not come to their end, so that it is the same whatever comes after
them. -/
structure Breaks (P : List Command → Store → Prop) : Prop extends Inherited P where
  append_left {cs ds : List Command} {s : Store} : P cs s → P (cs ++ ds) s

theorem runAll_scope (fuel : Nat) (body : List Command) (s : Store) :
    runAll fuel [.scope body] s = runAll fuel body s :=
  andThen_done_right _

theorem inherited_ensures (Q : Store → Prop) : Inherited fun cs s => Ensures cs s Q where
  append := ensures_append.mpr
  scope := by
    rintro body s ⟨fuel, t, ht, hQ⟩
    exact ⟨fuel, t, (runAll_scope fuel body s).trans ht, hQ⟩

/-- Not having ended breaks off whatever follows. -/
theorem breaks_unfinished (fuel : Nat) : Breaks fun cs s => runAll fuel cs s = .unfinished where
  append {cs ds s} h := by
    rw [runAll_append]
    rcases h.unfinished_or fuel with hcs | ⟨t, ht, hds⟩
    · rw [hcs, andThen_unfinished]
    · rw [ht, andThen_done, hds]
  scope {body s} h := (runAll_scope fuel body s).trans h
  append_left {cs ds s} h := by rw [runAll_append, h, andThen_unfinished]

/-! ## Loops that have not ended -/

variable {fuel : Nat}

/-- A loop that has a round left for every unit of fuel, and one more, has not ended. -/
theorem unfinished_loop {P : Nat → Store → Prop} (hgoes : ∀ n s, P n s → s.get x ≠ 0)
    (hround : ∀ n s, P (n + 1) s → Ensures body s (P n)) (h : P fuel s) :
    runAll fuel [.loop x body] s = .unfinished := by
  have hrounds : ∀ n s, P n s →
      repeatWhile (fun s => s.get x != 0) (runAll fuel body) n s = .unfinished := by
    intro n
    induction n with
    | zero =>
      intro s h
      exact repeatWhile_zero_of_test (by simp [hgoes 0 s h]) _
    | succ n ih =>
      intro s h
      rw [repeatWhile_succ_of_test (by simp [hgoes _ s h])]
      rcases (hround n s h).unfinished_or fuel with hbody | ⟨t, ht, hP⟩
      · rw [hbody, andThen_unfinished]
      · rw [ht, andThen_done, ih t hP]
  rw [runAll_loop]
  exact hrounds fuel s h

end Command

open Command

namespace Routine

variable {depth : Nat} {s : Store} {Q : Store → Prop} {r : Routine} {rs : List Routine}
  {x y : Slot} {body : Slot → Routine}

/-! ## Routines, by their parts -/

@[simp] theorem ensures_block_nil : Ensures ((block []).commands depth) s Q ↔ Q s := ensures_nil

/-- A block is run one routine after the other. -/
@[simp] theorem ensures_block_cons : Ensures ((block (r :: rs)).commands depth) s Q ↔
    Ensures (r.commands depth) s fun t => Ensures ((block rs).commands depth) t Q := by
  rw [commands_cons, ensures_append]

@[simp] theorem ensures_reset : Ensures ((reset x).commands depth) s Q ↔ Q (s.put x 0) :=
  ensures_of_run fun _ => rfl

@[simp] theorem ensures_set {v : Cell} :
    Ensures ((set x v).commands depth) s Q ↔ Q (s.put x v) :=
  ensures_of_run fun _ => rfl

/-- An increment adds one, if the cell has room for it. -/
theorem ensures_increment (h : (s.get x).toNat + 1 < 0x10000000000000000) :
    Ensures ((increment x).commands depth) s Q ↔ Q (s.put x (s.get x + 1)) := by
  have hsucc : (s.get x).succ? = some (s.get x + 1) := by
    rw [Cell.succ?, if_neg]
    intro hgreatest
    rw [hgreatest, Cell.toNat_greatest] at h
    omega
  refine ensures_of_run fun _ => ?_
  rw [run, Store.increment, hsucc, Store.change]

/-- A decrement takes one, if the cell is not zero. -/
theorem ensures_decrement (h : s.get x ≠ 0) :
    Ensures ((decrement x).commands depth) s Q ↔ Q (s.put x (s.get x - 1)) := by
  refine ensures_of_run fun _ => ?_
  rw [run, Store.decrement, Cell.pred?, if_neg h, Store.change]

/-- A transfer adds the source to the destination and leaves zero, if the destination has room for the
sum. -/
theorem ensures_transfer (h : (s.get x).toNat + (s.get y).toNat < 0x10000000000000000) :
    Ensures ((transfer x y).commands depth) s Q ↔
      Q ((s.put y (s.get y + s.get x)).put x 0) := by
  refine ensures_of_run fun _ => ?_
  rw [run, Store.transfer, if_pos h]

/-- A deduction takes the source from the destination and leaves zero, if there is as much to take. -/
theorem ensures_deduct (h : s.get x ≤ s.get y) :
    Ensures ((deduct x y).commands depth) s Q ↔ Q ((s.put y (s.get y - s.get x)).put x 0) := by
  refine ensures_of_run fun _ => ?_
  rw [run, Store.deduct, if_pos h]

theorem ensures_branch_of_eq_zero (h : s.get x = 0) :
    Ensures ((branch x r).commands depth) s Q ↔ Q s :=
  ensures_of_run fun _ => if_pos h

/-- A branch whose condition is not zero does its body and leaves zero in the condition. -/
theorem ensures_branch_of_ne_zero (h : s.get x ≠ 0) :
    Ensures ((branch x r).commands depth) s Q ↔
      Ensures (r.commands depth) s fun t => Q (t.put x 0) := by
  simp only [branch, ensures_singleton, run, if_neg h]
  constructor
  · rintro ⟨fuel, u, hu, hQ⟩
    cases ht : runAll fuel (r.commands depth) s with
    | done t =>
      rw [ht, andThen_done] at hu
      cases hu
      exact ⟨fuel, t, ht, hQ⟩
    | failed | unfinished => simp [ht] at hu
  · rintro ⟨fuel, t, ht, hQ⟩
    exact ⟨fuel, t.put x 0, by rw [ht, andThen_done], hQ⟩

/-- A routine with a scratch slot ensures what its body does on the next slot. -/
@[simp] theorem ensures_scratch : Ensures ((scratch body).commands depth) s Q ↔
    Ensures ((body ⟨depth⟩).commands (depth + 1)) s Q := by
  simp only [scratch, ensures_singleton, run]
  rfl

end Routine

/-! ## How routines end, by their parts -/

section

variable {depth : Nat} {s : Store} {P : List Command → Store → Prop} {r : Routine}
  {rs : List Routine} {body : Slot → Routine}

/-- A routine ends as the rest of its block does, on what the first one leaves. -/
theorem Command.Inherited.tail (hP : Inherited P)
    (h : Ensures (r.commands depth) s (P ((Routine.block rs).commands depth))) :
    P ((Routine.block (r :: rs)).commands depth) s := by
  rw [Routine.commands_cons]
  exact hP.append h

theorem Command.Inherited.scratch (hP : Inherited P)
    (h : P ((body ⟨depth⟩).commands (depth + 1)) s) :
    P ((Routine.scratch body).commands depth) s :=
  hP.scope h

/-- A block is broken off by its first routine. -/
theorem Command.Breaks.head (hP : Breaks P) (h : P (r.commands depth) s) :
    P ((Routine.block (r :: rs)).commands depth) s := by
  rw [Routine.commands_cons]
  exact hP.append_left h

end

/-! ## Stores that differ in scratch cells -/

namespace Store

variable {depth depth' : Nat} {s t u : Store} {x y : Slot} {v : Cell}

/-- The second store is the first one, but for some cells from `depth` on, which hold zero. -/
structure Wiped (depth : Nat) (s t : Store) : Prop where
  cells : ∀ i, t.cells i = s.cells i ∨ depth ≤ i ∧ t.cells i = 0
  inputs : t.inputs = s.inputs
  written : t.written = s.written

/-- A cell holds what was put there, and any other cell what it held before. -/
theorem get_put (s : Store) (x : Slot) (v : Cell) (y : Slot) :
    (s.put x v).get y = if y = x then v else s.get y := by
  split
  · rename_i h
    rw [h, get_put_self]
  · rename_i h
    exact get_put_of_ne h s v

theorem cells_put (s : Store) (x : Slot) (v : Cell) (i : Nat) :
    (s.put x v).cells i = if i = x.index then v else s.cells i := rfl

namespace Wiped

theorem refl (s : Store) : Wiped depth s s := ⟨fun _ => .inl rfl, rfl, rfl⟩

/-- Wiping more cells of a store that is wiped already is wiping. -/
theorem trans (h : Wiped depth s t) (h' : Wiped depth t u) : Wiped depth s u where
  cells i := by
    rcases h'.cells i with hu | hu
    · rw [hu]
      exact h.cells i
    · exact .inr hu
  inputs := h'.inputs.trans h.inputs
  written := h'.written.trans h.written

/-- Cells that are wiped above one depth are wiped above a lower one. -/
theorem mono (h : Wiped depth' s t) (hle : depth ≤ depth') : Wiped depth s t where
  cells i := (h.cells i).imp_right fun hi => ⟨Nat.le_trans hle hi.1, hi.2⟩
  inputs := h.inputs
  written := h.written

/-- A cell below the depth is not wiped. -/
theorem get_eq (h : Wiped depth s t) (hx : x.index < depth) : t.get x = s.get x :=
  (h.cells x.index).resolve_right fun hi => by omega

/-- The same value put into the same cell of both stores leaves them apart by no more than before. -/
theorem put (h : Wiped depth s t) (x : Slot) (v : Cell) :
    Wiped depth (s.put x v) (t.put x v) where
  cells i := by
    rw [cells_put, cells_put]
    split
    · exact .inl rfl
    · exact h.cells i
  inputs := h.inputs
  written := h.written

/-- The first scratch cell is one no more when both stores have the same value there. -/
theorem put_next (h : Wiped depth s t) :
    Wiped (depth + 1) (s.put ⟨depth⟩ v) (t.put ⟨depth⟩ v) where
  cells i := by
    rw [cells_put, cells_put]
    split
    · exact .inl rfl
    · exact (h.cells i).imp_right fun hi => ⟨by simp only at *; omega, hi.2⟩
  inputs := h.inputs
  written := h.written

/-- A scratch cell that is set to zero makes no difference. -/
theorem put_zero (h : Wiped depth s t) (hx : depth ≤ x.index) : Wiped depth s (t.put x 0) where
  cells i := by
    rw [cells_put]
    split
    · exact .inr ⟨by omega, rfl⟩
    · exact h.cells i
  inputs := h.inputs
  written := h.written

end Wiped

end Store

end TapeLowering
