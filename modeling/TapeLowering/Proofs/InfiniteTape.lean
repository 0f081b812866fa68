import Mathlib.Order.Lattice.Nat
import TapeLowering.Tape

/-!
# The tape with all its cells

`Tape` holds finitely many cells, and which ones depends on how the pointer moved. `FullTape` is the
tape with all its cells, a total function of the index. `Tape.attemptAll_agrees` says that no sequence
of primitives tells the two apart, faults included, and that the cells which a tape holds are those up
to the pointer or to the last cell that is not zero, whichever is further to the right.

`Tape.toFull` forgets how a tape is held, and every primitive commutes with it (`toFull_apply`). The
other half rests on one invariant (`Tape.IsTrim`): the last cell right of the pointer is not zero. By
it the number of cells is the least one that will do, hence what is held follows from the pointer and
the contents (`eq_of_toFull`).
-/

namespace TapeLowering

/-- What can be done to a tape. -/
inductive Primitive where
  /-- Moves the pointer to the right. -/
  | right
  /-- Moves the pointer to the left. -/
  | left
  /-- Adds one to the cell under the pointer. -/
  | increment
  /-- Takes one from the cell under the pointer. -/
  | decrement
  /-- Overwrites the cell under the pointer. -/
  | put (value : Cell)
  deriving Repr, DecidableEq

section

variable {α β : Type}

/-- What is left of a tape after a primitive: one that fails changes nothing. -/
def attempt (apply : α → Primitive → Except Fault α) (tape : α) (p : Primitive) : α :=
  match apply tape p with
  | .ok next => next
  | .error _ => tape

/-- What is left of a tape after primitives in order. -/
def attemptAll (apply : α → Primitive → Except Fault α) (tape : α) (ps : List Primitive) : α :=
  ps.foldl (attempt apply) tape

/-- A view of tapes that each primitive commutes with is one that sequences commute with. -/
theorem map_attemptAll {apply : α → Primitive → Except Fault α}
    {apply' : β → Primitive → Except Fault β} {view : α → β}
    (h : ∀ tape p, (apply tape p).map view = apply' (view tape) p) (tape : α)
    (ps : List Primitive) :
    view (attemptAll apply tape ps) = attemptAll apply' (view tape) ps := by
  induction ps generalizing tape with
  | nil => rfl
  | cons p rest ih =>
    have hfirst : view (attempt apply tape p) = attempt apply' (view tape) p := by
      rw [attempt, attempt, ← h]
      cases apply tape p <;> rfl
    rw [attemptAll, List.foldl_cons, ← attemptAll, ih, hfirst]
    rfl

/-- What each primitive keeps, a sequence keeps. -/
theorem attemptAll_induction {apply : α → Primitive → Except Fault α} {P : α → Prop}
    (h : ∀ {tape p next}, P tape → apply tape p = .ok next → P next) {tape : α} (htape : P tape)
    (ps : List Primitive) : P (attemptAll apply tape ps) := by
  induction ps generalizing tape with
  | nil => exact htape
  | cons p rest ih =>
    apply ih
    rw [attempt]
    split
    · rename_i next hnext
      exact h htape hnext
    · exact htape

end

/-- A tape with all its cells, of which the first one has the index zero. -/
structure FullTape where
  /-- The value of every cell. -/
  cells : Nat → Cell := fun _ => 0
  /-- The index of the cell under the pointer. -/
  pointer : Nat := 0

namespace FullTape

/-- The value of the cell under the pointer. -/
def current (f : FullTape) : Cell := f.cells f.pointer

/-- Overwrites the cell under the pointer. -/
def put (value : Cell) (f : FullTape) : FullTape :=
  { f with cells := fun i => if i = f.pointer then value else f.cells i }

/-- Does one primitive. -/
def apply (f : FullTape) : Primitive → Except Fault FullTape
  | .right => .ok { f with pointer := f.pointer + 1 }
  | .left =>
    if f.pointer = 0 then .error .leftOfOrigin else .ok { f with pointer := f.pointer - 1 }
  | .increment =>
    if f.current.toNat + 1 < 0x10000000000000000 then .ok (f.put (f.current + 1))
    else .error (.cellOverflow f.pointer)
  | .decrement =>
    if f.current = 0 then .error (.decrementOfZero f.pointer) else .ok (f.put (f.current - 1))
  | .put value => .ok (f.put value)

end FullTape

namespace Tape

variable {t u : Tape}

/-- Does one primitive. -/
def apply (t : Tape) : Primitive → Except Fault Tape
  | .right => .ok t.right
  | .left => t.left
  | .increment => t.increment
  | .decrement => t.decrement
  | .put value => .ok (t.put value)

/-- The tape with all its cells. -/
def toFull (t : Tape) : FullTape := ⟨t.cellAt, t.pointer⟩

/-! ## Primitives -/

@[simp] theorem current_toFull (t : Tape) : t.toFull.current = t.current := t.cellAt_pointer

theorem toFull_blank : blank.toFull = {} := by
  rw [toFull]
  exact congrArg (FullTape.mk · 0) (funext cellAt_blank)

theorem toFull_put (value : Cell) (t : Tape) : (t.put value).toFull = t.toFull.put value :=
  congrArg (FullTape.mk · t.pointer) (funext (cellAt_put value t))

/-- Moving to the right moves the pointer, and no cell changes: one that is added was zero before. -/
theorem toFull_right (t : Tape) :
    t.right.toFull = { t.toFull with pointer := t.toFull.pointer + 1 } := by
  simp only [toFull, pointer_right]
  exact congrArg (FullTape.mk · (t.pointer + 1)) (funext t.cellAt_right)

/-- Moving to the left moves the pointer, and no cell changes: one that is dropped was zero. -/
theorem toFull_left (h : t.left = .ok u) :
    u.toFull = { t.toFull with pointer := t.toFull.pointer - 1 } := by
  have hpointer := pointer_of_left h
  simp only [toFull, show u.pointer = t.pointer - 1 by omega]
  exact congrArg (FullTape.mk · (t.pointer - 1)) (funext (cellAt_of_left h))

/-- A primitive does to the cells that are held what it does to all cells. -/
theorem toFull_apply (t : Tape) (p : Primitive) :
    (t.apply p).map toFull = t.toFull.apply p := by
  cases p with
  | right => exact congrArg Except.ok t.toFull_right
  | left =>
    rw [apply, FullTape.apply]
    cases h : t.left with
    | error fault =>
      obtain ⟨hzero, rfl⟩ := left_eq_error_iff.mp h
      rw [if_pos (show t.toFull.pointer = 0 from hzero)]
      rfl
    | ok u =>
      have hpos := pointer_of_left h
      have hne : t.toFull.pointer ≠ 0 := show t.pointer ≠ 0 by omega
      rw [if_neg hne]
      exact congrArg Except.ok (toFull_left h)
  | increment =>
    rw [apply, increment, FullTape.apply, current_toFull]
    cases h : t.current.succ? with
    | none =>
      have hmax := Cell.succ?_eq_none_iff.mp h
      rw [if_neg (by omega)]
      rfl
    | some v =>
      have hv := Cell.toNat_of_succ? h
      have hlt := v.toNat_lt
      rw [if_pos (by omega)]
      have hsum : v = t.current + 1 := by
        rw [← UInt64.toNat_inj, UInt64.toNat_add, UInt64.toNat_one]
        omega
      exact congrArg Except.ok (hsum ▸ toFull_put v t)
  | decrement =>
    rw [apply, decrement, FullTape.apply, current_toFull, Cell.pred?]
    by_cases hzero : t.current = 0
    · rw [if_pos hzero, if_pos hzero]
      rfl
    · rw [if_neg hzero, if_neg hzero]
      exact congrArg Except.ok (toFull_put _ t)
  | put value => exact congrArg Except.ok (toFull_put value t)

/-! ## The cells that are held -/

/-- The last cell right of the pointer, if any is held there, is not zero. -/
def IsTrim (t : Tape) : Prop := t.after.getLast? ≠ some 0

theorem isTrim_blank : blank.IsTrim := by simp [IsTrim, blank]

/-- A cell that is added is under the pointer, so a tape stays trim. -/
theorem isTrim_right (h : t.IsTrim) : t.right.IsTrim := by
  rw [IsTrim] at h ⊢
  rw [right]
  rcases hafter : t.after with _ | ⟨v, _ | ⟨w, rest⟩⟩
  · simp
  · simp
  · rw [hafter] at h
    simpa using h

/-- The cell that the pointer leaves stays unless it is the last one and zero. -/
theorem isTrim_left (h : t.IsTrim) (hu : t.left = .ok u) : u.IsTrim := by
  cases hb : t.before with
  | nil => simp [left, hb] at hu
  | cons nearest others =>
    simp only [left, hb, Except.ok.injEq] at hu
    subst hu
    rw [IsTrim] at h ⊢
    cases hafter : t.after with
    | nil => by_cases hzero : t.current = 0 <;> simp [kept, hafter, isZero, hzero]
    | cons v rest =>
      rw [hafter] at h
      simpa [kept, hafter] using h

/-- Every primitive keeps a tape trim. -/
theorem isTrim_apply {p : Primitive} (h : t.IsTrim) (hu : t.apply p = .ok u) : u.IsTrim := by
  cases p with
  | right =>
    obtain rfl := Except.ok.inj hu
    exact isTrim_right h
  | left => exact isTrim_left h hu
  | increment =>
    simp only [apply, increment] at hu
    split at hu <;> cases hu
    exact h
  | decrement =>
    simp only [apply, decrement] at hu
    split at hu <;> cases hu
    exact h
  | put value =>
    obtain rfl := Except.ok.inj hu
    exact h

/-- Beyond the cells that are held, everything is zero. -/
theorem cellAt_of_length_le {i : Nat} (h : t.cells.length ≤ i) : t.cellAt i = 0 := by
  rw [cellAt, List.getD_eq_getElem?_getD, List.getElem?_eq_none h]
  rfl

/-- A tape holds as few cells as cover the pointer and all that is not zero. -/
theorem isLeast_length_cells (h : t.IsTrim) :
    IsLeast {n | t.pointer < n ∧ ∀ i, n ≤ i → t.cellAt i = 0} t.cells.length := by
  refine ⟨⟨t.pointer_lt_length_cells, fun _ => cellAt_of_length_le⟩, fun n hn => ?_⟩
  refine Nat.le_of_not_lt fun hlt => ?_
  have hlast : t.cells.getLast? = some 0 := by
    have hzero := hn.2 (t.cells.length - 1) (by omega)
    rw [List.getLast?_eq_getElem?]
    rw [cellAt, List.getD_eq_getElem?_getD, List.getElem?_eq_getElem (by omega)] at hzero
    rw [List.getElem?_eq_getElem (by omega)]
    exact congrArg some hzero
  -- the last cell is right of the pointer, where no zero is the last one
  obtain ⟨v, rest, hafter⟩ : ∃ v rest, t.after = v :: rest := by
    rcases hcase : t.after with _ | ⟨v, rest⟩
    · have hlength : t.cells.length = t.pointer + 1 := by simp [cells, pointer, hcase]
      have hpointer := hn.1
      omega
    · exact ⟨v, rest, rfl⟩
  rw [IsTrim, hafter] at h
  apply h
  simpa [cells, hafter] using hlast

/-- A trim tape holds the cells up to the last one that is not zero, or to the pointer if that is
further right. -/
theorem length_cells_of_isGreatest (h : t.IsTrim) {m : Nat}
    (hm : IsGreatest {i | t.cellAt i ≠ 0} m) : t.cells.length = max (t.pointer + 1) (m + 1) := by
  obtain ⟨hcover, hleast⟩ := isLeast_length_cells h
  apply Nat.le_antisymm
  · refine hleast ⟨by omega, fun i hi => ?_⟩
    refine Classical.byContradiction fun hne => ?_
    have hle := hm.2 hne
    omega
  · refine Nat.max_le.mpr ⟨hcover.1, Nat.lt_of_not_le fun hle => ?_⟩
    exact hm.1 (hcover.2 m hle)

/-- A trim tape without any cell that is not zero holds the cells up to the pointer. -/
theorem length_cells_of_zero (h : t.IsTrim) (hzero : ∀ i, t.cellAt i = 0) :
    t.cells.length = t.pointer + 1 := by
  obtain ⟨hcover, hleast⟩ := isLeast_length_cells h
  exact Nat.le_antisymm (hleast ⟨Nat.lt_succ_self _, fun i _ => hzero i⟩) hcover.1

/-- Only finitely many cells are not zero, so there is a last one unless all are zero. -/
theorem exists_isGreatest {i : Nat} (hi : t.cellAt i ≠ 0) :
    ∃ m, IsGreatest {i | t.cellAt i ≠ 0} m := by
  have hbound : t.cells.length ∈ upperBounds {i | t.cellAt i ≠ 0} := fun j hj =>
    Nat.le_of_not_le fun hle => hj (cellAt_of_length_le hle)
  exact ⟨_, Nat.sSup_mem ⟨i, hi⟩ ⟨_, hbound⟩, fun j hj => le_csSup ⟨_, hbound⟩ hj⟩

/-- The cells that a tape holds follow from its pointer and its contents. -/
theorem eq_of_toFull (ht : t.IsTrim) (hu : u.IsTrim) (h : t.toFull = u.toFull) : t = u := by
  obtain ⟨hcells, hpointer⟩ := FullTape.mk.inj h
  have hlength : t.cells.length = u.cells.length := by
    have hleast := isLeast_length_cells ht
    rw [hcells, hpointer] at hleast
    exact hleast.unique (isLeast_length_cells hu)
  have hlist : t.cells = u.cells := by
    apply List.ext_getElem hlength
    intro i hi hi'
    have hi_eq := congrFun hcells i
    simpa [cellAt, List.getD_eq_getElem?_getD, hi, hi'] using hi_eq
  obtain ⟨hbefore, htail⟩ := List.append_inj hlist (by simpa [pointer] using hpointer)
  obtain ⟨hcurrent, hafter⟩ := List.cons.inj htail
  rw [List.reverse_inj] at hbefore
  cases t
  cases u
  simp_all

/-- From the blank tape on, every sequence of primitives does to a tape what it does to the tape with
all its cells: there is the same pointer, the same value of the cell under it and of every other cell,
and the next primitive fails with the same fault or with none. The cell under the pointer is always
held, and the cells that are held reach up to it or to the last one that is not zero. So two sequences
that lead to the same pointer and the same contents leave the same tape. -/
theorem attemptAll_agrees (ps : List Primitive) :
    let t := attemptAll apply blank ps
    let f := attemptAll FullTape.apply {} ps
    (t.pointer = f.pointer ∧ t.current = f.current ∧ (t.isZero = true ↔ f.current = 0) ∧
      (∀ i, t.cellAt i = f.cells i) ∧
      ∀ p fault, t.apply p = .error fault ↔ f.apply p = .error fault) ∧
    (t.cells[t.pointer]? = some t.current ∧
      (∀ m, IsGreatest {i | f.cells i ≠ 0} m → t.cells.length = max (f.pointer + 1) (m + 1)) ∧
      ((¬ ∃ m, IsGreatest {i | f.cells i ≠ 0} m) →
        (∀ i, f.cells i = 0) ∧ t.cells.length = f.pointer + 1)) ∧
    ∀ qs, attemptAll FullTape.apply {} qs = f → attemptAll apply blank qs = t := by
  intro t f
  -- the two facts that are true of every sequence of primitives
  have hfull : ∀ qs, (attemptAll apply blank qs).toFull = attemptAll FullTape.apply {} qs := by
    intro qs
    rw [map_attemptAll toFull_apply, toFull_blank]
  have htrim : ∀ qs, IsTrim (attemptAll apply blank qs) :=
    attemptAll_induction isTrim_apply isTrim_blank
  have hf : f = t.toFull := (hfull ps).symm
  refine ⟨⟨?_, ?_, ?_, ?_, ?_⟩, ⟨t.getElem?_cells_pointer, ?_, ?_⟩, ?_⟩
  · rw [hf]
    rfl
  · rw [hf, current_toFull]
  · rw [hf, current_toFull, isZero_iff]
  · intro i
    rw [hf]
    rfl
  · intro p fault
    rw [hf, ← toFull_apply]
    cases t.apply p <;> simp [Except.map]
  · intro m hm
    rw [hf] at hm ⊢
    exact length_cells_of_isGreatest (htrim ps) hm
  · intro hnone
    rw [hf] at hnone ⊢
    have hzero : ∀ i, t.cellAt i = 0 := fun i =>
      Classical.byContradiction fun hi => hnone (exists_isGreatest hi)
    exact ⟨hzero, length_cells_of_zero (htrim ps) hzero⟩
  · intro qs hqs
    apply eq_of_toFull (htrim qs) (htrim ps)
    rw [hfull, hfull, hqs]

end Tape

end TapeLowering
