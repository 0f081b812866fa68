import TapeLowering.Proofs.Ensures

/-!
# What the routines of the library do

Each routine, as a statement of what it puts into the cells of its slots. The stores behind it are those
with these values, but for scratch cells that hold zero: `Store.Wiped`. What the scratch cells held
before does not matter, since a routine resets each of them before it is used.

The routines that work on copies of two cells start from a store that holds both copies
(`ensures_holding_pair`), and are done when the copies are at zero again (`Wiped.of_pair`).
-/

namespace TapeLowering

/-! ## Arithmetic of cells -/

namespace Cell

variable {a b : Cell}

/-- A sum that a cell can hold is that of the numbers. -/
theorem toNat_add_of_lt (h : a.toNat + b.toNat < 0x10000000000000000) :
    (a + b).toNat = a.toNat + b.toNat := by
  rw [UInt64.toNat_add, Nat.mod_eq_of_lt h]

/-- A product that a cell can hold is that of the numbers. -/
theorem toNat_mul_of_lt (h : a.toNat * b.toNat < 0x10000000000000000) :
    (a * b).toNat = a.toNat * b.toNat := by
  rw [UInt64.toNat_mul, Nat.mod_eq_of_lt h]

theorem toNat_sub_one (h : a ≠ 0) : (a - 1).toNat + 1 = a.toNat :=
  toNat_of_pred? (if_neg h)

theorem toNat_ne_zero (h : a ≠ 0) : a.toNat ≠ 0 := fun hz => h (UInt64.toNat_inj.mp hz)

/-- The difference of two cells, and zero where it would be negative. -/
def monus (a b : Cell) : Cell := if b ≤ a then a - b else 0

/-- The truncated difference of two cells is that of their numbers. -/
@[simp] theorem toNat_monus : (monus a b).toNat = a.toNat - b.toNat := by
  rw [monus]
  split
  · rename_i h
    exact UInt64.toNat_sub_of_le a b h
  · rename_i h
    rw [UInt64.le_iff_toNat_le] at h
    rw [UInt64.toNat_zero]
    omega

theorem monus_eq_zero_iff : monus a b = 0 ↔ a ≤ b := by
  rw [← UInt64.toNat_inj, toNat_monus, UInt64.toNat_zero, UInt64.le_iff_toNat_le]
  omega

end Cell

open Command

theorem Store.eq_of_cells {s t : Store} (h : ∀ i, s.cells i = t.cells i) (hst : s.SameStreams t) :
    s = t := by
  obtain ⟨cells, inputs, written⟩ := s
  obtain ⟨cells', inputs', written'⟩ := t
  obtain ⟨rfl, rfl⟩ := hst
  obtain rfl : cells = cells' := funext h
  rfl

namespace Store.Wiped

variable {depth : Nat} {s t u : Store} {result : Slot} {a b v : Cell}

/-- The first of two copies is at the next slot. -/
theorem get_lhs (ht : Wiped (depth + 2) ((s.put ⟨depth⟩ a).put ⟨depth + 1⟩ b) t) :
    t.get ⟨depth⟩ = a := by
  rw [ht.get_eq (by simp), get_put_of_ne (by simp), get_put_self]

/-- The second of two copies is at the slot behind that. -/
theorem get_rhs (ht : Wiped (depth + 2) ((s.put ⟨depth⟩ a).put ⟨depth + 1⟩ b) t) :
    t.get ⟨depth + 1⟩ = b := by
  rw [ht.get_eq (by simp), get_put_self]

/-- Two copies that are set to zero again are scratch cells, whatever else was in them. -/
theorem of_pair (ht : Wiped (depth + 2) ((s.put ⟨depth⟩ a).put ⟨depth + 1⟩ b) t)
    (hu : ∀ i, u.cells i = (if i = depth ∨ i = depth + 1 then 0
      else if i = result.index then v else t.cells i) ∨ depth ≤ i ∧ u.cells i = 0)
    (hstreams : t.SameStreams u) : Wiped depth (s.put result v) u where
  cells i := by
    have hi := ht.cells i
    have hi' := hu i
    simp only [cells_put] at hi ⊢
    grind
  inputs := hstreams.1.symm.trans ht.inputs
  written := hstreams.2.symm.trans ht.written

end Store.Wiped

namespace Routine

open Store

variable {depth : Nat} {s : Store} {Q : Store → Prop} {x y : Slot}

/-! ## Copies -/

/-- `n` is left in the source `y`, and what has been moved to both other cells makes up its value with
that. -/
def Moving (x y z : Slot) (s : Store) (n : Nat) (t : Store) : Prop :=
  ∃ c d : Cell, c.toNat = n ∧ c.toNat + d.toNat = (s.get y).toNat ∧
    t = ((s.put y c).put x d).put z d

section

variable {z : Slot} (hxy : x ≠ y) (hxz : x ≠ z) (hyz : y ≠ z)

include hxy hyz in
theorem Moving.get_eq {n : Nat} {t : Store} (h : Moving x y z s n t) : (t.get y).toNat = n := by
  obtain ⟨c, d, hc, -, rfl⟩ := h
  rw [get_put_of_ne hyz, get_put_of_ne hxy.symm, get_put_self, hc]

include hxy hxz hyz

/-- A round takes one from the source and adds one to each of the others. -/
theorem Moving.round {n : Nat} {t : Store} (h : Moving x y z s (n + 1) t) :
    Ensures ((block [decrement y, increment x, increment z]).commands depth) t
      (Moving x y z s n) := by
  obtain ⟨c, d, hc, hsum, rfl⟩ := h
  have hxy' := mt Slot.ext hxy
  have hxz' := mt Slot.ext hxz
  have hyz' := mt Slot.ext hyz
  have hlt := (s.get y).toNat_lt
  have hne : c ≠ 0 := by
    rintro rfl
    simp at hc
  have hpred := Cell.toNat_sub_one hne
  -- the cells that grow hold no more than the source held at first
  have hsucc : (d + 1).toNat = d.toNat + 1 := Cell.toNat_add_of_lt (by simp; omega)
  rw [ensures_block_cons, ensures_decrement (by simpa [get_put, hyz, hxy.symm] using hne),
    ensures_block_cons, ensures_increment (by simp [get_put, hxy, hxz]; omega),
    ensures_block_cons, ensures_increment (by simp [get_put, hxz.symm, hyz.symm]; omega),
    ensures_block_nil]
  refine ⟨c - 1, d + 1, by omega, by omega, eq_of_cells (fun i => ?_) ⟨rfl, rfl⟩⟩
  simp only [get_put, cells_put]
  grind

/-- The loop of a copy moves the source into the destination and the spare cell, one by one. -/
theorem ensures_copy_loop :
    Ensures ((loop y (block [decrement y, increment x, increment z])).commands depth)
      ((s.put x 0).put z 0) fun t => t = ((s.put y 0).put x (s.get y)).put z (s.get y) := by
  have hstart : Moving x y z s (s.get y).toNat ((s.put x 0).put z 0) :=
    ⟨s.get y, 0, rfl, by simp, by rw [put_get]⟩
  have hstop : ∀ t, Moving x y z s 0 t → t.get y = 0 := fun t ht =>
    UInt64.toNat_inj.mp (ht.get_eq hxy hyz)
  have hround : ∀ n t, Moving x y z s (n + 1) t → t.get y ≠ 0 ∧
      Ensures ((block [decrement y, increment x, increment z]).commands depth) t
        (Moving x y z s n) := by
    refine fun n t ht => ⟨fun hzero => ?_, ht.round hxy hxz hyz⟩
    have hget := ht.get_eq hxy hyz
    rw [hzero] at hget
    cases hget
  refine (ensures_loop hstop hround hstart).mono ?_
  rintro t ⟨c, d, hc, hsum, rfl⟩
  have hc' : c = 0 := UInt64.toNat_inj.mp hc
  have hd : d = s.get y := UInt64.toNat_inj.mp (by omega)
  rw [hc', hd]

end

/-- A copy leaves its source as it was, and its spare cell at zero. -/
theorem ensures_copy_of_ne (hne : x ≠ y) (hx : x ≠ ⟨depth⟩) (hy : y ≠ ⟨depth⟩) :
    Ensures ((copy x y).commands depth) s fun t => t = (s.put x (s.get y)).put ⟨depth⟩ 0 := by
  have hxy := mt Slot.ext hne
  have hxz := mt Slot.ext hx
  have hyz := mt Slot.ext hy
  rw [copy, if_neg hne, ensures_scratch]
  rw [ensures_block_cons, ensures_reset, ensures_block_cons, ensures_reset, ensures_block_cons]
  refine (ensures_copy_loop hne hx hy).mono ?_
  rintro t rfl
  have hlt : (s.get y).toNat < 0x10000000000000000 := (s.get y).toNat_lt
  rw [ensures_block_cons, ensures_transfer (by simpa [hy, hne.symm] using hlt), ensures_block_nil]
  refine eq_of_cells (fun i => ?_) ⟨rfl, rfl⟩
  simp only [get_put, cells_put]
  grind [Store.get]

/-- A copy puts the source into the destination, also where they are the same slot. The spare cell is
above the live ones. -/
theorem ensures_copy (hx : x.index < depth) (hy : y.index < depth) :
    Ensures ((copy x y).commands depth) s (Wiped depth (s.put x (s.get y))) := by
  by_cases hne : x = y
  · rw [copy, if_pos hne, ensures_block_nil, hne, put_get]
    exact .refl s
  · refine (ensures_copy_of_ne hne (Slot.mk_ne_of_lt hx).symm (Slot.mk_ne_of_lt hy).symm).mono ?_
    rintro t rfl
    exact (Wiped.refl _).put_zero (Nat.le_refl depth)

/-- A routine that works on a copy starts from a store that holds it. -/
theorem holding_of_inherited {P : List Command → Store → Prop} (hP : Inherited P)
    {body : Slot → Routine} (hx : x.index < depth)
    (h : ∀ t, Wiped (depth + 1) (s.put ⟨depth⟩ (s.get x)) t →
      P ((body ⟨depth⟩).commands (depth + 1)) t) :
    P ((holding x body).commands depth) s := by
  apply hP.scratch
  apply hP.tail
  rw [commands_singleton]
  exact (ensures_copy (Nat.lt_succ_self depth) (Nat.lt_succ_of_lt hx)).mono h

/-- The second copy is one of the cell itself, which the first one has not changed. -/
theorem wiped_pair {a : Cell} {t u : Store} (hy : y.index < depth)
    (ht : Wiped (depth + 1) (s.put ⟨depth⟩ a) t)
    (hu : Wiped (depth + 2) (t.put ⟨depth + 1⟩ (t.get y)) u) :
    Wiped (depth + 2) ((s.put ⟨depth⟩ a).put ⟨depth + 1⟩ (s.get y)) u := by
  have hget : t.get y = s.get y := by
    rw [ht.get_eq (Nat.lt_succ_of_lt hy), get_put_of_ne (Slot.mk_ne_of_lt hy).symm]
  exact ht.put_next.trans (hget ▸ hu)

section

variable {body : Slot → Slot → Routine} (hx : x.index < depth) (hy : y.index < depth)

include hx hy

/-- How a routine that holds two copies ends is how its body does, on any store that holds them. -/
theorem holding_pair_of_inherited {P : List Command → Store → Prop} (hP : Inherited P)
    (h : ∀ t, Wiped (depth + 2) ((s.put ⟨depth⟩ (s.get x)).put ⟨depth + 1⟩ (s.get y)) t →
      P ((body ⟨depth⟩ ⟨depth + 1⟩).commands (depth + 2)) t) :
    P ((holding x fun lhs => holding y fun rhs => body lhs rhs).commands depth) s :=
  holding_of_inherited hP hx fun _ ht =>
    holding_of_inherited hP (Nat.lt_succ_of_lt hy) fun u hu => h u (wiped_pair hy ht hu)

/-- A routine that holds two copies ensures what its body does, on any store that holds them. -/
theorem ensures_holding_pair
    (h : ∀ t, Wiped (depth + 2) ((s.put ⟨depth⟩ (s.get x)).put ⟨depth + 1⟩ (s.get y)) t →
      Ensures ((body ⟨depth⟩ ⟨depth + 1⟩).commands (depth + 2)) t Q) :
    Ensures ((holding x fun lhs => holding y fun rhs => body lhs rhs).commands depth) s Q :=
  holding_pair_of_inherited hx hy (inherited_ensures Q) h

/-- A routine that empties its result once both copies are taken starts from a store that holds them and
a zero, whatever cell the result is. If only the result has another value when it is done, and the copies
are zero, then that is all the routine has done. -/
theorem emptied_of_inherited {P : List Command → Store → Prop} {result : Slot}
    {rest : Slot → Slot → List Routine} (hresult : result.index < depth) (hP : Inherited P)
    (h : ∀ u, u.get ⟨depth⟩ = s.get x → u.get ⟨depth + 1⟩ = s.get y → u.get result = 0 →
      (∀ (v : Cell) (t : Store), (∀ i, t.cells i = if i = depth ∨ i = depth + 1 then 0
        else if i = result.index then v else u.cells i) → u.SameStreams t →
        Wiped depth (s.put result v) t) →
      P ((block (rest ⟨depth⟩ ⟨depth + 1⟩)).commands (depth + 2)) u) :
    P ((holding x fun lhs => holding y fun rhs => block (reset result :: rest lhs rhs)).commands depth)
      s := by
  refine holding_pair_of_inherited hx hy hP fun t ht => ?_
  apply hP.tail
  rw [ensures_reset]
  refine h _ ?_ ?_ (get_put_self t result 0) fun v t' ht' hstreams => ht.of_pair (fun i => ?_) hstreams
  · rw [get_put_of_ne (Slot.mk_ne_of_lt hresult), ht.get_lhs]
  · rw [get_put_of_ne (Slot.mk_ne_of_lt (Nat.lt_succ_of_lt hresult)), ht.get_rhs]
  · rw [ht' i, cells_put]
    grind

end

/-! ## Logic -/

variable {result left right : Slot}

/-- A negation sets the result to one, and takes that away again if the operand is not zero. -/
theorem ensures_not (hresult : result.index < depth) (hx : x.index < depth) :
    Ensures ((not result x).commands depth) s
      (Wiped depth (s.put result (if s.get x = 0 then 1 else 0))) := by
  have hne : (⟨depth⟩ : Slot) ≠ result := Slot.mk_ne_of_lt hresult
  refine holding_of_inherited (inherited_ensures _) hx fun t ht => ?_
  have hflag : t.get ⟨depth⟩ = s.get x := by
    rw [ht.get_eq (Nat.lt_succ_self depth), get_put_self]
  rw [ensures_block_cons, ensures_set, ensures_block_cons]
  by_cases hz : s.get x = 0
  · rw [ensures_branch_of_eq_zero (by rw [get_put_of_ne hne, hflag, hz]), ensures_block_nil, if_pos hz]
    refine ⟨fun i => ?_, ht.inputs, ht.written⟩
    have hi := ht.cells i
    simp only [cells_put] at hi ⊢
    grind
  · rw [ensures_branch_of_ne_zero (by rwa [get_put_of_ne hne, hflag]),
      ensures_decrement (by simp), ensures_block_nil, if_neg hz]
    refine ⟨fun i => ?_, ht.inputs, ht.written⟩
    have hi := ht.cells i
    simp only [cells_put, get_put_self] at hi ⊢
    grind

/-- A conjunction adds one to an empty result if neither of the copies is zero. -/
theorem ensures_and (hresult : result.index < depth) (hleft : left.index < depth)
    (hright : right.index < depth) :
    Ensures ((and result left right).commands depth) s
      (Wiped depth (s.put result (if s.get left ≠ 0 ∧ s.get right ≠ 0 then 1 else 0))) := by
  refine emptied_of_inherited hleft hright hresult (inherited_ensures _) fun u hl hr hzero hu => ?_
  rw [ensures_block_cons]
  -- the inner branch runs only within the outer one, so there are three cases
  by_cases hl₀ : s.get left = 0
  · rw [ensures_branch_of_eq_zero (hl.trans hl₀), ensures_block_cons, ensures_reset,
      ensures_block_nil, if_neg (by simp [hl₀])]
    refine hu 0 _ (fun i => ?_) ⟨rfl, rfl⟩
    simp only [cells_put]
    grind [Store.get]
  · rw [ensures_branch_of_ne_zero (by rwa [hl])]
    by_cases hr₀ : s.get right = 0
    · rw [ensures_branch_of_eq_zero (hr.trans hr₀), ensures_block_cons, ensures_reset,
        ensures_block_nil, if_neg (by simp [hr₀])]
      refine hu 0 _ (fun i => ?_) ⟨rfl, rfl⟩
      simp only [cells_put]
      grind [Store.get]
    · rw [ensures_branch_of_ne_zero (by rwa [hr]), ensures_increment (by simp [hzero]),
        ensures_block_cons, ensures_reset, ensures_block_nil, if_pos ⟨hl₀, hr₀⟩]
      refine hu 1 _ (fun i => ?_) ⟨rfl, rfl⟩
      simp only [cells_put, hzero, UInt64.zero_add]
      grind

/-- A disjunction adds one to an empty result for the first copy that is not zero. -/
theorem ensures_or (hresult : result.index < depth) (hleft : left.index < depth)
    (hright : right.index < depth) :
    Ensures ((or result left right).commands depth) s
      (Wiped depth (s.put result (if s.get left ≠ 0 ∨ s.get right ≠ 0 then 1 else 0))) := by
  refine emptied_of_inherited hleft hright hresult (inherited_ensures _) fun u hl hr hzero hu => ?_
  rw [ensures_block_cons]
  by_cases hl₀ : s.get left = 0
  · rw [ensures_branch_of_eq_zero (hl.trans hl₀), ensures_block_cons]
    by_cases hr₀ : s.get right = 0
    · rw [ensures_branch_of_eq_zero (hr.trans hr₀), ensures_block_nil, if_neg (by simp [hl₀, hr₀])]
      refine hu 0 _ (fun i => ?_) ⟨rfl, rfl⟩
      grind [Store.get]
    · rw [ensures_branch_of_ne_zero (by rwa [hr]), ensures_increment (by simp [hzero]),
        ensures_block_nil, if_pos (.inr hr₀)]
      refine hu 1 _ (fun i => ?_) ⟨rfl, rfl⟩
      simp only [cells_put, hzero, UInt64.zero_add]
      grind [Store.get]
  · -- the copy of the right operand is dropped, so the result is not incremented again
    rw [ensures_branch_of_ne_zero (by rwa [hl]), ensures_block_cons,
      ensures_increment (by simp [hzero]), ensures_block_cons, ensures_reset, ensures_block_nil,
      ensures_block_cons, ensures_branch_of_eq_zero (by simp), ensures_block_nil, if_pos (.inl hl₀)]
    refine hu 1 _ (fun i => ?_) ⟨rfl, rfl⟩
    simp only [cells_put, hzero, UInt64.zero_add]
    grind

/-! ## Comparisons -/

/-- Two cells have been taken down together, `n` of the smaller one is left, and the cell above them
says whether any is. What is left of them has the differences of the cells at first. -/
def TakenDown (depth : Nat) (left right : Slot) (s : Store) (n : Nat) (t : Store) : Prop :=
  ∃ a b : Cell, min a.toNat b.toNat = n ∧
    a.monus b = (s.get left).monus (s.get right) ∧ b.monus a = (s.get right).monus (s.get left) ∧
    Wiped (depth + 1) (((s.put left a).put right b).put ⟨depth⟩ (if a ≠ 0 ∧ b ≠ 0 then 1 else 0)) t

section

variable (hne : left ≠ right) (hleft : left.index < depth) (hright : right.index < depth)

/-- The flag is zero if one of the two cells is. -/
theorem TakenDown.get_eq {n : Nat} {t : Store} (h : TakenDown depth left right s n t) :
    t.get ⟨depth⟩ = if n = 0 then 0 else 1 := by
  obtain ⟨a, b, hmin, -, -, ht⟩ := h
  have hflag : (a ≠ 0 ∧ b ≠ 0) ↔ n ≠ 0 := by
    rw [ne_eq, ne_eq, ← UInt64.toNat_inj, ← UInt64.toNat_inj, UInt64.toNat_zero]
    omega
  rw [ht.get_eq (Nat.lt_succ_self depth), get_put_self]
  simp only [hflag, ne_eq, ite_not]

include hne hleft hright

/-- A round takes one from both cells, so their differences stay, and finds out whether there is another
one. -/
theorem TakenDown.round {n : Nat} {t : Store} (h : TakenDown depth left right s (n + 1) t) :
    Ensures ((block [decrement left, decrement right, and ⟨depth⟩ left right]).commands (depth + 1))
      t (TakenDown depth left right s n) := by
  obtain ⟨a, b, hmin, hab, hba, ht⟩ := h
  have hne' := mt Slot.ext hne
  have hboth : (⟨depth⟩ : Slot) ≠ left := Slot.mk_ne_of_lt hleft
  have hboth' : (⟨depth⟩ : Slot) ≠ right := Slot.mk_ne_of_lt hright
  -- there is a round to come, so neither of the cells is zero
  have ha : a ≠ 0 := by
    rintro rfl
    simp at hmin
  have hb : b ≠ 0 := by
    rintro rfl
    simp at hmin
  have hgetl : t.get left = a := by
    rw [ht.get_eq (Nat.lt_succ_of_lt hleft), get_put_of_ne hboth.symm, get_put_of_ne hne,
      get_put_self]
  have hgetr : t.get right = b := by
    rw [ht.get_eq (Nat.lt_succ_of_lt hright), get_put_of_ne hboth'.symm, get_put_self]
  rw [ensures_block_cons, ensures_decrement (by rwa [hgetl]), ensures_block_cons,
    ensures_decrement (by rwa [get_put_of_ne hne.symm, hgetr]), ensures_block_cons, hgetl,
    get_put_of_ne hne.symm, hgetr]
  refine (ensures_and (Nat.lt_succ_self depth) (Nat.lt_succ_of_lt hleft)
    (Nat.lt_succ_of_lt hright)).mono fun u hu => ?_
  rw [get_put_of_ne hne, get_put_self, get_put_self] at hu
  have hpa := Cell.toNat_sub_one ha
  have hpb := Cell.toNat_sub_one hb
  refine ensures_block_nil.mpr ⟨a - 1, b - 1, by omega, ?_, ?_, ?_⟩
  · rw [← hab, ← UInt64.toNat_inj, Cell.toNat_monus, Cell.toNat_monus]
    omega
  · rw [← hba, ← UInt64.toNat_inj, Cell.toNat_monus, Cell.toNat_monus]
    omega
  · refine ⟨fun i => ?_, hu.inputs.trans ht.inputs, hu.written.trans ht.written⟩
    have h₁ := ht.cells i
    have h₂ := hu.cells i
    simp only [cells_put] at h₁ h₂ ⊢
    grind

/-- Two cells that are taken down together are left with their truncated differences. The rounds are as
many as the smaller one of them holds. -/
theorem ensures_cancel :
    Ensures ((cancel left right).commands depth) s
      (Wiped depth ((s.put left ((s.get left).monus (s.get right))).put right
        ((s.get right).monus (s.get left)))) := by
  have hand := ensures_and (s := s) (Nat.lt_succ_self depth) (Nat.lt_succ_of_lt hleft)
    (Nat.lt_succ_of_lt hright)
  rw [cancel, ensures_scratch, ensures_block_cons]
  refine hand.mono fun t ht => ?_
  have hstart : TakenDown depth left right s (min (s.get left).toNat (s.get right).toNat) t :=
    ⟨_, _, rfl, rfl, rfl, by rwa [put_get, put_get]⟩
  have hloop := ensures_loop (x := ⟨depth⟩) (P := TakenDown depth left right s)
    (fun u hu => by simp [hu.get_eq]) (fun n u hu => ⟨by simp [hu.get_eq], hu.round hne hleft hright⟩)
    hstart
  rw [ensures_block_cons]
  refine hloop.mono ?_
  rintro u ⟨a, b, hmin, hab, hba, hu⟩
  rw [ensures_block_nil]
  -- one of the cells is zero, so both are their differences
  have hend : a = a.monus b ∧ b = b.monus a ∧ ¬ (a ≠ 0 ∧ b ≠ 0) := by
    rw [ne_eq, ne_eq, ← UInt64.toNat_inj, ← UInt64.toNat_inj, ← UInt64.toNat_inj,
      ← UInt64.toNat_inj, Cell.toNat_monus, Cell.toNat_monus, UInt64.toNat_zero]
    omega
  rw [if_neg hend.2.2, hend.1, hab, hend.2.1, hba] at hu
  exact ((Wiped.refl _).put_zero (Nat.le_refl depth)).trans (hu.mono (Nat.le_succ depth))

end

/-- A comparison starts from a store that holds copies of both cells, taken down. -/
theorem ensures_taken_down {rest : Slot → Slot → List Routine} (hleft : left.index < depth)
    (hright : right.index < depth)
    (h : ∀ t, Wiped (depth + 2) ((s.put ⟨depth⟩ ((s.get left).monus (s.get right))).put ⟨depth + 1⟩
        ((s.get right).monus (s.get left))) t →
      Ensures ((block (rest ⟨depth⟩ ⟨depth + 1⟩)).commands (depth + 2)) t Q) :
    Ensures ((holding left fun lhs => holding right fun rhs =>
      block (cancel lhs rhs :: rest lhs rhs)).commands depth) s Q := by
  refine ensures_holding_pair hleft hright fun t ht => ?_
  rw [ensures_block_cons]
  refine (ensures_cancel (by simp) (by simp) (by simp)).mono fun u hu => h u ?_
  rw [ht.get_lhs, ht.get_rhs] at hu
  have hput := (ht.put ⟨depth⟩ ((s.get left).monus (s.get right))).put ⟨depth + 1⟩
    ((s.get right).monus (s.get left))
  rw [put_comm (x := ⟨depth + 1⟩) (by simp), put_put, put_put] at hput
  exact hput.trans hu

/-- A cell is at most another one if nothing is left of it when both are taken down. -/
theorem ensures_le (hresult : result.index < depth) (hleft : left.index < depth)
    (hright : right.index < depth) :
    Ensures ((le result left right).commands depth) s
      (Wiped depth (s.put result (if s.get left ≤ s.get right then 1 else 0))) := by
  refine ensures_taken_down hleft hright fun t ht => ?_
  rw [ensures_block_cons]
  refine (ensures_not (Nat.lt_add_right 2 hresult) (by simp)).mono fun u hu => ?_
  simp only [ht.get_lhs, Cell.monus_eq_zero_iff] at hu
  rw [ensures_block_cons, ensures_reset, ensures_block_cons, ensures_reset, ensures_block_nil]
  refine ht.of_pair (fun i => ?_) ⟨hu.inputs.symm, hu.written.symm⟩
  have hi := hu.cells i
  simp only [cells_put] at hi ⊢
  grind

/-- A cell is less than another one if nothing is left of it when both are taken down, and something is
left of the other one. -/
theorem ensures_lt (hresult : result.index < depth) (hleft : left.index < depth)
    (hright : right.index < depth) :
    Ensures ((lt result left right).commands depth) s
      (Wiped depth (s.put result (if s.get left < s.get right then 1 else 0))) := by
  refine ensures_taken_down hleft hright fun t ht => ?_
  rw [ensures_block_cons, ensures_scratch, ensures_block_cons]
  refine (ensures_not (by simp) (show depth < depth + 3 by omega)).mono fun u hu => ?_
  rw [ht.get_lhs] at hu
  have hexhausted : u.get ⟨depth + 2⟩ ≠ 0 ↔ s.get left ≤ s.get right := by
    rw [hu.get_eq (by simp), get_put_self]
    simp [Cell.monus_eq_zero_iff]
  have hrhs : u.get ⟨depth + 1⟩ ≠ 0 ↔ ¬ s.get right ≤ s.get left := by
    rw [hu.get_eq (by simp), get_put_of_ne (by simp), ht.get_rhs, ne_eq, Cell.monus_eq_zero_iff]
  rw [ensures_block_cons]
  refine (ensures_and (Nat.lt_add_right 3 hresult) (by simp) (by simp)).mono fun v hv => ?_
  simp only [hexhausted, hrhs] at hv
  -- both conditions together are the order
  have hlt : (s.get left ≤ s.get right ∧ ¬ s.get right ≤ s.get left) ↔ s.get left < s.get right := by
    simp only [UInt64.le_iff_toNat_le, UInt64.lt_iff_toNat_lt]
    omega
  simp only [hlt] at hv
  rw [ensures_block_cons, ensures_reset, ensures_block_cons, ensures_reset, ensures_block_cons,
    ensures_reset, ensures_block_nil, ensures_block_nil]
  refine ht.of_pair (fun i => ?_)
    ⟨(hv.inputs.trans hu.inputs).symm, (hv.written.trans hu.written).symm⟩
  have h₁ := hu.cells i
  have h₂ := hv.cells i
  simp only [cells_put] at h₁ h₂ ⊢
  grind

end Routine

end TapeLowering
