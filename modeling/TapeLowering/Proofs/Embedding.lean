import TapeLowering.Proofs.Brackets
import TapeLowering.Proofs.Passage

/-!
# Programs in other programs

A program stands in another one if a function on positions takes its symbols there, in order and
with nothing but comments between them. Scans for a partner then go through both programs side by
side (`Embeds.closingFrom?`, `Embeds.openingFrom?`), so a machine on the one does at each symbol
what a machine on the other does there (`step_renumber_ok`, `step_renumber_error`).

A part of a larger program is one instance; a text with comments, and its symbols alone, is another.
-/

namespace TapeLowering

namespace Program

variable {f : Nat → Nat} {p q : Program}

/-- The function takes the symbols of one program, in order, to the same symbols in the other one,
where nothing but comments is between them. Comments may be left out. -/
structure Embeds (f : Nat → Nat) (p q : Program) : Prop where
  symbol : ∀ {i x}, p.symbolAt? i = some x → q.symbolAt? (f i) = some x ∧ f (i + 1) = f i + 1
  comment : ∀ {i}, i < p.size → p.symbolAt? i = none →
    f (i + 1) = f i ∨ q.symbolAt? (f i) = none ∧ f (i + 1) = f i + 1

namespace Embeds

/-- The function on positions never goes back. -/
theorem le_succ (h : Embeds f p q) {i : Nat} (hi : i < p.size) : f i ≤ f (i + 1) := by
  cases hx : p.symbolAt? i with
  | some x => exact Nat.le_of_lt (Nat.lt_of_lt_of_eq (Nat.lt_succ_self _) (h.symbol hx).2.symm)
  | none => rcases h.comment hi hx with heq | ⟨_, heq⟩ <;> omega

/-- Later positions of the one program stand later in the other one, or at the same place. -/
theorem mono (h : Embeds f p q) {i k : Nat} (hk : i + k ≤ p.size) : f i ≤ f (i + k) := by
  induction k with
  | zero => exact Nat.le_refl _
  | succ k ih => exact Nat.le_trans (ih (by omega)) (h.le_succ (by omega))

/-- A scan forward stops at the image of the position where it stops in the first program. -/
theorem closingFrom? (h : Embeds f p q) {remaining depth position : Nat}
    (hle : position + remaining ≤ p.size) :
    q.closingFrom? (f (position + remaining) - f position) depth (f position)
      = (p.closingFrom? remaining depth position).map f := by
  induction remaining generalizing depth position with
  | zero =>
    rw [Nat.add_zero, Nat.sub_self]
    rfl
  | succ remaining ih =>
    have hle' : position + 1 + remaining ≤ p.size := by omega
    have hmono := h.mono hle'
    rw [show position + (remaining + 1) = position + 1 + remaining by omega]
    -- a step of the scan in the second program, if its position moves on as well
    have hstep : f (position + 1) = f position + 1 → f (position + 1 + remaining) - f position
        = (f (position + 1 + remaining) - f (position + 1)) + 1 := by omega
    cases hx : p.symbolAt? position with
    | none =>
      rw [closingFrom?_pass (by simp [hx]) (by simp [hx]), ← ih hle']
      rcases h.comment (by omega) hx with heq | ⟨hnone, heq⟩
      · rw [heq]
      · rw [hstep heq, closingFrom?_pass (by simp [hnone]) (by simp [hnone]), heq]
    | some x =>
      obtain ⟨hx', heq⟩ := h.symbol hx
      rw [hstep heq]
      cases x with
      | act a =>
        rw [closingFrom?_pass (by simp [hx']) (by simp [hx']),
          closingFrom?_pass (by simp [hx]) (by simp [hx]), ← ih hle', heq]
      | loopStart => rw [closingFrom?_loopStart hx, ← ih hle', closingFrom?_loopStart hx', heq]
      | loopEnd =>
        cases depth with
        | zero => rw [closingFrom?_loopEnd_zero hx, closingFrom?_loopEnd_zero hx', Option.map_some]
        | succ depth => rw [closingFrom?_loopEnd hx, ← ih hle', closingFrom?_loopEnd hx', heq]

/-- A scan back stops at the image of the position where it stops in the first program, and nowhere
before the image of that program. -/
theorem openingFrom? (h : Embeds f p q) (hbefore : ∀ depth, q.openingFrom? (f 0) depth = none)
    {bound depth : Nat} (hle : bound ≤ p.size) :
    q.openingFrom? (f bound) depth = (p.openingFrom? bound depth).map f := by
  induction bound generalizing depth with
  | zero => exact hbefore depth
  | succ position ih =>
    have hle' : position ≤ p.size := by omega
    cases hx : p.symbolAt? position with
    | none =>
      rw [openingFrom?_pass (by simp [hx]) (by simp [hx]), ← ih hle']
      -- a comment has a place of its own in the other program, or none
      rcases h.comment (by omega) hx with heq | ⟨hnone, heq⟩
      · rw [heq]
      · rw [heq, openingFrom?_pass (by simp [hnone]) (by simp [hnone])]
    | some x =>
      obtain ⟨hx', heq⟩ := h.symbol hx
      rw [heq]
      cases x with
      | act a =>
        rw [openingFrom?_pass (by simp [hx']) (by simp [hx']),
          openingFrom?_pass (by simp [hx]) (by simp [hx]), ← ih hle']
      | loopEnd => rw [openingFrom?_loopEnd hx, ← ih hle', openingFrom?_loopEnd hx']
      | loopStart =>
        cases depth with
        | zero =>
          rw [openingFrom?_loopStart_zero hx, openingFrom?_loopStart_zero hx', Option.map_some]
        | succ depth => rw [openingFrom?_loopStart hx, ← ih hle', openingFrom?_loopStart hx']

end Embeds

/-- A machine at a position of the first program does what one at the image of the position does in
the second program. -/
structure ObeyedAt (f : Nat → Nat) (p q : Program) (i : Nat) : Prop where
  lt : f i < q.size
  symbol : q.symbolAt? (f i) = p.symbolAt? i
  closing : p.symbolAt? i = some .loopStart → q.closing? (f i) = (p.closing? i).map f
  opening : p.symbolAt? i = some .loopEnd → q.opening? (f i) = (p.opening? i).map f
  succ : f (i + 1) = f i + 1
  succ_partner : ∀ j, p.Partner i j → f (j + 1) = f j + 1

/-- The partner of a bracket is a symbol, and no comment. -/
theorem Partner.exists_symbol {i j : Nat} (h : p.Partner i j) : ∃ x, p.symbolAt? j = some x := by
  rcases h with ⟨_, hj⟩ | ⟨_, hj⟩
  · exact ⟨_, symbolAt?_of_closingFrom? hj⟩
  · exact ⟨_, symbolAt?_of_openingFrom? hj⟩

/-- A symbol of a program is obeyed in the other one as it is there, if the programs end together and no
scan back finds anything before the part. -/
theorem Embeds.obeyedAt (h : Embeds f p q) (hend : f p.size = q.size)
    (hbefore : ∀ depth, q.openingFrom? (f 0) depth = none) {i : Nat} {x : Symbol}
    (hx : p.symbolAt? i = some x) : ObeyedAt f p q i where
  lt := lt_size_of_symbolAt? (h.symbol hx).1
  symbol := (h.symbol hx).1.trans hx.symm
  closing _ := by
    have hlt := lt_size_of_symbolAt? hx
    have hle : i + 1 + (p.size - (i + 1)) = p.size := by omega
    rw [closing?, closing?, ← h.closingFrom? (Nat.le_of_eq hle), hle, hend, (h.symbol hx).2]
  opening _ := h.openingFrom? hbefore (Nat.le_of_lt (lt_size_of_symbolAt? hx))
  succ := (h.symbol hx).2
  succ_partner j hj := by
    obtain ⟨y, hy⟩ := hj.exists_symbol
    exact (h.symbol hy).2

end Program

namespace State

variable {f : Nat → Nat} {p q : Program} {s t : State} {fault : Fault}

/-- The state on another program: the same workspace, with the counter there and another count of
steps. -/
def renumber (f : Nat → Nat) (steps : Nat) (s : State) : State :=
  { s with counter := f s.counter, steps }

/-- A jump to a position is a jump to where that position stands in the other program. -/
theorem jump_renumber (s : State) (target : Option Nat) (steps : Nat) :
    (s.renumber f steps).jump (target.map f) = (s.jump target).map (renumber f steps) := by
  cases target <;> rfl

/-- A command that is obeyed at both places does the same there, up to the position. -/
theorem obey_renumber (h : p.ObeyedAt f q s.counter) (steps : Nat) :
    (s.renumber f steps).obey q (q.symbolAt? (f s.counter))
      = (s.obey p (p.symbolAt? s.counter)).map (renumber f steps) := by
  rw [h.symbol]
  have hzero : (s.renumber f steps).isZero = s.isZero := rfl
  cases hx : p.symbolAt? s.counter with
  | none => rfl
  | some x =>
    cases x with
    | act a =>
      simp only [obey]
      cases hw : s.toWorkspace.perform a <;> simp [renumber, hw, Except.map, withWorkspace]
    | loopStart =>
      simp only [obey, hzero]
      split
      · rw [← jump_renumber, ← h.closing hx]
        rfl
      · rfl
    | loopEnd =>
      simp only [obey, hzero]
      split
      · rfl
      · rw [← jump_renumber, ← h.opening hx]
        rfl

/-- The next position of the one machine is the image of that of the other. -/
theorem advance_renumber (h : p.ObeyedAt f q s.counter)
    (ht : s.obey p (p.symbolAt? s.counter) = .ok t) (steps : Nat) :
    (t.renumber f steps).advance = t.advance.renumber f (steps + 1) := by
  have hnext : f (t.counter + 1) = f t.counter + 1 := by
    rcases counter_of_obey ht with heq | hstart | hend
    · rw [heq, h.succ]
    · exact h.succ_partner _ (.inl hstart)
    · exact h.succ_partner _ (.inr hend)
  simp only [advance, renumber, hnext]

/-- A step that succeeds on the one program succeeds on the other. -/
theorem step_renumber_ok (h : p.ObeyedAt f q s.counter) (hs : s.counter < p.size)
    (ht : s.step p = .ok t) (steps : Nat) :
    (s.renumber f steps).step q = .ok (t.renumber f (steps + 1)) := by
  obtain ⟨u, hu, rfl⟩ := (step_eq_ok_iff hs).mp ht
  refine (step_eq_ok_iff h.lt).mpr ⟨u.renumber f steps, ?_, advance_renumber h hu steps⟩
  exact (obey_renumber h steps).trans (by rw [hu]; rfl)

/-- A step that fails on the one program fails on the other, with the same fault at the position
there. -/
theorem step_renumber_error (h : p.ObeyedAt f q s.counter) (hs : s.counter < p.size)
    (hf : s.step p = .error (.fault s.counter fault)) (steps : Nat) :
    (s.renumber f steps).step q = .error (.fault (f s.counter) fault) := by
  obtain ⟨_, hu, ⟨⟩⟩ := (step_eq_error_iff hs).mp hf
  refine (step_eq_error_iff h.lt).mpr ⟨fault, ?_, rfl⟩
  exact (obey_renumber h steps).trans (by rw [hu]; rfl)

end State

end TapeLowering
