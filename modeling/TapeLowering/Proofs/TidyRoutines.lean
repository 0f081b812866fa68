import TapeLowering.Operation
import TapeLowering.Proofs.KnownZero

/-!
# The routines of the library are tidy

A routine takes its scratch cells by scopes, and every one of them is at zero when its scope is left,
whatever the operands are. That is known from the commands alone: each scratch cell is reset, drained,
or the origin of a loop or a branch, and is not touched after that.

`Clean` is closed under the ways in which routines are put together. What is left for each routine is
to say which of its commands clears a scratch cell, and `Clears` asks for that of the body of a scope.
-/

namespace TapeLowering.Routine

open Command

variable {depth k : Nat} {known : Bool} {r : Routine} {rs : List Routine} {x y : Slot}
  {body : Slot → Routine}

/-- Where `depth` slots are live, a routine uses live slots only, and all its scopes leave their cells
at zero. -/
structure Clean (depth : Nat) (r : Routine) : Prop where
  live : areLive depth (r.commands depth) = true
  tidy : areTidy depth (r.commands depth) = true

/-- Whether the cell `k` is known to hold zero behind a routine. -/
def zeroAfter (k depth : Nat) (known : Bool) (r : Routine) : Bool :=
  zeroAfterAll k depth known (r.commands depth)

/-- The latest live slot holds zero behind a routine, whatever was in it before. -/
def Clears (depth : Nat) (r : Routine) : Prop := ∀ known, r.zeroAfter depth (depth + 1) known = true

theorem commands_cons : (block (r :: rs)).commands depth
    = r.commands depth ++ (block rs).commands depth := by
  simp [block]

theorem commands_singleton : (block [r]).commands depth = r.commands depth := List.append_nil _

/-! ## What is known behind the parts of a routine -/

@[simp] theorem zeroAfter_nil : (block []).zeroAfter k depth known = known := rfl

/-- What is known behind a block is known behind its routines in order. -/
@[simp] theorem zeroAfter_cons : (block (r :: rs)).zeroAfter k depth known
    = (block rs).zeroAfter k depth (r.zeroAfter k depth known) := by
  rw [zeroAfter, commands_cons, zeroAfterAll_append]
  rfl

@[simp] theorem zeroAfter_reset : (reset x).zeroAfter k depth known = (known || k == x.index) := rfl

@[simp] theorem zeroAfter_increment :
    (increment x).zeroAfter k depth known = (known && k != x.index) := rfl

@[simp] theorem zeroAfter_transfer :
    (transfer x y).zeroAfter k depth known = (known && k != y.index || k == x.index) := rfl

@[simp] theorem zeroAfter_deduct :
    (deduct x y).zeroAfter k depth known = (known && k != y.index || k == x.index) := rfl

@[simp] theorem zeroAfter_loop : (loop x r).zeroAfter k depth known
    = (known && r.zeroAfter k depth true || k == x.index) := rfl

@[simp] theorem zeroAfter_branch : (branch x r).zeroAfter k depth known
    = (known && r.zeroAfter k depth true || k == x.index) := rfl

@[simp] theorem zeroAfter_scratch : (scratch body).zeroAfter k depth known
    = ((body ⟨depth⟩).zeroAfter k (depth + 1) known || k == depth) := rfl

/-! ## Clean routines, by their parts -/

/-- A command without a body is clean if its slots are live. -/
theorem clean_command {c : Command} (hplain : c.isPlain = true) :
    (ofCommands [c]).Clean depth ↔ c.isLive depth = true := by
  have htidy : areTidy depth [c] = true := by
    cases c with
    | loop | branch | scope => cases hplain
    | _ => rfl
  constructor
  · intro h
    simpa [ofCommands, areLive] using h.live
  · intro h
    exact ⟨by simpa [ofCommands, areLive] using h, htidy⟩

@[simp] theorem clean_reset : (reset x).Clean depth ↔ x.index < depth :=
  (clean_command rfl).trans decide_eq_true_iff

@[simp] theorem clean_set {v : Cell} : (set x v).Clean depth ↔ x.index < depth :=
  (clean_command rfl).trans decide_eq_true_iff

@[simp] theorem clean_increment : (increment x).Clean depth ↔ x.index < depth :=
  (clean_command rfl).trans decide_eq_true_iff

@[simp] theorem clean_decrement : (decrement x).Clean depth ↔ x.index < depth :=
  (clean_command rfl).trans decide_eq_true_iff

@[simp] theorem clean_transfer :
    (transfer x y).Clean depth ↔ x.index < depth ∧ y.index < depth :=
  (clean_command rfl).trans (by simp [isLive])

@[simp] theorem clean_deduct : (deduct x y).Clean depth ↔ x.index < depth ∧ y.index < depth :=
  (clean_command rfl).trans (by simp [isLive])

@[simp] theorem clean_nil : (block []).Clean depth := ⟨rfl, rfl⟩

theorem areLive_append (cs ds : List Command) :
    areLive depth (cs ++ ds) = (areLive depth cs && areLive depth ds) := by
  induction cs with
  | nil => rfl
  | cons c rest ih => rw [List.cons_append, areLive, ih, areLive, Bool.and_assoc]

theorem areTidy_append (cs ds : List Command) :
    areTidy depth (cs ++ ds) = (areTidy depth cs && areTidy depth ds) := by
  induction cs with
  | nil => rfl
  | cons c rest ih => rw [List.cons_append, areTidy, ih, areTidy, Bool.and_assoc]

/-- A block is clean if all of its routines are. -/
@[simp] theorem clean_cons :
    (block (r :: rs)).Clean depth ↔ r.Clean depth ∧ (block rs).Clean depth := by
  constructor
  · rintro ⟨hlive, htidy⟩
    rw [commands_cons, areLive_append, Bool.and_eq_true] at hlive
    rw [commands_cons, areTidy_append, Bool.and_eq_true] at htidy
    exact ⟨⟨hlive.1, htidy.1⟩, ⟨hlive.2, htidy.2⟩⟩
  · rintro ⟨h, hs⟩
    refine ⟨?_, ?_⟩
    · rw [commands_cons, areLive_append, h.live, hs.live, Bool.and_self]
    · rw [commands_cons, areTidy_append, h.tidy, hs.tidy, Bool.and_self]

/-- A loop is clean if its origin is live and its body is clean. -/
@[simp] theorem clean_loop : (loop x r).Clean depth ↔ x.index < depth ∧ r.Clean depth := by
  constructor
  · rintro ⟨hlive, htidy⟩
    simp only [loop, areLive, isLive, Bool.and_true, Bool.and_eq_true, decide_eq_true_iff] at hlive
    simp only [loop, areTidy, isTidy, Bool.and_true] at htidy
    exact ⟨hlive.1, hlive.2, htidy⟩
  · rintro ⟨hx, h⟩
    exact ⟨by simp [loop, areLive, isLive, hx, h.live], by simp [loop, areTidy, isTidy, h.tidy]⟩

@[simp] theorem clean_branch : (branch x r).Clean depth ↔ x.index < depth ∧ r.Clean depth := by
  have hloop : (branch x r).Clean depth ↔ (loop x r).Clean depth :=
    ⟨fun h => ⟨h.live, h.tidy⟩, fun h => ⟨h.live, h.tidy⟩⟩
  rw [hloop, clean_loop]

/-- A scratch cell has to be at zero behind the routine that it is for. -/
@[simp] theorem clean_scratch : (scratch body).Clean depth ↔
    (body ⟨depth⟩).Clean (depth + 1) ∧ (body ⟨depth⟩).zeroAfter depth (depth + 1) true = true := by
  constructor
  · rintro ⟨hlive, htidy⟩
    simp only [scratch, areLive, isLive, Bool.and_true] at hlive
    simp only [scratch, areTidy, isTidy, Bool.and_true, Bool.and_eq_true] at htidy
    exact ⟨⟨hlive, htidy.1⟩, htidy.2⟩
  · rintro ⟨h, hzero⟩
    rw [zeroAfter] at hzero
    exact ⟨by simp [scratch, areLive, isLive, h.live],
      by simp [scratch, areTidy, isTidy, h.tidy, hzero]⟩

/-! ## The routines -/

/-- A copy drains its spare cell back into the source. -/
theorem clean_copy (hx : x.index < depth) (hy : y.index < depth) : (copy x y).Clean depth := by
  unfold copy
  split
  · exact clean_nil
  · simp
    omega

/-- A routine that works on a copy in a scratch cell has to clear it. -/
theorem clean_holding (hx : x.index < depth) (h : (body ⟨depth⟩).Clean (depth + 1))
    (hclears : (body ⟨depth⟩).Clears depth) : (holding x body).Clean depth := by
  have hcopy : (copy ⟨depth⟩ x).Clean (depth + 1) :=
    clean_copy (Nat.lt_succ_self depth) (Nat.lt_succ_of_lt hx)
  simp [holding, hcopy, h, hclears _]

/-- A routine that works on two copies in scratch cells has to clear both. -/
theorem clean_holding_pair {body : Slot → Slot → Routine} (hx : x.index < depth)
    (hy : y.index < depth) (h : (body ⟨depth⟩ ⟨depth + 1⟩).Clean (depth + 2))
    (hfirst : ∀ known, (body ⟨depth⟩ ⟨depth + 1⟩).zeroAfter depth (depth + 2) known = true)
    (hsecond : (body ⟨depth⟩ ⟨depth + 1⟩).Clears (depth + 1)) :
    (holding x fun lhs => holding y fun rhs => body lhs rhs).Clean depth := by
  refine clean_holding hx (clean_holding (Nat.lt_succ_of_lt hy) h hsecond) fun known => ?_
  simp [holding, hfirst]

section

variable {result left right : Slot} (hresult : result.index < depth) (hleft : left.index < depth)
  (hright : right.index < depth)

include hresult hleft in
/-- A negation leaves its flag at zero, as the condition of a branch. -/
theorem clean_not : (not result left).Clean depth := by
  apply clean_holding hleft
  · simp
    omega
  · intro known
    simp

include hresult hleft hright in
/-- A conjunction leaves one copy at zero by its branch, and resets the other one. -/
theorem clean_and : (and result left right).Clean depth := by
  apply clean_holding_pair hleft hright
  · simp
    omega
  · simp
  · intro known
    simp

include hresult hleft hright in
/-- A disjunction leaves both copies at zero by its two branches. -/
theorem clean_or : (or result left right).Clean depth := by
  have hne : depth ≠ result.index := by omega
  apply clean_holding_pair hleft hright
  · simp
    omega
  · simp [hne]
  · intro known
    simp

include hleft hright in
/-- Taking two cells down leaves the flag at zero, as the origin of the loop. -/
theorem clean_cancel : (cancel left right).Clean depth := by
  have hand : (and ⟨depth⟩ left right).Clean (depth + 1) :=
    clean_and (by simp) (by omega) (by omega)
  simp [cancel, hand]
  omega

include hresult hleft hright in
/-- A strict comparison resets its copies and its flag. -/
theorem clean_lt : (lt result left right).Clean depth := by
  have hcancel : (cancel ⟨depth⟩ ⟨depth + 1⟩).Clean (depth + 2) := clean_cancel (by simp) (by simp)
  have hnot : (not ⟨depth + 2⟩ ⟨depth⟩).Clean (depth + 3) := clean_not (by simp) (by simp)
  have hand : (and result ⟨depth + 2⟩ ⟨depth + 1⟩).Clean (depth + 3) :=
    clean_and (by omega) (by simp) (by simp)
  have hlhs : depth < depth + 2 + 1 := by omega
  apply clean_holding_pair hleft hright
  · simp [hcancel, hnot, hand, hlhs]
  · simp
  · intro known
    simp

include hresult hleft hright in
/-- A comparison resets its copies. -/
theorem clean_le : (le result left right).Clean depth := by
  have hcancel : (cancel ⟨depth⟩ ⟨depth + 1⟩).Clean (depth + 2) := clean_cancel (by simp) (by simp)
  have hnot : (not result ⟨depth⟩).Clean (depth + 2) := clean_not (by omega) (by simp)
  have hlhs : depth < depth + 2 := by omega
  apply clean_holding_pair hleft hright
  · simp [hcancel, hnot, hlhs]
  · simp
  · intro known
    simp

include hresult hleft hright in
/-- A sum drains both copies into the result. -/
theorem clean_add : (add result left right).Clean depth := by
  have hne : depth ≠ result.index := by omega
  apply clean_holding_pair hleft hright
  · simp
    omega
  · simp [hne]
  · intro known
    simp

include hresult hleft hright in
/-- A difference drains both copies into the result. -/
theorem clean_sub : (sub result left right).Clean depth := by
  have hne : depth ≠ result.index := by omega
  apply clean_holding_pair hleft hright
  · simp
    omega
  · simp [hne]
  · intro known
    simp

include hresult hleft hright in
/-- A product counts the one copy down to zero, and resets the other one. -/
theorem clean_mul : (mul result left right).Clean depth := by
  have hterm : (holding ⟨depth + 1⟩ fun term => transfer term result).Clean (depth + 2) := by
    apply clean_holding (by simp)
    · simp
      omega
    · intro known
      simp
  apply clean_holding_pair hleft hright
  · simp [countdown, hterm]
    omega
  · simp [countdown]
  · intro known
    simp

end

/-- A division resets the divisor, drains the rest into the remainder, and leaves the flag of its loop
at zero. -/
theorem clean_divMod {quotient remainder dividend divisor : Slot} (hq : quotient.index < depth)
    (hr : remainder.index < depth) (hx : dividend.index < depth) (hy : divisor.index < depth) :
    (divMod quotient remainder dividend divisor).Clean depth := by
  have hge : (ge ⟨depth + 2⟩ ⟨depth⟩ ⟨depth + 1⟩).Clean (depth + 3) :=
    clean_le (by simp) (by simp) (by simp)
  have hsub : (sub ⟨depth⟩ ⟨depth⟩ ⟨depth + 1⟩).Clean (depth + 3) :=
    clean_sub (by simp) (by simp) (by simp)
  have hne : depth + 1 ≠ remainder.index := by omega
  have hne' : depth + 2 ≠ remainder.index := by omega
  apply clean_holding_pair hx hy
  · simp [hge, hsub, hne']
    omega
  · simp
  · intro known
    simp [hne]

end TapeLowering.Routine

namespace TapeLowering

/-- The slots that an operation works on. -/
def Operation.slots {σ : Type} : Operation σ → List σ
  | .clear x => [x]
  | .absorb x y | .copy x y | .not x y | .cancel x y => [x, y]
  | .binary _ x y z => [x, y, z]
  | .divMod x y z w => [x, y, z, w]

/-- Every operation of the library is clean where its slots are live. -/
theorem Operation.clean_routine {o : Operation Slot} {depth : Nat}
    (h : ∀ x ∈ o.slots, x.index < depth) : o.routine.Clean depth := by
  cases o with
  | clear x => exact Routine.clean_reset.mpr (h x (by simp [slots]))
  | absorb x y =>
    simp only [slots, List.forall_mem_cons] at h
    exact Routine.clean_transfer.mpr ⟨h.2.1, h.1⟩
  | copy x y =>
    simp only [slots, List.forall_mem_cons] at h
    exact Routine.clean_copy h.1 h.2.1
  | not x y =>
    simp only [slots, List.forall_mem_cons] at h
    exact Routine.clean_not h.1 h.2.1
  | cancel x y =>
    simp only [slots, List.forall_mem_cons] at h
    exact Routine.clean_cancel h.1 h.2.1
  | binary b z x y =>
    simp only [slots, List.forall_mem_cons] at h
    obtain ⟨hz, hx, hy, _⟩ := h
    cases b with
    | add => exact Routine.clean_add hz hx hy
    | sub => exact Routine.clean_sub hz hx hy
    | mul => exact Routine.clean_mul hz hx hy
    | and => exact Routine.clean_and hz hx hy
    | or => exact Routine.clean_or hz hx hy
    | lt => exact Routine.clean_lt hz hx hy
    | le => exact Routine.clean_le hz hx hy
    | gt => exact Routine.clean_lt hz hy hx
    | ge => exact Routine.clean_le hz hy hx
  | divMod q r x y =>
    simp only [slots, List.forall_mem_cons] at h
    exact Routine.clean_divMod h.1 h.2.1 h.2.2.1 h.2.2.2.1

end TapeLowering
