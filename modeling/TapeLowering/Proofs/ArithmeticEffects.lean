import TapeLowering.Proofs.Failures
import TapeLowering.Proofs.RoutineEffects

/-!
# What sums, differences and products come to

The routines of arithmetic compute with the natural numbers that their cells hold, and fail in the cell
of the result where that is no number of a cell. A copy has been taken of both operands before the result
is emptied, so the result may be one of them.

A sum and a difference differ only in the last of their three moves: up to there, nothing can fail, and
the result holds the left operand (`loaded_of_inherited`).

A product adds the right operand to the result for every one of the left operand. What the result holds,
and what the rounds to come will add to it, make up the product: `Multiplies`. A round for which there is
no room left in the result fails, and a product that is too large has such a round (`Multiplies.round`).
-/

namespace TapeLowering.Routine

open Command Store

variable {depth : Nat} {s t : Store} {result left right : Slot}

/-! ## Sums and differences -/

section

variable (hresult : result.index < depth) (hleft : left.index < depth) (hright : right.index < depth)

include hresult hleft hright

/-- What the last move of a sum or of a difference starts from: the result holds the left operand, and a
copy of the right one is left to move. -/
theorem loaded_of_inherited {P : List Command → Store → Prop} (hP : Inherited P)
    {last : Slot → Routine}
    (h : ∀ u, u.get result = s.get left → u.get ⟨depth + 1⟩ = s.get right →
      (∀ v, Wiped depth (s.put result v) ((u.put result v).put ⟨depth + 1⟩ 0)) →
      P ((last ⟨depth + 1⟩).commands (depth + 2)) u) :
    P ((holding left fun lhs => holding right fun rhs =>
      block [reset result, transfer lhs result, last rhs]).commands depth) s := by
  have hlhs : (⟨depth⟩ : Slot) ≠ result := Slot.mk_ne_of_lt hresult
  have hrhs : (⟨depth + 1⟩ : Slot) ≠ result := Slot.mk_ne_of_lt (Nat.lt_succ_of_lt hresult)
  refine emptied_of_inherited hleft hright hresult hP fun u hl hr hzero hu => ?_
  have hroom : (s.get left).toNat < 0x10000000000000000 := (s.get left).toNat_lt
  apply hP.tail
  rw [ensures_transfer (by rw [hl, hzero]; simpa using hroom), hl, hzero, UInt64.zero_add,
    commands_singleton]
  refine h _ ?_ ?_ fun v => hu v _ (fun i => ?_) ⟨rfl, rfl⟩
  · rw [get_put_of_ne hlhs.symm, get_put_self]
  · rw [get_put_of_ne (by simp), get_put_of_ne hrhs, hr]
  · simp only [cells_put]
    grind

/-- A sum that a cell can hold ends up in the result. -/
theorem ensures_add (h : (s.get left).toNat + (s.get right).toNat < 0x10000000000000000) :
    Ensures ((add result left right).commands depth) s
      (Wiped depth (s.put result (s.get left + s.get right))) := by
  refine loaded_of_inherited hresult hleft hright (inherited_ensures _) fun u hl hr hu => ?_
  rw [ensures_transfer (by rw [hl, hr]; omega), hl, hr]
  exact hu _

/-- A sum that no cell can hold overflows the cell of the result. -/
theorem fails_add (h : 0x10000000000000000 ≤ (s.get left).toNat + (s.get right).toNat) :
    Fails ((add result left right).commands depth) s (.cellOverflow result.index) := by
  refine loaded_of_inherited hresult hleft hright (breaks_fails _).toInherited fun u hl hr _ => ?_
  exact fails_transfer (by rw [hl, hr]; omega)

/-- A difference of a number and no greater one ends up in the result. -/
theorem ensures_sub (h : s.get right ≤ s.get left) :
    Ensures ((sub result left right).commands depth) s
      (Wiped depth (s.put result (s.get left - s.get right))) := by
  refine loaded_of_inherited hresult hleft hright (inherited_ensures _) fun u hl hr hu => ?_
  rw [ensures_deduct (by rwa [hl, hr]), hl, hr]
  exact hu _

/-- Taking a number from a smaller one takes from zero in the cell of the result. -/
theorem fails_sub (h : s.get left < s.get right) :
    Fails ((sub result left right).commands depth) s (.decrementOfZero result.index) := by
  refine loaded_of_inherited hresult hleft hright (breaks_fails _).toInherited fun u hl hr _ => ?_
  exact fails_deduct (by rwa [hl, hr])

end

/-! ## Products -/

variable {rounds term sum : Cell}

/-- The store within a product: how many rounds are left, what each of them adds, and the sum so far. -/
def product (depth : Nat) (result : Slot) (s : Store) (rounds term sum : Cell) : Store :=
  ((s.put ⟨depth⟩ rounds).put ⟨depth + 1⟩ term).put result sum

/-- One round of a product. -/
def productRound (depth : Nat) (result : Slot) : Routine :=
  block [holding ⟨depth + 1⟩ fun held => transfer held result, decrement ⟨depth⟩]

/-- A store in the middle of a product, with another number of rounds to come. -/
theorem product_put (hresult : result.index < depth) (v : Cell) :
    (product depth result s rounds term sum).put ⟨depth⟩ v = product depth result s v term sum := by
  refine eq_of_cells (fun i => ?_) ⟨rfl, rfl⟩
  simp only [product, cells_put]
  grind

section

variable (hresult : result.index < depth)
  (ht : Wiped (depth + 2) (product depth result s rounds term sum) t)

include hresult ht

/-- What the three cells of a product hold: the rounds, the term and the sum. They are three cells,
since the result is below both of the others. -/
theorem product_get : t.get ⟨depth⟩ = rounds ∧ t.get ⟨depth + 1⟩ = term ∧ t.get result = sum := by
  have hrounds : (⟨depth⟩ : Slot) ≠ result := Slot.mk_ne_of_lt hresult
  have hterm : (⟨depth + 1⟩ : Slot) ≠ result := Slot.mk_ne_of_lt (Nat.lt_succ_of_lt hresult)
  rw [ht.get_eq (by simp), ht.get_eq (by simp), ht.get_eq (Nat.lt_add_right 2 hresult)]
  simp [product, hrounds, hterm]

/-- What a round adds to the sum is a copy of the term. -/
theorem held_of_inherited {P : List Command → Store → Prop} (hP : Inherited P)
    (h : ∀ u, u.get ⟨depth + 2⟩ = term → u.get result = sum →
      (∀ v, Wiped (depth + 2) (product depth result s rounds term v)
        ((u.put result v).put ⟨depth + 2⟩ 0)) →
      P ((transfer ⟨depth + 2⟩ result).commands (depth + 3)) u) :
    P ((holding ⟨depth + 1⟩ fun held => transfer held result).commands (depth + 2)) t := by
  have hne : result ≠ (⟨depth + 2⟩ : Slot) := (Slot.mk_ne_of_lt (Nat.lt_add_right 2 hresult)).symm
  obtain ⟨-, hterm, hsum⟩ := product_get hresult ht
  refine holding_of_inherited hP (by simp) fun u hu => ?_
  rw [hterm] at hu
  refine h u ?_ ?_ fun v => ⟨fun i => ?_, hu.inputs.trans ht.inputs, hu.written.trans ht.written⟩
  · rw [hu.get_eq (by simp), get_put_self]
  · rw [hu.get_eq (Nat.lt_add_right 3 hresult), get_put_of_ne hne, hsum]
  · have h₁ := ht.cells i
    have h₂ := hu.cells i
    simp only [product, cells_put] at h₁ h₂ ⊢
    grind

end

/-- `n` rounds are left, and the sum so far is what these rounds leave of the product of `a` and
`b`. -/
def Multiplies (depth : Nat) (result : Slot) (s : Store) (a b : Cell) (n : Nat) (t : Store) : Prop :=
  ∃ rounds sum : Cell, rounds.toNat = n ∧ sum.toNat + n * b.toNat = a.toNat * b.toNat ∧
    Wiped (depth + 2) (product depth result s rounds b sum) t

namespace Multiplies

variable {a b : Cell} {n : Nat}

theorem start (ht : Wiped (depth + 2) ((s.put ⟨depth⟩ a).put ⟨depth + 1⟩ b) t) :
    Multiplies depth result s a b a.toNat (t.put result 0) :=
  ⟨a, 0, rfl, by simp, ht.put result 0⟩

/-- A round leaves one round less, unless the sum gets too large. -/
theorem round (hresult : result.index < depth) (h : Multiplies depth result s a b (n + 1) t) :
    t.get ⟨depth⟩ ≠ 0 ∧
      (Ensures ((productRound depth result).commands (depth + 2)) t
          (Multiplies depth result s a b n) ∨
        Fails ((productRound depth result).commands (depth + 2)) t (.cellOverflow result.index)
          ∧ 0x10000000000000000 ≤ a.toNat * b.toNat) := by
  obtain ⟨rounds, sum, hn, hsum, ht⟩ := h
  have hrounds : rounds ≠ 0 := by
    rintro rfl
    cases hn
  have hpred := Cell.toNat_sub_one hrounds
  rw [Nat.succ_mul] at hsum
  refine ⟨by rwa [(product_get hresult ht).1], ?_⟩
  rw [productRound]
  -- the sum never gets smaller, so a round without room for it is one of a product without room
  by_cases hroom : b.toNat + sum.toNat < 0x10000000000000000
  · left
    rw [ensures_block_cons]
    refine held_of_inherited hresult ht (inherited_ensures _) fun u hb hc hu => ?_
    have hnext := hu (sum + b)
    rw [ensures_transfer (by rwa [hb, hc]), hb, hc, ensures_block_cons]
    have hget := (product_get hresult hnext).1
    rw [ensures_decrement (by rwa [hget]), ensures_block_nil, hget]
    have hadd : (sum + b).toNat = sum.toNat + b.toNat := Cell.toNat_add_of_lt (by omega)
    refine ⟨rounds - 1, sum + b, by omega, by omega, ?_⟩
    rw [← product_put hresult]
    exact hnext.put ⟨depth⟩ (rounds - 1)
  · right
    refine ⟨(breaks_fails _).head (held_of_inherited hresult ht (breaks_fails _).toInherited ?_),
      by omega⟩
    intro u hb hc _
    exact fails_transfer (by rw [hb, hc]; omega)

end Multiplies

section

variable (hresult : result.index < depth) (hleft : left.index < depth) (hright : right.index < depth)

include hresult hleft hright

/-- A product that a cell can hold ends up in the result: the sum has room for every round, and behind
the last one it is the product. -/
theorem ensures_mul (h : (s.get left).toNat * (s.get right).toNat < 0x10000000000000000) :
    Ensures ((mul result left right).commands depth) s
      (Wiped depth (s.put result (s.get left * s.get right))) := by
  refine ensures_holding_pair hleft hright fun t ht => ?_
  rw [ensures_block_cons, ensures_reset, ensures_block_cons]
  have hstop : ∀ u, Multiplies depth result s (s.get left) (s.get right) 0 u → u.get ⟨depth⟩ = 0 := by
    rintro u ⟨rounds, sum, hzero, -, hu⟩
    rw [(product_get hresult hu).1]
    exact UInt64.toNat_inj.mp hzero
  refine (ensures_loop hstop (fun n u hu => ?_) (.start ht)).mono ?_
  -- no round fails: the product would be too large
  · obtain ⟨hne, hdone | ⟨-, hlarge⟩⟩ := hu.round hresult
    · exact ⟨hne, hdone⟩
    · omega
  · rintro u ⟨rounds, sum, hzero, hsum, hu⟩
    have hrounds : rounds = 0 := UInt64.toNat_inj.mp hzero
    have hproduct : sum = s.get left * s.get right := by
      rw [← UInt64.toNat_inj, Cell.toNat_mul_of_lt h]
      omega
    rw [hrounds, hproduct] at hu
    rw [ensures_block_cons, ensures_reset, ensures_block_nil]
    refine ⟨fun i => ?_, hu.inputs, hu.written⟩
    have hi := hu.cells i
    simp only [product, cells_put] at hi ⊢
    grind

/-- A product that no cell can hold overflows the cell of the result, in the round that there is no room
for. -/
theorem fails_mul (h : 0x10000000000000000 ≤ (s.get left).toNat * (s.get right).toNat) :
    Fails ((mul result left right).commands depth) s (.cellOverflow result.index) := by
  have hbreaks := breaks_fails (.cellOverflow result.index)
  refine holding_pair_of_inherited hleft hright hbreaks.toInherited fun t ht => ?_
  apply hbreaks.tail
  rw [ensures_reset]
  apply hbreaks.head
  have hstop : ∀ u, ¬ Multiplies depth result s (s.get left) (s.get right) 0 u := by
    rintro u ⟨rounds, sum, -, hsum, -⟩
    have hlt := sum.toNat_lt
    omega
  refine fails_loop hstop (fun n u hu => ?_) (.start ht)
  obtain ⟨hne, hround⟩ := hu.round hresult
  exact ⟨hne, hround.imp_right And.left⟩

end

end TapeLowering.Routine
