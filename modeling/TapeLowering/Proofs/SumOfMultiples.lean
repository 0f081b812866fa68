import Mathlib.Algebra.BigOperators.Intervals
import TapeLowering.Proofs.ArithmeticEffects
import TapeLowering.Proofs.Compiler
import TapeLowering.Proofs.DivisionByZero
import TapeLowering.Proofs.DivisionRounds
import TapeLowering.Script.Resolve

/-!
# A program that sums multiples

`sumOfMultiples` reads two divisors and a ceiling, and adds up the numbers below the ceiling that one of
the divisors divides. It goes down from the ceiling, and in every round calls two divisions, three
operations of logic and an addition, all of which have the same cells for their results and the same
scratch cells every time.

A round changes the result and the ceiling, and of everything else only cells that it does not look at
before it has set them (`tests_ensure`, `Sums.round`). So what is carried from round to round is the sum
of what is done, and the sum of what is left (`Sums`). The addition that gets too large is noticed where
it is made.
-/

namespace TapeLowering

namespace Script

/-- Sums up the multiples of two divisors below a ceiling. -/
def sumOfMultiples : Script := [
  .allocate "result", .allocate "divisor_1", .allocate "divisor_2", .allocate "ceiling",
  .allocate "quotient", .allocate "remainder", .allocate "is_divisible_by_1",
  .allocate "is_divisible_by_2", .allocate "is_divisible_by_either",
  .read "divisor_1", .read "divisor_2", .read "ceiling",
  .decrement "ceiling",
  .loop "ceiling" [
    .call (.divMod "quotient" "remainder" "ceiling" "divisor_1"),
    .call (.not "is_divisible_by_1" "remainder"),
    .call (.divMod "quotient" "remainder" "ceiling" "divisor_2"),
    .call (.not "is_divisible_by_2" "remainder"),
    .call (.binary .or "is_divisible_by_either" "is_divisible_by_1" "is_divisible_by_2"),
    .branch "is_divisible_by_either" [.call (.binary .add "result" "result" "ceiling")],
    .decrement "ceiling"],
  .write "result"]

end Script

/-- The sum of the numbers from one on, below a ceiling, that one of two divisors divides. -/
def multiplesBelow (d₁ d₂ ceiling : ℕ) : ℕ :=
  ∑ k ∈ Finset.range ceiling with 0 < k ∧ (d₁ ∣ k ∨ d₂ ∣ k), k

theorem multiplesBelow_one (d₁ d₂ : ℕ) : multiplesBelow d₁ d₂ 1 = 0 := by
  simp [multiplesBelow, Finset.sum_filter]

/-- One number more below the ceiling is added if one of the divisors divides it. -/
theorem multiplesBelow_succ (d₁ d₂ n : ℕ) : multiplesBelow d₁ d₂ (n + 2)
    = multiplesBelow d₁ d₂ (n + 1) + if d₁ ∣ n + 1 ∨ d₂ ∣ n + 1 then n + 1 else 0 := by
  simp [multiplesBelow, Finset.sum_filter, Finset.sum_range_succ _ (n + 1)]

namespace SumOfMultiples

open Command Routine Store

variable {d₁ d₂ c : Cell} {S n : ℕ} {s t u : Store} {x y : Slot} {v : Cell}

/-! ## The program -/

/-- Tells whether a divisor divides the number at hand. -/
def test (divisor flag : Slot) : Routine := block [divMod ⟨4⟩ ⟨5⟩ ⟨3⟩ divisor, not flag ⟨5⟩]

/-- Tells whether one of the divisors divides the number at hand. -/
def tests : Routine := block [test ⟨1⟩ ⟨6⟩, test ⟨2⟩ ⟨7⟩, or ⟨8⟩ ⟨6⟩ ⟨7⟩]

/-- Adds the number at hand if one of the divisors divides it, and goes on to the number below. -/
def sumRound : Routine := block [tests, branch ⟨8⟩ (add ⟨0⟩ ⟨0⟩ ⟨3⟩), decrement ⟨3⟩]

/-- Goes through all numbers, and outputs the sum. -/
def rounds : Routine := block [loop ⟨3⟩ sumRound, ofCommands [.write ⟨0⟩]]

/-- What is done once the inputs are read. -/
def main : Routine := block [decrement ⟨3⟩, rounds]

/-- The program, by the parts that the proofs are about. -/
theorem commands_eq : Script.sumOfMultiples.commands = List.replicate 9 .allocate ++
    ([.read ⟨1⟩, .read ⟨2⟩, .read ⟨3⟩] ++ main.commands 9) := by
  rfl

theorem areInline : areInline Script.sumOfMultiples.commands = true := by decide +kernel

theorem exists_code : ∃ code, compile Script.sumOfMultiples.commands = .ok code :=
  Violation.exists_of_isOk (by decide +kernel)

/-! ## The tests of a round -/

/-- The second store has the cells that last from round to round as the first one has them. -/
structure Kept (s t : Store) : Prop where
  get_eq : ∀ x : Slot, x.index < 4 → t.get x = s.get x
  inputs : t.inputs = s.inputs
  written : t.written = s.written

theorem Kept.refl (s : Store) : Kept s s := ⟨fun _ _ => rfl, rfl, rfl⟩

theorem Kept.trans (h : Kept s t) (h' : Kept t u) : Kept s u where
  get_eq x hx := (h'.get_eq x hx).trans (h.get_eq x hx)
  inputs := h'.inputs.trans h.inputs
  written := h'.written.trans h.written

/-- What is put into another cell is of no account. -/
theorem Kept.put (h : Kept s t) (hx : 4 ≤ x.index) (v : Cell) : Kept s (t.put x v) where
  get_eq y hy := by
    have hne : y ≠ x := fun heq => by rw [heq] at hy; omega
    rw [get_put_of_ne hne, h.get_eq y hy]
  inputs := h.inputs
  written := h.written

theorem Kept.put_put (h : Kept s t) (x : Slot) (v : Cell) : Kept (s.put x v) (t.put x v) where
  get_eq y hy := by rw [get_put, get_put, h.get_eq y hy]
  inputs := h.inputs
  written := h.written

/-- Wiping scratch cells leaves the operands alone. -/
theorem Kept.of_wiped (h : Wiped 9 s t) : Kept s t where
  get_eq x hx := h.get_eq (by omega)
  inputs := h.inputs
  written := h.written

/-- A test divides the number of the round by a divisor, and sets its flag if nothing remains. The other
flags are as they were. -/
theorem ensures_test {divisor flag : Slot} (hdivisor : divisor.index < 4) (hlt : 5 < flag.index)
    (hflag : flag.index < 9) (hne : s.get divisor ≠ 0) :
    Ensures ((test divisor flag).commands 9) s fun t => Kept s t ∧
      t.get flag = (if s.get ⟨3⟩ % s.get divisor = 0 then 1 else 0) ∧
      ∀ x : Slot, 5 < x.index → x.index < 9 → x ≠ flag → t.get x = s.get x := by
  have hother : ∀ x : Slot, 5 < x.index → x ≠ ⟨4⟩ ∧ x ≠ ⟨5⟩ :=
    fun x hx => ⟨Slot.mk_ne_of_lt (by simp at *; omega), Slot.mk_ne_of_lt (by simp; omega)⟩
  rw [test, ensures_block_cons]
  refine (ensures_divMod (by decide) (by decide) (by decide) (by omega) (by decide) hne).mono
    fun t ht => ?_
  have hremainder : t.get ⟨5⟩ = s.get ⟨3⟩ % s.get divisor := by
    rw [ht.get_eq (by decide), get_put_self]
  have hkept : Kept s t :=
    (((Kept.refl s).put (by decide) _).put (by decide) _).trans (.of_wiped ht)
  rw [ensures_block_cons]
  refine (ensures_not hflag (by decide)).mono fun u hu => ?_
  rw [ensures_block_nil]
  refine ⟨(hkept.put (by omega) _).trans (.of_wiped hu), ?_, fun x hx hx' hxf => ?_⟩
  · rw [hu.get_eq hflag, get_put_self, hremainder]
  · obtain ⟨h4, h5⟩ := hother x hx
    rw [hu.get_eq hx', get_put_of_ne hxf, ht.get_eq hx', get_put_of_ne h5, get_put_of_ne h4]

/-- The two tests and the disjunction tell whether one of the divisors divides the number of the
round. -/
theorem ensures_tests (h₁ : s.get ⟨1⟩ ≠ 0) (h₂ : s.get ⟨2⟩ ≠ 0) :
    Ensures (tests.commands 9) s fun t => Kept s t ∧
      (t.get ⟨8⟩ ≠ 0 ↔ s.get ⟨3⟩ % s.get ⟨1⟩ = 0 ∨ s.get ⟨3⟩ % s.get ⟨2⟩ = 0) := by
  rw [tests, ensures_block_cons]
  refine (ensures_test (by decide) (by decide) (by decide) h₁).mono fun t ht => ?_
  obtain ⟨hkept, hfirst, -⟩ := ht
  have hsecond : t.get ⟨2⟩ = s.get ⟨2⟩ := hkept.get_eq ⟨2⟩ (by decide)
  have hnumber : t.get ⟨3⟩ = s.get ⟨3⟩ := hkept.get_eq ⟨3⟩ (by decide)
  rw [ensures_block_cons]
  refine (ensures_test (by decide) (by decide) (by decide) (hsecond ▸ h₂)).mono fun u hu => ?_
  obtain ⟨hkept', hlast, hframe⟩ := hu
  rw [hnumber, hsecond] at hlast
  -- the second test does not touch the flag of the first one
  rw [← hframe ⟨6⟩ (by decide) (by decide) (by decide)] at hfirst
  rw [ensures_block_cons]
  refine (ensures_or (by decide) (by decide) (by decide)).mono fun r hr => ?_
  rw [ensures_block_nil]
  refine ⟨((hkept.trans hkept').put (by decide) _).trans (.of_wiped hr), ?_⟩
  rw [hr.get_eq (by decide), get_put_self, hfirst, hlast]
  simp [or_iff_not_imp_left]

/-! ## The rounds -/

/-- What is carried from round to round: the sum of what is done and of what is left, from the number at
hand on down. -/
structure Sums (d₁ d₂ : Cell) (S n : ℕ) (s : Store) : Prop where
  divisor_1 : s.get ⟨1⟩ = d₁
  divisor_2 : s.get ⟨2⟩ = d₂
  number : (s.get ⟨3⟩).toNat = n
  sum : (s.get ⟨0⟩).toNat + multiplesBelow d₁.toNat d₂.toNat (n + 1) = S
  inputs : s.inputs = []
  written : s.written = []

/-- With a number left, the loop goes on. -/
theorem Sums.ne_zero (h : Sums d₁ d₂ S (n + 1) s) : s.get ⟨3⟩ ≠ 0 := by
  intro hzero
  have hnumber := h.number
  rw [hzero] at hnumber
  cases hnumber

/-- The number at hand is counted in what is left if one of the divisors divides it. -/
theorem Sums.sum_eq (h : Sums d₁ d₂ S (n + 1) s) :
    (s.get ⟨0⟩).toNat + multiplesBelow d₁.toNat d₂.toNat (n + 1)
      + (if s.get ⟨3⟩ % s.get ⟨1⟩ = 0 ∨ s.get ⟨3⟩ % s.get ⟨2⟩ = 0 then n + 1 else 0) = S := by
  have hdvd : ∀ d : Cell, s.get ⟨3⟩ % d = 0 ↔ d.toNat ∣ n + 1 := fun d => by
    rw [← UInt64.toNat_inj, UInt64.toNat_mod, h.number, Nat.dvd_iff_mod_eq_zero]
    rfl
  have hsum := h.sum
  rw [multiplesBelow_succ] at hsum
  simp only [hdvd, h.divisor_1, h.divisor_2]
  omega

/-- Once the result counts the number at hand, the number below is next. -/
theorem Sums.ensures_lower (h : Sums d₁ d₂ S (n + 1) s) (ht : Kept (s.put ⟨0⟩ v) t)
    (hv : v.toNat + multiplesBelow d₁.toNat d₂.toNat (n + 1) = S) :
    Ensures ((block [decrement ⟨3⟩]).commands 9) t (Sums d₁ d₂ S n) := by
  have hget : ∀ x : Slot, x.index < 4 → x ≠ ⟨0⟩ → t.get x = s.get x := fun x hx hne => by
    rw [ht.get_eq x hx, get_put_of_ne hne]
  have hnumber : t.get ⟨3⟩ = s.get ⟨3⟩ := hget ⟨3⟩ (by decide) (by decide)
  have hresult : t.get ⟨0⟩ = v := by rw [ht.get_eq ⟨0⟩ (by decide), get_put_self]
  have hless := Cell.toNat_sub_one h.ne_zero
  rw [h.number] at hless
  rw [ensures_block_cons, ensures_decrement (hnumber ▸ h.ne_zero), ensures_block_nil, hnumber]
  exact {
    divisor_1 := by rw [get_put_of_ne (by decide), hget ⟨1⟩ (by decide) (by decide), h.divisor_1]
    divisor_2 := by rw [get_put_of_ne (by decide), hget ⟨2⟩ (by decide) (by decide), h.divisor_2]
    number := by rw [get_put_self]; exact Nat.succ.inj hless
    sum := by rw [get_put_of_ne (by decide), hresult, hv]
    inputs := ht.inputs.trans h.inputs
    written := ht.written.trans h.written }

/-- A round leaves one number less, unless the sum gets too large. -/
theorem Sums.round (hd₁ : d₁ ≠ 0) (hd₂ : d₂ ≠ 0) (h : Sums d₁ d₂ S (n + 1) s) :
    Ensures (sumRound.commands 9) s (Sums d₁ d₂ S n) ∨
      Fails (sumRound.commands 9) s (.cellOverflow 0) ∧ 0x10000000000000000 ≤ S := by
  -- the tests do not fail, so a round fails in the addition only
  have htests := ensures_tests (h.divisor_1 ▸ hd₁) (h.divisor_2 ▸ hd₂)
  have hsum := h.sum_eq
  by_cases hdvd : s.get ⟨3⟩ % s.get ⟨1⟩ = 0 ∨ s.get ⟨3⟩ % s.get ⟨2⟩ = 0
  case neg =>
    rw [if_neg hdvd] at hsum
    refine .inl ?_
    rw [sumRound, ensures_block_cons]
    refine htests.mono fun t ⟨hkept, hflag⟩ => ?_
    rw [ensures_block_cons, ensures_branch_of_eq_zero (not_not.mp (mt hflag.mp hdvd))]
    exact h.ensures_lower (by rwa [put_get]) hsum
  case pos =>
    rw [if_pos hdvd] at hsum
    have hnumber := h.number
    by_cases hfits : (s.get ⟨0⟩).toNat + (s.get ⟨3⟩).toNat < 0x10000000000000000
    case pos =>
      refine .inl ?_
      rw [sumRound, ensures_block_cons]
      refine htests.mono fun t ⟨hkept, hflag⟩ => ?_
      have hresult := hkept.get_eq ⟨0⟩ (by decide)
      have hsummand := hkept.get_eq ⟨3⟩ (by decide)
      rw [ensures_block_cons, ensures_branch_of_ne_zero (hflag.mpr hdvd)]
      have hroom : (t.get ⟨0⟩).toNat + (t.get ⟨3⟩).toNat < 0x10000000000000000 := by
        rwa [hresult, hsummand]
      refine (ensures_add (by decide) (by decide) (by decide) hroom).mono fun u hu => ?_
      rw [hresult, hsummand] at hu
      have hkept' := (hkept.put_put ⟨0⟩ (s.get ⟨0⟩ + s.get ⟨3⟩)).trans (.of_wiped hu)
      exact h.ensures_lower (hkept'.put (by decide) 0) (by rw [Cell.toNat_add_of_lt hfits]; omega)
    case neg =>
      have hbreaks := breaks_fails (.cellOverflow 0)
      refine .inr ⟨?_, by omega⟩
      rw [sumRound]
      refine hbreaks.tail (htests.mono fun t ⟨hkept, hflag⟩ => ?_)
      have hlarge : 0x10000000000000000 ≤ (t.get ⟨0⟩).toNat + (t.get ⟨3⟩).toNat := by
        rw [hkept.get_eq ⟨0⟩ (by decide), hkept.get_eq ⟨3⟩ (by decide)]
        exact Nat.le_of_not_lt hfits
      exact hbreaks.head (fails_branch_of_ne_zero (hflag.mpr hdvd)
        (fails_add (by decide) (by decide) (by decide) hlarge))

theorem Sums.get_eq_zero (h : Sums d₁ d₂ S 0 s) : s.get ⟨3⟩ = 0 := UInt64.toNat_inj.mp h.number

/-- When no number is left, the result is the sum. -/
theorem Sums.result_eq (h : Sums d₁ d₂ S 0 s) : (s.get ⟨0⟩).toNat = S := by
  have hsum := h.sum
  rwa [multiplesBelow_one] at hsum

/-- The rounds come to an end, and then the sum is written. -/
theorem Sums.ensures_rounds (hd₁ : d₁ ≠ 0) (hd₂ : d₂ ≠ 0) (hS : S ≤ 0xFFFFFFFFFFFFFFFF)
    (h : Sums d₁ d₂ S n s) :
    Ensures (rounds.commands 9) s
      fun t => t.outputs.map UInt64.toNat = [S] := by
  have hround : ∀ n s, Sums d₁ d₂ S (n + 1) s →
      s.get ⟨3⟩ ≠ 0 ∧ Ensures (sumRound.commands 9) s (Sums d₁ d₂ S n) := fun n s hs =>
    ⟨hs.ne_zero, (hs.round hd₁ hd₂).resolve_right fun hfails => by omega⟩
  have hwrite : ∀ (t : Store) (Q : Store → Prop),
      Ensures ((ofCommands [.write ⟨0⟩]).commands 9) t Q ↔ Q { t with written := t.get ⟨0⟩ :: t.written } :=
    fun t Q => ensures_of_run fun _ => rfl
  rw [rounds, ensures_block_cons]
  refine (ensures_loop (fun _ => Sums.get_eq_zero) hround h).mono fun t ht => ?_
  rw [ensures_block_cons, hwrite, ensures_block_nil]
  simp [outputs, ht.written, ht.result_eq]

/-- A sum that is too large is not reached. -/
theorem Sums.fails_rounds (hd₁ : d₁ ≠ 0) (hd₂ : d₂ ≠ 0) (hS : 0xFFFFFFFFFFFFFFFF < S)
    (h : Sums d₁ d₂ S n s) :
    Fails (rounds.commands 9) s (.cellOverflow 0) := by
  have hstop : ∀ s, ¬ Sums d₁ d₂ S 0 s := fun s hs => by
    have hlt := (s.get ⟨0⟩).toNat_lt
    have hresult := hs.result_eq
    omega
  have hround : ∀ n s, Sums d₁ d₂ S (n + 1) s → s.get ⟨3⟩ ≠ 0 ∧
      (Ensures (sumRound.commands 9) s (Sums d₁ d₂ S n) ∨
        Fails (sumRound.commands 9) s (.cellOverflow 0)) := fun n s hs =>
    ⟨hs.ne_zero, (hs.round hd₁ hd₂).imp_right And.left⟩
  exact (breaks_fails _).head (fails_loop hstop hround h)

/-! ## The whole program -/

/-- The store once the inputs are read. -/
structure Loaded (d₁ d₂ c : Cell) (s : Store) : Prop where
  result : s.get ⟨0⟩ = 0
  divisor_1 : s.get ⟨1⟩ = d₁
  divisor_2 : s.get ⟨2⟩ = d₂
  ceiling : s.get ⟨3⟩ = c
  inputs : s.inputs = []
  written : s.written = []

/-- How the program ends is how it ends once the inputs are read. -/
theorem commands_of_inherited {P : List Command → Store → Prop} (hP : Inherited P)
    (h : ∀ s, Loaded d₁ d₂ c s → P (main.commands 9) s) :
    P Script.sumOfMultiples.commands { inputs := [d₁, d₂, c] } := by
  have hreads : Ensures [.read ⟨1⟩, .read ⟨2⟩, .read ⟨3⟩] { inputs := [d₁, d₂, c] } (Loaded d₁ d₂ c) :=
    ⟨0, _, rfl, rfl, rfl, rfl, rfl, rfl, rfl⟩
  rw [commands_eq]
  exact hP.append ((ensures_replicate_allocate 9).mpr (hP.append (hreads.mono h)))

/-- The number below the ceiling is the first one at hand, and all of the sum is left. -/
theorem Loaded.sums (h : Loaded d₁ d₂ c s) (hc : c ≠ 0) :
    Sums d₁ d₂ (multiplesBelow d₁.toNat d₂.toNat c.toNat) (c - 1).toNat (s.put ⟨3⟩ (c - 1)) where
  divisor_1 := by rw [get_put_of_ne (by decide), h.divisor_1]
  divisor_2 := by rw [get_put_of_ne (by decide), h.divisor_2]
  number := by rw [get_put_self]
  sum := by
    rw [get_put_of_ne (by decide), h.result, Cell.toNat_sub_one hc]
    exact Nat.zero_add _
  inputs := h.inputs
  written := h.written

/-- How the program ends is how it ends once the ceiling is decremented. -/
theorem main_of_inherited {P : List Command → Store → Prop} (hP : Inherited P) (hc : c ≠ 0)
    (h : ∀ n s, Sums d₁ d₂ (multiplesBelow d₁.toNat d₂.toNat c.toNat) n s →
      P (rounds.commands 9) s) :
    P Script.sumOfMultiples.commands { inputs := [d₁, d₂, c] } := by
  refine commands_of_inherited hP fun s hs => hP.tail ?_
  rw [ensures_decrement (hs.ceiling ▸ hc), hs.ceiling, commands_singleton]
  exact h _ _ (hs.sums hc)

/-- With a ceiling of zero, the decrement before the loop takes from zero. -/
theorem fails_of_ceiling_eq_zero (d₁ d₂ : Cell) :
    Fails Script.sumOfMultiples.commands { inputs := [d₁, d₂, 0] } (.decrementOfZero 3) := by
  have hbreaks := breaks_fails (.decrementOfZero 3)
  refine commands_of_inherited hbreaks.toInherited fun s hs => hbreaks.head (fails_of_run fun _ => ?_)
  rw [run, Store.decrement, hs.ceiling]
  rfl

end SumOfMultiples

open SumOfMultiples in
/-- The program halts with the sum of the multiples below the ceiling if that is the value of a cell, and
otherwise fails because the cell of the result overflows. With a ceiling of zero it fails at once, since
there is no number below. -/
theorem sumOfMultiples_runs (d₁ d₂ c : Cell) : ∃ code,
    Command.compile Script.sumOfMultiples.commands = .ok code ∧
    let run := fun n => State.run (.ofText code.text) none n (.start [d₁, d₂, c])
    let sum := multiplesBelow d₁.toNat d₂.toNat c.toNat
    (d₁ ≠ 0 → d₂ ≠ 0 → c ≠ 0 →
      (sum ≤ 0xFFFFFFFFFFFFFFFF → ∃ n t, run n = .halted t ∧ t.outputs.map UInt64.toNat = [sum]) ∧
      (0xFFFFFFFFFFFFFFFF < sum → ∃ n t, run n = .failed (.fault t.counter (.cellOverflow 0)) t)) ∧
    (c = 0 → ∃ n t, run n = .failed (.fault t.counter (.decrementOfZero 3)) t) := by
  obtain ⟨code, hcode⟩ := exists_code
  refine ⟨code, hcode, ?_⟩
  intro run sum
  obtain ⟨hhalts, hfails, -⟩ := Command.run_compile_iff areInline hcode [d₁, d₂, c]
  have hstops : ∀ fault, Command.Fails Script.sumOfMultiples.commands { inputs := [d₁, d₂, c] } fault →
      ∃ n t, run n = .failed (.fault t.counter fault) t := by
    rintro fault ⟨fuel, s, hs⟩
    obtain ⟨n, t, ht, -⟩ := (hfails fault s.inputs s.written).mp ⟨fuel, s, hs, rfl, rfl⟩
    exact ⟨n, t, ht⟩
  refine ⟨fun hd₁ hd₂ hc => ⟨fun hsum => ?_, fun hsum => ?_⟩, ?_⟩
  · have hends := main_of_inherited (Command.inherited_ensures _) hc
      fun n s hs => hs.ensures_rounds hd₁ hd₂ hsum
    obtain ⟨fuel, s, hs, houtputs⟩ := hends
    obtain ⟨n, t, ht, rfl⟩ := (hhalts s).mp ⟨fuel, hs⟩
    exact ⟨n, t, ht, houtputs⟩
  · exact hstops _ (main_of_inherited (Command.breaks_fails _).toInherited hc
      fun n s hs => hs.fails_rounds hd₁ hd₂ hsum)
  · rintro rfl
    exact hstops _ (fails_of_ceiling_eq_zero d₁ d₂)

/-- Below ten, the multiples of three or five are three, five, six and nine. -/
theorem sumOfMultiples_runs_ten : ∃ code n t,
    Command.compile Script.sumOfMultiples.commands = .ok code ∧
    State.run (.ofText code.text) none n (.start [3, 5, 10]) = .halted t ∧
    t.outputs.map UInt64.toNat = [23] := by
  have hsum : multiplesBelow 3 5 10 = 23 := by decide
  obtain ⟨code, hcode, hruns, -⟩ := sumOfMultiples_runs 3 5 10
  obtain ⟨hhalts, -⟩ := hruns (by decide) (by decide) (by decide)
  obtain ⟨n, t, ht, houtputs⟩ := hhalts (hsum ▸ by decide)
  exact ⟨code, n, t, hcode, ht, hsum ▸ houtputs⟩

end TapeLowering
