import Mathlib.Data.List.ProdSigma
import Mathlib.Logic.Function.Iterate
import TapeLowering.Proofs.Matching
import TapeLowering.Proofs.WholeRun

/-!
# Jumps between brackets

A bracket that jumps goes to its partner, and the machine looks for it when it jumps. Two other ways to
find the partner come to the same. `Program.Search` is a loop that serves both directions, with a count
that must not go below zero; it ends, and does not go below zero (`Search.exists_forward`,
`Search.exists_back`). `Program.jumpTable` is computed once, in one pass over the program, before any of
it runs (`mem_jumpTable_iff`).

`scans_match` puts together what is true of the partners of any program, and of the machine that jumps to
them.
-/

namespace TapeLowering

namespace Program

variable {p : Program} {i j n position depth bound remaining : Nat}

/-! ## A search that counts -/

/-- A search for the partner of a bracket. -/
inductive Search where
  /-- Looks at a position next, and has met so many more brackets of its own kind than of the other. -/
  | looking (position count : Nat)
  /-- Has come to the partner. -/
  | found (position : Nat)
  /-- Has left the program. -/
  | unmatched
  /-- Has met a bracket of the other kind while the count was zero. -/
  | underflow
  deriving DecidableEq

namespace Search

/-- Moves on from a position. -/
def next (forward : Bool) (position count : Nat) : Search :=
  if forward then looking (position + 1) count
  else match position with
    | 0 => unmatched
    | position + 1 => looking position count

/-- Takes a bracket of the other kind off the count; the one that brings it down to zero is the partner. -/
def countDown (forward : Bool) (position : Nat) : (count : Nat) → Search
  | 0 => underflow
  | 1 => found position
  | count + 2 => next forward position (count + 1)

/-- Looks at one position; a search that has ended stays as it is. -/
def step (p : Program) (forward : Bool) : Search → Search
  | looking position count =>
    if position < p.size then
      match p.symbolAt? position with
      | some .loopStart =>
        if forward then next forward position (count + 1) else countDown forward position count
      | some .loopEnd =>
        if forward then countDown forward position count else next forward position (count + 1)
      | _ => next forward position count
    else unmatched
  | found position => found position
  | unmatched => unmatched
  | underflow => underflow

/-- A search that has ended with a partner, or without one. -/
def ended : Option Nat → Search
  | some position => found position
  | none => unmatched

/-- A search that has ended stays as it is. -/
theorem iterate_ended (p : Program) (forward : Bool) (target : Option Nat) (n : Nat) :
    (step p forward)^[n] (ended target) = ended target :=
  Function.iterate_fixed (by cases target <;> rfl) n

theorem step_forward_loopStart (h : p.symbolAt? position = some .loopStart) (count : Nat) :
    step p true (looking position count) = looking (position + 1) (count + 1) := by
  simp [step, next, h, lt_size_of_symbolAt? h]

theorem step_forward_loopEnd (h : p.symbolAt? position = some .loopEnd) (count : Nat) :
    step p true (looking position count) = countDown true position count := by
  simp [step, h, lt_size_of_symbolAt? h]

theorem step_back_loopEnd (h : p.symbolAt? position = some .loopEnd) (count : Nat) :
    step p false (looking position count) = next false position (count + 1) := by
  simp [step, h, lt_size_of_symbolAt? h]

theorem step_back_loopStart (h : p.symbolAt? position = some .loopStart) (count : Nat) :
    step p false (looking position count) = countDown false position count := by
  simp [step, h, lt_size_of_symbolAt? h]

/-- A search passes whatever is no bracket. -/
theorem step_pass (hlt : position < p.size) (hstart : p.symbolAt? position ≠ some .loopStart)
    (hend : p.symbolAt? position ≠ some .loopEnd) (forward : Bool) (count : Nat) :
    step p forward (looking position count) = next forward position count := by
  simp only [step, if_pos hlt]

/-- The search goes where the scan forward goes, and counts one bracket more: the one it started at. -/
private theorem iterate_forward (hsize : position + remaining = p.size) :
    (step p true)^[remaining + 1] (looking position (depth + 1))
      = ended (p.closingFrom? remaining depth position) := by
  -- by induction on what remains, for any number of open loops: the step is the one of the scan
  induction remaining generalizing depth position with
  | zero =>
    have hout : ¬ position < p.size := by omega
    simp [step, hout, closingFrom?, ended]
  | succ remaining ih =>
    rw [Function.iterate_succ_apply]
    by_cases hstart : p.symbolAt? position = some .loopStart
    · rw [step_forward_loopStart hstart, closingFrom?_loopStart hstart, ih (by omega)]
    by_cases hend : p.symbolAt? position = some .loopEnd
    · rw [step_forward_loopEnd hend]
      cases depth with
      | zero =>
        rw [closingFrom?_loopEnd_zero hend]
        exact iterate_ended p true (some position) _
      | succ depth =>
        rw [closingFrom?_loopEnd hend]
        exact ih (by omega)
    · rw [step_pass (by omega) hstart hend, closingFrom?_pass hstart hend]
      exact ih (by omega)

/-- The search back makes a step for every position before the bound, and comes to what the scan back
finds. Its count is one more than the loops that are open for the scan. -/
private theorem iterate_back (hbound : bound ≤ p.size) :
    (step p false)^[bound] (next false bound (depth + 1)) = ended (p.openingFrom? bound depth) := by
  -- by induction on the bound, for any number of open loops: the step is the one of the scan
  induction bound generalizing depth with
  | zero => rfl
  | succ position ih =>
    rw [Function.iterate_succ_apply]
    change (step p false)^[position] (step p false (looking position (depth + 1))) = _
    by_cases hend : p.symbolAt? position = some .loopEnd
    · rw [step_back_loopEnd hend, openingFrom?_loopEnd hend, ih (by omega)]
    by_cases hstart : p.symbolAt? position = some .loopStart
    · rw [step_back_loopStart hstart]
      cases depth with
      | zero =>
        rw [openingFrom?_loopStart_zero hstart]
        exact iterate_ended p false (some position) _
      | succ depth =>
        rw [openingFrom?_loopStart hstart]
        exact ih (by omega)
    · rw [step_pass (by omega) hstart hend, openingFrom?_pass hstart hend, ih (by omega)]

/-- The search from the start of a loop ends, and with the outcome of the scan forward. -/
theorem exists_forward (hi : p.symbolAt? i = some .loopStart) :
    ∃ n, (step p true)^[n] (looking i 0) = ended (p.closing? i) := by
  have hlt := lt_size_of_symbolAt? hi
  refine ⟨p.size - (i + 1) + 2, ?_⟩
  rw [Function.iterate_succ_apply, step_forward_loopStart hi, closing?]
  exact iterate_forward (by omega)

/-- The search from the end of a loop ends, and with the outcome of the scan back. -/
theorem exists_back (hj : p.symbolAt? j = some .loopEnd) :
    ∃ n, (step p false)^[n] (looking j 0) = ended (p.opening? j) := by
  refine ⟨j + 1, ?_⟩
  rw [Function.iterate_succ_apply, step_back_loopEnd hj, opening?]
  exact iterate_back (Nat.le_of_lt (lt_size_of_symbolAt? hj))

end Search

/-! ## A table of all jumps -/

/-- What is known before a position, going through the program once: the starts of the loops that are
still open, the latest first, and the starts and ends of all other loops. -/
def sweep (p : Program) : (position : Nat) → List Nat × List (Nat × Nat)
  | 0 => ([], [])
  | position + 1 =>
    let (starts, loops) := p.sweep position
    match p.symbolAt? position with
    | some .loopStart => (position :: starts, loops)
    | some .loopEnd => (starts.tail, (starts.head?.map (·, position)).toList ++ loops)
    | _ => (starts, loops)

/-- The start and the end of every loop. -/
def jumpTable (p : Program) : List (Nat × Nat) := (p.sweep p.size).2

/-- The start of a loop is put on the stack. -/
theorem sweep_loopStart (h : p.symbolAt? position = some .loopStart) : p.sweep (position + 1)
    = (position :: (p.sweep position).1, (p.sweep position).2) := by
  simp only [sweep, h]

/-- The end of a loop takes the latest start off the stack, and the two make up a jump. -/
theorem sweep_loopEnd (h : p.symbolAt? position = some .loopEnd) : p.sweep (position + 1)
    = ((p.sweep position).1.tail,
      ((p.sweep position).1.head?.map (·, position)).toList ++ (p.sweep position).2) := by
  simp only [sweep, h]

theorem sweep_pass (hstart : p.symbolAt? position ≠ some .loopStart)
    (hend : p.symbolAt? position ≠ some .loopEnd) : p.sweep (position + 1) = p.sweep position := by
  simp only [sweep]

/-- A scan back that has loops open stops at the start below them. -/
theorem openingFrom?_eq_sweep (p : Program) (bound depth : Nat) :
    p.openingFrom? bound depth = (p.sweep bound).1[depth]? := by
  induction bound generalizing depth with
  | zero => rfl
  | succ position ih =>
    by_cases hend : p.symbolAt? position = some .loopEnd
    · rw [openingFrom?_loopEnd hend, sweep_loopEnd hend, ih, List.getElem?_tail]
    by_cases hstart : p.symbolAt? position = some .loopStart
    · cases depth with
      | zero => rw [openingFrom?_loopStart_zero hstart, sweep_loopStart hstart, List.getElem?_cons_zero]
      | succ depth =>
        rw [openingFrom?_loopStart hstart, sweep_loopStart hstart, List.getElem?_cons_succ, ih]
    · rw [openingFrom?_pass hstart hend, sweep_pass hstart hend, ih]

/-- The loops that are known before a position are those that end before it. -/
theorem mem_sweep_iff : (i, j) ∈ (p.sweep bound).2 ↔
    j < bound ∧ p.symbolAt? j = some .loopEnd ∧ p.opening? j = some i := by
  induction bound with
  | zero => simp [sweep]
  | succ position ih =>
    by_cases hend : p.symbolAt? position = some .loopEnd
    · have hnew : (i, j) ∈ ((p.sweep position).1.head?.map (·, position)).toList ↔
          j = position ∧ p.opening? position = some i := by
        rw [opening?, openingFrom?_eq_sweep, ← List.head?_eq_getElem?, Option.mem_toList,
          Option.map_eq_some_iff]
        simp [eq_comm, and_comm]
      rw [sweep_loopEnd hend, List.mem_append, hnew, ih, Nat.lt_succ_iff_lt_or_eq]
      grind
    · have hsame : (p.sweep (position + 1)).2 = (p.sweep position).2 := by
        by_cases hstart : p.symbolAt? position = some .loopStart
        · rw [sweep_loopStart hstart]
        · rw [sweep_pass hstart hend]
      rw [hsame, ih, Nat.lt_succ_iff_lt_or_eq]
      grind

/-- The table has the matching of the program. -/
theorem mem_jumpTable_iff : (i, j) ∈ p.jumpTable ↔ p.Encloses i j := by
  rw [jumpTable, mem_sweep_iff]
  constructor
  · rintro ⟨-, hj, hopening⟩
    exact (opening?_eq_some_iff hj).mp hopening
  · intro h
    exact ⟨lt_size_of_symbolAt? h.symbolAt?, h.symbolAt?, (opening?_eq_some_iff h.symbolAt?).mpr h⟩

/-- A table without two values for a key is looked up by its entries. -/
private theorem lookup_eq {table : List (Nat × Nat)} {key : Nat} {target : Option Nat}
    (h : ∀ value, (key, value) ∈ table ↔ target = some value) : table.lookup key = target := by
  have hmem : ∀ value, table.lookup key = some value → target = some value := by
    intro value hvalue
    obtain ⟨_, _, rfl, -⟩ := List.lookup_eq_some_iff.mp hvalue
    exact (h value).mp (by simp)
  cases htable : table.lookup key with
  | some value => exact (hmem value htable).symm
  | none =>
    refine (Option.eq_none_iff_forall_ne_some.mpr fun value hvalue => ?_).symm
    have hne := List.lookup_eq_none_iff.mp htable _ ((h value).mpr hvalue)
    simp at hne

theorem lookup_jumpTable (hi : p.symbolAt? i = some .loopStart) :
    p.jumpTable.lookup i = p.closing? i :=
  lookup_eq fun _ => mem_jumpTable_iff.trans (closing?_eq_some_iff hi).symm

/-- The table tells the start of a loop by its end, too. -/
theorem lookup_swap_jumpTable (hj : p.symbolAt? j = some .loopEnd) :
    (p.jumpTable.map Prod.swap).lookup j = p.opening? j := by
  refine lookup_eq fun i => ?_
  rw [opening?_eq_some_iff hj, ← mem_jumpTable_iff]
  exact List.mem_map_swap i j p.jumpTable

end Program

/-! ## The machine at a bracket -/

namespace State

variable {p : Program} {s t : State} {target : Option Nat}

/-- The machine goes on behind the partner of a bracket; if there is none it stops, and is still in the
state it was in. -/
structure JumpsTo (p : Program) (s : State) (target : Option Nat) : Prop where
  step_eq_ok_iff (t : State) : s.step p = .ok t ↔
    ∃ j, target = some j ∧ t = { s with counter := j + 1, steps := s.steps + 1 }
  step_eq_error_iff : s.step p = .error (.fault s.counter .unmatchedBracket) ↔ target = none
  run_eq_failed : target = none → ∀ limit n, s.exceeded? limit = none →
    s.run p limit (n + 1) = .failed (.fault s.counter .unmatchedBracket) s

/-- A machine at a symbol that it obeys with a jump does what the jump does, and stays where it is if
there is none. -/
theorem jumpsTo_of_obey {x : Symbol} (h : p.symbolAt? s.counter = some x)
    (hobey : s.obey p (some x) = s.jump target) : s.JumpsTo p target := by
  have hlt := Program.lt_size_of_symbolAt? h
  cases target with
  | some j =>
    have hstep : s.step p = .ok { s with counter := j + 1, steps := s.steps + 1 } :=
      step_of_obey_ok h hobey
    refine ⟨fun t => ?_, by simp [hstep], nofun⟩
    rw [hstep, Except.ok.injEq]
    simp [eq_comm]
  | none =>
    have hstep := step_of_obey_error h hobey
    refine ⟨fun t => by simp [hstep], by simp [hstep], fun _ limit n hlimit => ?_⟩
    unfold run
    simp [isHalted, Nat.ne_of_lt hlt, hlimit, hstep]

/-- On a zero cell, the start of a loop jumps to its end. -/
theorem jumpsTo_closing? (h : p.symbolAt? s.counter = some .loopStart) (hz : s.isZero = true) :
    s.JumpsTo p (p.closing? s.counter) :=
  jumpsTo_of_obey h (by rw [obey, if_pos hz])

/-- On a cell that is not zero, the end of a loop jumps back to its start. -/
theorem jumpsTo_opening? (h : p.symbolAt? s.counter = some .loopEnd) (hz : s.isZero = false) :
    s.JumpsTo p (p.opening? s.counter) :=
  jumpsTo_of_obey h (by rw [obey, hz]; rfl)

/-- A step fails for want of a partner only where there is none. -/
theorem exists_unmatched_of_step {position : Nat}
    (h : s.step p = .error (.fault position .unmatchedBracket)) :
    p.symbolAt? s.counter = some .loopStart ∧ p.closing? s.counter = none ∨
      p.symbolAt? s.counter = some .loopEnd ∧ p.opening? s.counter = none := by
  obtain ⟨fault, hobey, hfault⟩ := (State.step_eq_error_iff (counter_lt_of_error h)).mp h
  obtain ⟨-, rfl⟩ := ExecutionError.fault.inj hfault
  obtain ⟨a, -, ha⟩ | ⟨hx, hnone, -⟩ | ⟨hx, hnone, -⟩ := obey_eq_error hobey
  · exact absurd rfl (Workspace.ne_unmatchedBracket_of_perform ha)
  · exact .inl ⟨hx, hnone⟩
  · exact .inr ⟨hx, hnone⟩

/-- In a balanced program every bracket has a partner. -/
theorem step_ne_unmatched (hp : p.Balanced) (s : State) (position : Nat) :
    s.step p ≠ .error (.fault position .unmatchedBracket) := by
  intro h
  rcases exists_unmatched_of_step h with ⟨hx, hnone⟩ | ⟨hx, hnone⟩
  · obtain ⟨finish, hfinish⟩ := hp.exists_closing? hx
    rw [hnone] at hfinish
    cases hfinish
  · obtain ⟨start, hstart⟩ := hp.exists_opening? hx
    rw [hnone] at hstart
    cases hstart

/-- An error that no step ends with, and that is not one of the limit, does not end a run. -/
theorem error?_run_ne {position : Nat} {fault : Fault}
    (h : ∀ s : State, s.step p ≠ .error (.fault position fault)) (limit : Option Nat) (n : Nat)
    (s : State) : (s.run p limit n).error? ≠ some (.fault position fault) := by
  cases hr : s.run p limit n with
  | halted | running => nofun
  | failed e t =>
    intro herror
    cases herror
    obtain ⟨_, -, hstep⟩ := exists_running_of_fault hr
    exact h t hstep

end State

/-! ## The matching of a program -/

namespace Program

/-- Scans find the matching of the brackets of any program, from both sides. The scan from the start of a
loop stops at the least position behind it up to which as many loops start as end, and what is between
is balanced; the scan from the end of a loop is its inverse. Both end and neither counts below zero, both
agree with the table of jumps, and the machine goes where they lead, or stops unchanged if they lead
nowhere. In a balanced program they always lead somewhere. -/
theorem scans_match (p : Program) :
    (∀ i, p.symbolAt? i = some .loopStart →
      (∀ j, p.closing? i = some j ↔ IsLeast {k | i < k ∧ k < p.size ∧ p.IsLevel i k} j) ∧
      (∀ j, p.closing? i = some j → (p.slice (i + 1) j).Balanced) ∧
      (∃ n, (Search.step p true)^[n] (.looking i 0) = .ended (p.closing? i)) ∧
      p.jumpTable.lookup i = p.closing? i ∧
      ∀ s : State, s.counter = i → s.isZero = true → s.JumpsTo p (p.closing? i)) ∧
    (∀ j, p.symbolAt? j = some .loopEnd →
      (∀ i, p.opening? j = some i ↔ p.symbolAt? i = some .loopStart ∧ p.closing? i = some j) ∧
      (∃ n, (Search.step p false)^[n] (.looking j 0) = .ended (p.opening? j)) ∧
      (p.jumpTable.map Prod.swap).lookup j = p.opening? j ∧
      ∀ s : State, s.counter = j → s.isZero = false → s.JumpsTo p (p.opening? j)) ∧
    (p.Balanced → ∀ (s : State) (limit : Option Nat) (n position : Nat),
      (s.run p limit n).error? ≠ some (.fault position .unmatchedBracket)) := by
  refine ⟨fun i hi => ⟨fun j => ?_, fun j hj => ?_, Search.exists_forward hi, lookup_jumpTable hi, ?_⟩,
    fun j hj => ⟨fun i => ?_, Search.exists_back hj, lookup_swap_jumpTable hj, ?_⟩, ?_⟩
  · rw [closing?_eq_some_iff hi, Encloses, and_iff_right hi]
  · exact ((closing?_eq_some_iff hi).mp hj).balanced
  · rintro s rfl hz
    exact State.jumpsTo_closing? hi hz
  · rw [opening?_eq_some_iff hj]
    constructor
    · exact fun h => ⟨h.1, (closing?_eq_some_iff h.1).mpr h⟩
    · rintro ⟨hi, h⟩
      exact (closing?_eq_some_iff hi).mp h
  · rintro s rfl hz
    exact State.jumpsTo_opening? hj hz
  · exact fun hp s limit n position =>
      State.error?_run_ne (fun t => State.step_ne_unmatched hp t position) limit n s

/-- A program that ends a loop it has not started, and starts one it does not end. -/
theorem scans_match_unbalanced :
    let p := ofText "]+[[-]"
    IsLeast {k | 3 < k ∧ k < p.size ∧ p.IsLevel 3 k} 5 ∧ p.opening? 5 = some 3 ∧
      ({ counter := 2 } : State).step p = .error (.fault 2 .unmatchedBracket) ∧
      ({ tape := ⟨[], 1, []⟩ } : State).step p = .error (.fault 0 .unmatchedBracket) := by
  intro p
  obtain ⟨hstart, hend, -⟩ := scans_match p
  have hclosing : p.closing? 3 = some 5 := by decide +kernel
  obtain ⟨hinner, -⟩ := hstart 3 (by decide +kernel)
  obtain ⟨-, -, -, -, houter⟩ := hstart 2 (by decide +kernel)
  obtain ⟨hback, -⟩ := hend 5 (by decide +kernel)
  obtain ⟨-, -, -, hfirst⟩ := hend 0 (by decide +kernel)
  exact ⟨(hinner 5).mp hclosing, (hback 3).mpr ⟨by decide +kernel, hclosing⟩,
    (houter { counter := 2 } rfl rfl).step_eq_error_iff.mpr (by decide +kernel),
    (hfirst { tape := ⟨[], 1, []⟩ } rfl rfl).step_eq_error_iff.mpr (by decide +kernel)⟩

end Program

end TapeLowering
