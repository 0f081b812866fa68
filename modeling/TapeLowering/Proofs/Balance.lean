import Mathlib.Order.Bounds.Basic
import TapeLowering.Proofs.Brackets

/-!
# Balanced programs

A program is balanced if it ends as many loops as it starts, and no part of it from the beginning
ends more than it starts. Nothing is said about which brackets belong together: that follows by
counting (`exists_closing?`, `exists_opening?`).

Where a scan stops is a matter of counting too: a scan forward stops at the least position with a certain
count (`closingFrom?_eq_some_iff`), and a scan back at the greatest one (`openingFrom?_eq_some_iff`). A
scan that passes a stretch of the program without stopping has seen how many loops start and end there.
-/

namespace TapeLowering.Program

variable {p : Program} {i j depth position bound remaining : Nat}

/-- The symbols of a program, without its comments. -/
def symbols (p : Program) : List Symbol := p.toList.filterMap Symbol.ofByte?

/-- The symbols before a position. -/
def before (p : Program) (position : Nat) : List Symbol :=
  (p.toList.take position).filterMap Symbol.ofByte?

@[simp] theorem before_size (p : Program) : p.before p.size = p.symbols := by
  rw [before, ← Array.length_toList, List.take_length, symbols]

theorem before_succ (p : Program) (position : Nat) :
    p.before (position + 1) = p.before position ++ (p.symbolAt? position).toList := by
  rw [before, List.take_add_one, List.filterMap_append, before, symbolAt?, Array.getElem?_toList]
  cases p[position]? with
  | none => rfl
  | some byte => cases h : Symbol.ofByte? byte <;> simp [h]

/-- How many loops start before a position. -/
def started (p : Program) (position : Nat) : Nat := (p.before position).count .loopStart

/-- How many loops end before a position. -/
def ended (p : Program) (position : Nat) : Nat := (p.before position).count .loopEnd

private theorem started_succ (p : Program) (position : Nat) :
    p.started (position + 1)
      = p.started position + (p.symbolAt? position).toList.count .loopStart := by
  rw [started, before_succ, List.count_append, started]

private theorem ended_succ (p : Program) (position : Nat) :
    p.ended (position + 1) = p.ended position + (p.symbolAt? position).toList.count .loopEnd := by
  rw [ended, before_succ, List.count_append, ended]

/-- Passing an opening bracket counts one more loop that starts. -/
theorem counts_of_loopStart (h : p.symbolAt? position = some .loopStart) :
    p.started (position + 1) = p.started position + 1 ∧
      p.ended (position + 1) = p.ended position := by
  rw [started_succ, ended_succ, h]
  exact ⟨rfl, rfl⟩

/-- Passing a closing bracket counts one more loop that ends. -/
theorem counts_of_loopEnd (h : p.symbolAt? position = some .loopEnd) :
    p.started (position + 1) = p.started position ∧
      p.ended (position + 1) = p.ended position + 1 := by
  rw [started_succ, ended_succ, h]
  exact ⟨rfl, rfl⟩

/-- Passing anything else counts nothing. -/
theorem counts_of_pass (hstart : p.symbolAt? position ≠ some .loopStart)
    (hend : p.symbolAt? position ≠ some .loopEnd) :
    p.started (position + 1) = p.started position ∧
      p.ended (position + 1) = p.ended position := by
  have hcount : ∀ {x : Symbol}, p.symbolAt? position ≠ some x →
      (p.symbolAt? position).toList.count x = 0 :=
    fun hx => List.count_eq_zero.mpr (mt Option.mem_toList.mp hx)
  rw [started_succ, ended_succ, hcount hstart, hcount hend]
  exact ⟨rfl, rfl⟩

/-- As many loops end as start, and before no position do more end than start. -/
structure Balanced (p : Program) : Prop where
  ended_le : ∀ position ≤ p.size, p.ended position ≤ p.started position
  ended_size : p.ended p.size = p.started p.size

instance (p : Program) : Decidable p.Balanced :=
  decidable_of_iff ((∀ position ≤ p.size, p.ended position ≤ p.started position) ∧
    p.ended p.size = p.started p.size) ⟨fun h => ⟨h.1, h.2⟩, fun h => ⟨h.1, h.2⟩⟩

/-! ## Where scans stop -/

/-- The positions from `position` on at which one loop more has ended than is open, if `depth` loops are
open at first. -/
def closers (p : Program) (depth position : Nat) : Set Nat :=
  {k | position ≤ k ∧
    p.started (k + 1) + p.ended position + depth + 1 = p.started position + p.ended (k + 1)}

/-- The positions below `bound` at which one loop more has started than is open, seen from behind, if
`depth` loops are open at first. -/
def openers (p : Program) (depth bound : Nat) : Set Nat :=
  {k | k < bound ∧ p.started bound + p.ended k = p.started k + p.ended bound + depth + 1}

/-- A position where the scan does not stop can be left out. -/
private theorem closers_succ {depth' : Nat}
    (hne : p.started (position + 1) + p.ended position + depth + 1
      ≠ p.started position + p.ended (position + 1))
    (hcount : p.started (position + 1) + p.ended position + depth
      = p.started position + p.ended (position + 1) + depth') :
    p.closers depth position = p.closers depth' (position + 1) := by
  ext k
  simp only [closers, Set.mem_ofPred_eq]
  constructor
  · rintro ⟨hk, heq⟩
    have hk' : k ≠ position := by
      rintro rfl
      exact hne heq
    omega
  · rintro ⟨hk, heq⟩
    omega

/-- A position that does not have the count itself has no part in the set. The count that the others
need changes by what the position counts. -/
private theorem openers_succ {depth' : Nat}
    (hne : p.started (position + 1) + p.ended position
      ≠ p.started position + p.ended (position + 1) + depth + 1)
    (hcount : p.started (position + 1) + p.ended position + depth'
      = p.started position + p.ended (position + 1) + depth) :
    p.openers depth (position + 1) = p.openers depth' position := by
  ext k
  simp only [openers, Set.mem_ofPred_eq]
  constructor
  · rintro ⟨hk, heq⟩
    have hk' : k ≠ position := by
      rintro rfl
      exact hne heq
    omega
  · rintro ⟨hk, heq⟩
    omega

/-- A scan forward stops at the first position where one loop more has ended than is open. -/
theorem closingFrom?_eq_some_iff : p.closingFrom? remaining depth position = some j ↔
    j < position + remaining ∧ IsLeast (p.closers depth position) j := by
  induction remaining generalizing depth position with
  | zero =>
    simp only [closingFrom?, reduceCtorEq, false_iff, Nat.add_zero]
    rintro ⟨hlt, hleast⟩
    exact Nat.not_lt.mpr hleast.1.1 hlt
  | succ remaining ih =>
    rw [show position + (remaining + 1) = position + 1 + remaining by omega]
    by_cases hstart : p.symbolAt? position = some .loopStart
    · have hcounts := counts_of_loopStart hstart
      have hset : p.closers depth position = p.closers (depth + 1) (position + 1) :=
        closers_succ (by omega) (by omega)
      rw [closingFrom?_loopStart hstart, ih, hset]
    by_cases hend : p.symbolAt? position = some .loopEnd
    · have hcounts := counts_of_loopEnd hend
      cases depth with
      | zero =>
        -- the position has the count itself, and there is none before it
        have hmem : position ∈ p.closers 0 position := ⟨Nat.le_refl _, by omega⟩
        have hleast : IsLeast (p.closers 0 position) position := ⟨hmem, fun k hk => hk.1⟩
        rw [closingFrom?_loopEnd_zero hend, Option.some.injEq]
        exact ⟨fun h => h ▸ ⟨by omega, hleast⟩, fun h => hleast.unique h.2⟩
      | succ depth =>
        have hset : p.closers (depth + 1) position = p.closers depth (position + 1) :=
          closers_succ (by omega) (by omega)
        rw [closingFrom?_loopEnd hend, ih, hset]
    · have hcounts := counts_of_pass hstart hend
      have hset : p.closers depth position = p.closers depth (position + 1) :=
        closers_succ (by omega) (by omega)
      rw [closingFrom?_pass hstart hend, ih, hset]

/-- A scan back stops at the last position where one loop more has started than is open. -/
theorem openingFrom?_eq_some_iff :
    p.openingFrom? bound depth = some i ↔ IsGreatest (p.openers depth bound) i := by
  induction bound generalizing depth with
  | zero =>
    simp only [openingFrom?, reduceCtorEq, false_iff]
    exact fun hgreatest => Nat.not_lt_zero i hgreatest.1.1
  | succ position ih =>
    by_cases hend : p.symbolAt? position = some .loopEnd
    · have hcounts := counts_of_loopEnd hend
      have hset : p.openers depth (position + 1) = p.openers (depth + 1) position :=
        openers_succ (by omega) (by omega)
      rw [openingFrom?_loopEnd hend, ih, hset]
    by_cases hstart : p.symbolAt? position = some .loopStart
    · have hcounts := counts_of_loopStart hstart
      cases depth with
      | zero =>
        have hmem : position ∈ p.openers 0 (position + 1) := ⟨Nat.lt_succ_self _, by omega⟩
        have hgreatest : IsGreatest (p.openers 0 (position + 1)) position :=
          ⟨hmem, fun k hk => Nat.le_of_lt_succ hk.1⟩
        rw [openingFrom?_loopStart_zero hstart, Option.some.injEq]
        exact ⟨fun h => h ▸ hgreatest, fun h => hgreatest.unique h⟩
      | succ depth =>
        have hset : p.openers (depth + 1) (position + 1) = p.openers depth position :=
          openers_succ (by omega) (by omega)
        rw [openingFrom?_loopStart hstart, ih, hset]
    · have hcounts := counts_of_pass hstart hend
      have hset : p.openers depth (position + 1) = p.openers depth position :=
        openers_succ (by omega) (by omega)
      rw [openingFrom?_pass hstart hend, ih, hset]

/-! ## What a scan has counted -/

/-- A scan forward that does not stop ends no more loops than it had open and has started. -/
theorem ended_le_of_closingFrom?
    (h : p.closingFrom? remaining depth position = none) :
    p.ended (position + remaining) + p.started position
      ≤ p.started (position + remaining) + p.ended position + depth := by
  induction remaining generalizing depth position with
  | zero =>
    rw [Nat.add_zero]
    omega
  | succ remaining ih =>
    rw [show position + (remaining + 1) = position + 1 + remaining by omega]
    -- every step counts what the scan counts, so the inequality is passed on
    by_cases hstart : p.symbolAt? position = some .loopStart
    · rw [closingFrom?_loopStart hstart] at h
      have hrest := ih h
      have hcounts := counts_of_loopStart hstart
      omega
    by_cases hend : p.symbolAt? position = some .loopEnd
    · cases depth with
      | zero =>
        rw [closingFrom?_loopEnd_zero hend] at h
        cases h
      | succ depth =>
        rw [closingFrom?_loopEnd hend] at h
        have hrest := ih h
        have hcounts := counts_of_loopEnd hend
        omega
    · rw [closingFrom?_pass hstart hend] at h
      have hrest := ih h
      have hcounts := counts_of_pass hstart hend
      omega

/-- A scan back that does not stop starts no more loops than it had open and has ended. -/
theorem started_le_of_openingFrom? (h : p.openingFrom? bound depth = none) :
    p.started bound ≤ p.ended bound + depth := by
  induction bound generalizing depth with
  | zero => exact Nat.zero_le _
  | succ position ih =>
    by_cases hend : p.symbolAt? position = some .loopEnd
    · rw [openingFrom?_loopEnd hend] at h
      have hrest := ih h
      have hcounts := counts_of_loopEnd hend
      omega
    by_cases hstart : p.symbolAt? position = some .loopStart
    · cases depth with
      | zero =>
        rw [openingFrom?_loopStart_zero hstart] at h
        cases h
      | succ depth =>
        rw [openingFrom?_loopStart hstart] at h
        have hrest := ih h
        have hcounts := counts_of_loopStart hstart
        omega
    · rw [openingFrom?_pass hstart hend] at h
      have hrest := ih h
      have hcounts := counts_of_pass hstart hend
      omega

/-! ## Scans in a balanced program -/

/-- Every loop that a balanced program starts has an end. -/
theorem Balanced.exists_closing? (hp : p.Balanced) {start : Nat}
    (h : p.symbolAt? start = some .loopStart) : ∃ finish, p.closing? start = some finish := by
  refine Option.ne_none_iff_exists'.mp fun hnone => ?_
  have hlt := lt_size_of_symbolAt? h
  have hscan := ended_le_of_closingFrom? hnone
  rw [show start + 1 + (p.size - (start + 1)) = p.size by omega] at hscan
  have hcounts := counts_of_loopStart h
  have hle := hp.ended_le start (Nat.le_of_lt hlt)
  have hsize := hp.ended_size
  omega

/-- Every loop that a balanced program ends has a start. -/
theorem Balanced.exists_opening? (hp : p.Balanced) {finish : Nat}
    (h : p.symbolAt? finish = some .loopEnd) : ∃ start, p.opening? finish = some start := by
  refine Option.ne_none_iff_exists'.mp fun hnone => ?_
  have hscan := started_le_of_openingFrom? hnone
  have hcounts := counts_of_loopEnd h
  have hle := hp.ended_le (finish + 1) (lt_size_of_symbolAt? h)
  omega

/-- A scan back over all of a balanced program finds no start, however many loops are open. -/
theorem Balanced.openingFrom?_size (hp : p.Balanced) (depth : Nat) :
    p.openingFrom? p.size depth = none := by
  refine Option.eq_none_iff_forall_ne_some.mpr fun j hj => ?_
  obtain ⟨⟨hlt, hcount⟩, -⟩ := openingFrom?_eq_some_iff.mp hj
  have hle := hp.ended_le j (Nat.le_of_lt hlt)
  have hsize := hp.ended_size
  omega

end TapeLowering.Program
