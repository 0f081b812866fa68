import TapeLowering.Proofs.Balance

/-!
# The matching of brackets

Which brackets belong together can be said by counting: a loop ends at the first position behind its
start up to which as many loops have ended as have started (`Program.Encloses`). No scan is needed to say
so, and nothing is assumed of the rest of the program, which need not be balanced.

Scans stop where counts say so, hence both find the same matching, each from its own side
(`closing?_eq_some_iff`, `opening?_eq_some_iff`), and what a loop encloses is balanced
(`Encloses.balanced`).
-/

namespace TapeLowering.Program

variable {p : Program} {i j k : Nat}

/-! ## Counts of a part of a program -/

/-- The symbols before a position are counted by their bytes. -/
private theorem count_before (p : Program) (k : Nat) (x : Symbol) :
    (p.before k).count x = (p.toList.take k).count x.toByte := by
  rw [before, List.count_filterMap, List.count_eq_countP]
  congr 1
  funext byte
  rw [Bool.eq_iff_iff, beq_iff_eq, beq_iff_eq, Symbol.ofByte?_eq_some_iff]

/-- The part of a program from one position up to another one, which is not included. -/
def slice (p : Program) (start finish : Nat) : Program := p.extract start finish

theorem toList_slice (p : Program) (start finish : Nat) :
    (p.slice start finish).toList = (p.toList.drop start).take (finish - start) := by
  rw [slice, Array.toList_extract, List.extract_eq_take_drop]

/-- What is in a part of a program is what is before its end and not before its start. -/
theorem count_slice (p : Program) (x : Symbol) (h : i ≤ k) :
    (p.before i).count x + (p.slice i k).count x.toByte = (p.before k).count x := by
  obtain ⟨n, rfl⟩ := Nat.exists_eq_add_of_le h
  rw [count_before, count_before, ← Array.count_toList, toList_slice, Nat.add_sub_cancel_left,
    ← List.count_append, ← List.take_add]

/-- From one position to another, both included, as many loops start as end. -/
def IsLevel (p : Program) (i j : Nat) : Prop :=
  (p.slice i (j + 1)).count Symbol.loopStart.toByte = (p.slice i (j + 1)).count Symbol.loopEnd.toByte

/-- A part of the program is level if the counts at its two ends differ by the same. -/
theorem isLevel_iff (h : i ≤ j) :
    p.IsLevel i j ↔ p.started (j + 1) + p.ended i = p.started i + p.ended (j + 1) := by
  have hle : i ≤ j + 1 := Nat.le_succ_of_le h
  have hstarted := p.count_slice .loopStart hle
  have hended := p.count_slice .loopEnd hle
  rw [IsLevel, started, started, ended, ended]
  omega

/-- The loop that starts at the first position ends at the second. -/
def Encloses (p : Program) (i j : Nat) : Prop :=
  p.symbolAt? i = some .loopStart ∧ IsLeast {k | i < k ∧ k < p.size ∧ p.IsLevel i k} j

/-! ## Both scans find the matching -/

/-- The scan from the start of a loop stops at its end. -/
theorem closing?_eq_some_iff (hi : p.symbolAt? i = some .loopStart) :
    p.closing? i = some j ↔ p.Encloses i j := by
  have hlt := lt_size_of_symbolAt? hi
  have hcounts := counts_of_loopStart hi
  have hmem : ∀ k, k < p.size →
      (k ∈ p.closers 0 (i + 1) ↔ i < k ∧ k < p.size ∧ p.IsLevel i k) := by
    intro k hk
    constructor
    · rintro ⟨hik, heq⟩
      exact ⟨hik, hk, (isLevel_iff (Nat.le_of_lt hik)).mpr (by omega)⟩
    · rintro ⟨hik, -, hlevel⟩
      have heq := (isLevel_iff (Nat.le_of_lt hik)).mp hlevel
      exact ⟨hik, by omega⟩
  rw [closing?, closingFrom?_eq_some_iff, show i + 1 + (p.size - (i + 1)) = p.size by omega, Encloses,
    and_iff_right hi]
  constructor
  · rintro ⟨hj, hleast⟩
    exact ⟨(hmem j hj).mp hleast.1, fun k hk => hleast.2 ((hmem k hk.2.1).mpr hk)⟩
  · rintro ⟨hj, hleast⟩
    refine ⟨hj.2.1, (hmem j hj.2.1).mpr hj, fun k hk => ?_⟩
    -- a position that is not in the program is behind the end
    rcases Nat.lt_or_ge k p.size with hlt | hge
    · exact hleast ((hmem k hlt).mp hk)
    · exact Nat.le_trans (Nat.le_of_lt hj.2.1) hge

/-- A loop ends at the end of a loop. -/
theorem Encloses.symbolAt? (h : p.Encloses i j) : p.symbolAt? j = some .loopEnd :=
  symbolAt?_of_closingFrom? ((closing?_eq_some_iff h.1).mpr h)

/-- The scan from the end of a loop stops at its start. -/
theorem opening?_eq_some_iff (hj : p.symbolAt? j = some .loopEnd) :
    p.opening? j = some i ↔ p.Encloses i j := by
  have hcounts := counts_of_loopEnd hj
  have hsize := lt_size_of_symbolAt? hj
  rw [opening?]
  constructor
  · intro h
    have hi : p.symbolAt? i = some .loopStart := symbolAt?_of_openingFrom? h
    have hicounts := counts_of_loopStart hi
    obtain ⟨⟨hij, heq⟩, hgreatest⟩ := openingFrom?_eq_some_iff.mp h
    refine ⟨hi, ⟨hij, hsize, (isLevel_iff (Nat.le_of_lt hij)).mpr (by omega)⟩, ?_⟩
    rintro k ⟨hik, -, hlevel⟩
    have hk := (isLevel_iff (Nat.le_of_lt hik)).mp hlevel
    -- a level position before the end would be one behind which the scan back stops
    apply Nat.le_of_not_lt
    intro hkj
    have hne : k + 1 ≠ j := by
      rintro rfl
      omega
    have hle : k + 1 ≤ i := hgreatest ⟨by omega, by omega⟩
    omega
  · rintro ⟨hi, ⟨hij, -, hlevel⟩, hleast⟩
    have hicounts := counts_of_loopStart hi
    have heq := (isLevel_iff (Nat.le_of_lt hij)).mp hlevel
    refine openingFrom?_eq_some_iff.mpr ⟨⟨hij, by omega⟩, ?_⟩
    rintro k ⟨hkj, hk⟩
    apply Nat.le_of_not_lt
    intro hik
    -- the position before one where the scan back stops would be level
    obtain ⟨m, rfl⟩ : ∃ m, k = m + 1 := ⟨k - 1, by omega⟩
    rcases Nat.eq_or_lt_of_le (Nat.le_of_lt_succ hik) with rfl | him
    · omega
    · have hle : j ≤ m :=
        hleast ⟨him, by omega, (isLevel_iff (Nat.le_of_lt him)).mpr (by omega)⟩
      omega

/-! ## What a loop encloses -/

theorem size_slice_of_le (h : j ≤ p.size) : (p.slice i j).size = j - i := by
  rw [slice, Array.size_extract, Nat.min_eq_left h]

/-- Counts within a part of a program are differences of counts of the program. -/
theorem counts_slice (h : i + k ≤ j) :
    p.started i + (p.slice i j).started k = p.started (i + k) ∧
      p.ended i + (p.slice i j).ended k = p.ended (i + k) := by
  have hcount : ∀ x : Symbol,
      (p.before i).count x + ((p.slice i j).before k).count x = (p.before (i + k)).count x := by
    intro x
    rw [count_before, count_before, count_before, toList_slice, List.take_take,
      Nat.min_eq_left (by omega), ← List.count_append, ← List.take_add]
  exact ⟨hcount _, hcount _⟩

/-- What is between the start and the end of a loop is balanced. -/
theorem Encloses.balanced (h : p.Encloses i j) : (p.slice (i + 1) j).Balanced := by
  have hscan := (closing?_eq_some_iff h.1).mpr h
  have hicounts := counts_of_loopStart h.1
  have hjcounts := counts_of_loopEnd h.symbolAt?
  obtain ⟨-, ⟨hij, hsize, hlevel⟩, -⟩ := h
  have hslice : (p.slice (i + 1) j).size = j - (i + 1) := size_slice_of_le (Nat.le_of_lt hsize)
  constructor
  · rw [hslice]
    intro k hk
    -- the scan has not stopped before the end
    have hpassed : p.closingFrom? k 0 (i + 1) = none := by
      refine Option.eq_none_iff_forall_ne_some.mpr fun m hm => ?_
      have hlt := lt_of_closingFrom? hm
      have hsame := closingFrom?_prolong hm (show k ≤ p.size - (i + 1) by omega)
      rw [show p.closingFrom? (p.size - (i + 1)) 0 (i + 1) = some j from hscan,
        Option.some.injEq] at hsame
      omega
    have hle := ended_le_of_closingFrom? hpassed
    have hcounts := counts_slice (p := p) (show i + 1 + k ≤ j by omega)
    omega
  · have hcounts := counts_slice (p := p) (show i + 1 + (j - (i + 1)) ≤ j by omega)
    have heq := (isLevel_iff (Nat.le_of_lt hij)).mp hlevel
    rw [show i + 1 + (j - (i + 1)) = j by omega] at hcounts
    rw [hslice]
    omega

end TapeLowering.Program
