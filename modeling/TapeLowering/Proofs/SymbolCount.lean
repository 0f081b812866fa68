import TapeLowering.Proofs.Grouping

/-!
# The text of what is put together, and its length

Fusing instructions leaves no trace in the text: it is the text of all the instructions that were put
together, each on its own (`Code.Plan.symbols_of_build`).

The symbols of the text are counted along the tree. Every sum on the way has to be a 64-bit count, that
of a body as well as that of the instructions so far. Counts only grow, so a sum on the way is too
large only if the whole count is, and counting along the tree is looking at the whole count once
(`Code.symbolCount_eq`).
-/

namespace TapeLowering

/-! ## Counts -/

namespace Count

variable {n : Nat}

theorem ofNat_of_lt (h : n < 0x10000000000000000) : ofNat n = .ok n := if_pos h

theorem ofNat_of_le (h : 0x10000000000000000 ≤ n) : ofNat n = .error .overflow :=
  if_neg (Nat.not_lt.mpr h)

end Count

/-- No magnitude is greater than that of the smallest amount. -/
theorem Amount.magnitude_le (a : Amount) : a.magnitude ≤ 0x8000000000000000 := by
  have hlo := a.neg_bound_le
  have hhi := a.lt_bound
  unfold magnitude
  omega

mutual

/-- The symbols of an instruction are counted if there are not too many. By induction on the
instruction, together with `Code.symbolCountFrom_eq`. -/
theorem Instruction.symbolCount_eq (i : Instruction) : i.symbolCount = Count.ofNat i.size := by
  cases i with
  | right a | add a =>
    have hle := a.magnitude_le
    exact (Count.ofNat_of_lt (by omega)).symm
  | read | write => rfl
  | loop body =>
    rw [Instruction.symbolCount, Code.symbolCountFrom_eq (by decide) body, Nat.zero_add,
      Instruction.size]
    rcases Nat.lt_or_ge (Code.size body) 0x10000000000000000 with hlt | hge
    · rw [Count.ofNat_of_lt hlt]
      rfl
    · rw [Count.ofNat_of_le hge, Count.ofNat_of_le (by omega)]
      rfl

/-- Adding up the counts of the instructions is looking at the whole sum once. -/
theorem Code.symbolCountFrom_eq {count : Nat} (h : count < 0x10000000000000000) (c : Code) :
    c.symbolCountFrom count = Count.ofNat (count + c.size) := by
  match c with
  | [] => exact (Count.ofNat_of_lt h).symm
  | i :: rest =>
    rw [Code.symbolCountFrom, Instruction.symbolCount_eq i, Code.size, ← Nat.add_assoc]
    rcases Nat.lt_or_ge (count + i.size) 0x10000000000000000 with hlt | hge
    · rw [← Code.symbolCountFrom_eq hlt rest, Count.ofNat_of_lt (by omega : i.size < _)]
      simp only [bind, Except.bind, Count.ofNat_of_lt hlt]
    · -- the instruction is too large, or it makes the sum too large
      rw [Count.ofNat_of_le (by omega : _ ≤ count + i.size + Code.size rest)]
      rcases Nat.lt_or_ge i.size 0x10000000000000000 with hi | hi
      · simp only [Count.ofNat_of_lt hi, bind, Except.bind, Count.ofNat_of_le hge]
      · rw [Count.ofNat_of_le hi]
        rfl

end

/-- A count that is taken along the tree is too large only if the number of symbols is. -/
theorem Code.symbolCount_eq (c : Code) : c.symbolCount = Count.ofNat c.size := by
  rw [symbolCount, symbolCountFrom_eq (by decide), Nat.zero_add]

/-! ## Texts -/

/-- The text of an instruction on its own. -/
def Instruction.text : Instruction → String
  | .right a => String.ofList (List.replicate a.magnitude (a.direction '>' '<'))
  | .add a => String.ofList (List.replicate a.magnitude (a.direction '+' '-'))
  | .read => ","
  | .write => "."
  | .loop body => "[" ++ Code.text body ++ "]"

theorem Amount.toChar_direction (a : Amount) (forward back : Action) :
    (Symbol.act (a.direction forward back)).toChar
      = a.direction (Symbol.act forward).toChar (Symbol.act back).toChar :=
  apply_ite (fun action => (Symbol.act action).toChar) _ _ _

/-- The text of an instruction is that of its symbols. -/
theorem Instruction.text_eq (i : Instruction) :
    i.text = String.ofList (i.symbols.map Symbol.toChar) := by
  cases i with
  | right a | add a =>
    rw [symbols, List.map_replicate, Amount.toChar_direction]
    rfl
  | read | write => rfl
  | loop body =>
    have hstart : "[" = String.ofList ['['] := rfl
    have hend : "]" = String.ofList [']'] := rfl
    rw [text, Code.text, hstart, hend, ← String.ofList_append, ← String.ofList_append, symbols,
      List.map_cons, List.map_append]
    rfl

theorem Instruction.text_of_isIdle {i : Instruction} (h : i.isIdle = true) : i.text = "" := by
  rw [text_eq, symbols_of_isIdle h]
  rfl

/-- The text of code is that of its instructions one after the other. -/
theorem Code.text_eq_join (c : Code) : c.text = String.join (c.map Instruction.text) := by
  induction c with
  | nil => rfl
  | cons i rest ih =>
    rw [List.map_cons, String.join_cons, ← ih, Instruction.text_eq, text, symbols, List.map_append,
      String.ofList_append]
    rfl

/-- The text is as long as there are symbols. -/
theorem Code.length_text (c : Code) : c.text.length = c.size := by
  rw [text, String.length_ofList, List.length_map, length_symbols]

namespace Code.Plan

/-- Whatever the plan, the symbols are those of its instructions in order. -/
theorem symbols_of_build {plan : Plan} {c : Code} (h : plan.build = .ok c) :
    c.symbols = Code.symbols plan.instructions := by
  induction plan generalizing c with
  | code d =>
    cases h
    rfl
  | push front i ih =>
    obtain ⟨d, hd, hpush⟩ := Violation.bind_eq_ok_iff.mp h
    rw [symbols_of_push hpush, ih hd, instructions, symbols_append, symbols, symbols, List.append_nil]
  | extend front back ihfront ihback =>
    obtain ⟨d, hd, h⟩ := Violation.bind_eq_ok_iff.mp h
    obtain ⟨e, he, hextend⟩ := Violation.bind_eq_ok_iff.mp h
    rw [symbols_of_extend hextend, ihfront hd, ihback he, instructions, symbols_append]

/-- The text of code is the text of all that was put together, and a count of its symbols gives the
length of the text, unless that is greater than any count. -/
theorem text_and_symbolCount_of_build {plan : Plan} {c : Code} (h : plan.build = .ok c) :
    c.text = String.join (plan.instructions.map Instruction.text) ∧
    (∀ i ∈ plan.instructions, i.isIdle = true → i.text = "") ∧
    (c.text.length ≤ 0xFFFFFFFFFFFFFFFF → c.symbolCount = .ok c.text.length) ∧
    (c.symbolCount = .error .overflow ↔ 0xFFFFFFFFFFFFFFFF < c.text.length) := by
  have htext : c.text = Code.text plan.instructions := by
    rw [Code.text, symbols_of_build h, Code.text]
  rw [symbolCount_eq, length_text]
  refine ⟨htext.trans (text_eq_join _), fun i _ => Instruction.text_of_isIdle,
    fun hle => Count.ofNat_of_lt (by omega), ?_⟩
  rcases Nat.lt_or_ge c.size 0x10000000000000000 with hlt | hge
  · rw [Count.ofNat_of_lt hlt]
    simp only [reduceCtorEq, false_iff]
    omega
  · rw [Count.ofNat_of_le hge]
    simp only [true_iff]
    omega

/-- A loop around the longest moves and subtractions: its body is longer than any count. -/
theorem text_and_symbolCount_of_build_least :
    let least : Amount := { val := -0x8000000000000000 }
    let body : Code := [.add least, .right least]
    let plan : Plan := .extend (.push (.code [.add .one]) (.add .one)) (.code [.loop body])
    let c : Code := [.add { val := 2 }, .loop body]
    plan.build = .ok c ∧
    c.text = String.join ["+", "+", (Instruction.loop body).text] ∧
    c.symbolCount = .error .overflow ∧ 0xFFFFFFFFFFFFFFFF < c.text.length := by
  intro least body plan c
  have hbuild : plan.build = .ok c := by decide +kernel
  obtain ⟨htext, -, -, hover⟩ := text_and_symbolCount_of_build hbuild
  have hcount : c.symbolCount = .error .overflow := by decide +kernel
  exact ⟨hbuild, htext, hcount, hover.mp hcount⟩

end Code.Plan

end TapeLowering
