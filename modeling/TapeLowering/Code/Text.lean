import TapeLowering.Code.Basic
import TapeLowering.Symbol

/-!
# The text of code

Code has two texts. The canonical one, `Code.text`, is its symbols and nothing else. The layout,
`Code.layout`, also puts the body of a loop on a line of its own if the body has more than one
instruction; a body of at most one instruction stays on the line of its brackets, at the depth of
the loop itself.

Both are read off one instruction after the other (`symbols_append`, `layoutChars_append`), and
`length_symbols` says that the size of code is the length of its canonical text. However instructions
are fused while code is built, its canonical text is that of everything pushed (`symbols_of_push`,
`symbols_of_extend`).
-/

namespace TapeLowering

mutual

/-- The symbols an instruction stands for. -/
def Instruction.symbols : Instruction → List Symbol
  | .right a => List.replicate a.magnitude (.act (a.direction .right .left))
  | .add a => List.replicate a.magnitude (.act (a.direction .increment .decrement))
  | .read => [.act .read]
  | .write => [.act .write]
  | .loop body => .loopStart :: (Code.symbols body ++ [.loopEnd])

/-- The symbols some code stands for. -/
def Code.symbols : Code → List Symbol
  | [] => []
  | i :: rest => i.symbols ++ Code.symbols rest

end

/-- The canonical text of code. -/
def Code.text (c : Code) : String := String.ofList (c.symbols.map Symbol.toChar)

/-- The blanks at the start of a line of a given depth. -/
def indentation (depth : Nat) : List Char := List.replicate (2 * depth) ' '

mutual

/-- The characters of an instruction within lines of a given depth. -/
def Instruction.layoutChars (depth : Nat) : Instruction → List Char
  | .loop body =>
    if body.length ≤ 1 then
      '[' :: (Code.layoutChars depth body ++ [']'])
    else
      '[' :: '\n' :: (indentation (depth + 1) ++ Code.layoutChars (depth + 1) body ++
        '\n' :: (indentation depth ++ [']']))
  | i => i.symbols.map Symbol.toChar

/-- The characters of some code within lines of a given depth. -/
def Code.layoutChars (depth : Nat) : Code → List Char
  | [] => []
  | i :: rest => i.layoutChars depth ++ Code.layoutChars depth rest

end

/-- The text of code with longer loop bodies on lines of their own, at a given depth. -/
def Code.layout (depth : Nat) (c : Code) : String := String.ofList (c.layoutChars depth)

namespace Code

@[simp] theorem symbols_append (c d : Code) : (c ++ d).symbols = c.symbols ++ d.symbols := by
  induction c with
  | nil => rfl
  | cons i rest ih => simp only [List.cons_append, symbols, ih, List.append_assoc]

@[simp] theorem size_append (c d : Code) : (c ++ d).size = c.size + d.size := by
  induction c with
  | nil => simp [size]
  | cons i rest ih => simp only [List.cons_append, size, ih, Nat.add_assoc]

@[simp] theorem layoutChars_append (depth : Nat) (c d : Code) :
    (c ++ d).layoutChars depth = c.layoutChars depth ++ d.layoutChars depth := by
  induction c with
  | nil => rfl
  | cons i rest ih => simp only [List.cons_append, layoutChars, ih, List.append_assoc]

end Code

mutual

/-- The size of an instruction, and so that of code, is the number of its symbols. -/
theorem Instruction.length_symbols (i : Instruction) : i.symbols.length = i.size := by
  cases i with
  | right a => simp [Instruction.symbols, Instruction.size]
  | add a => simp [Instruction.symbols, Instruction.size]
  | read => rfl
  | write => rfl
  | loop body => simp [Instruction.symbols, Instruction.size, Code.length_symbols body]

/-- Every symbol is one character of the canonical text. -/
theorem Code.length_symbols (c : Code) : c.symbols.length = c.size := by
  match c with
  | [] => rfl
  | i :: rest =>
    rw [Code.symbols, List.length_append, Instruction.length_symbols i, Code.length_symbols rest,
      Code.size]

end

theorem Code.size_of_symbols {c d : Code} {t : List Symbol} (h : c.symbols = d.symbols ++ t) :
    c.size = d.size + t.length := by
  rw [← length_symbols, ← length_symbols, h, List.length_append]

/-- Code with more symbols at its end has their characters at the end of its text. -/
theorem Code.text_of_symbols {c d : Code} {t : List Symbol} (h : c.symbols = d.symbols ++ t) :
    c.text = d.text ++ String.ofList (t.map Symbol.toChar) := by
  rw [text, h, List.map_append, String.ofList_append]
  rfl

/-! ## The text of code as it is built -/

/-- Steps in one direction, followed by steps in the same direction, are steps of their sum. -/
theorem Amount.replicate_of_add {a b c : Amount} (hsign : a.sameSign b = true)
    (hc : a.add b = .ok c) (forward back : Action) :
    List.replicate c.magnitude (Symbol.act (c.direction forward back))
      = List.replicate a.magnitude (.act (a.direction forward back))
        ++ List.replicate b.magnitude (.act (b.direction forward back)) := by
  have hval : c.val = a.val + b.val := Amount.ofInt_eq_ok_iff.mp hc
  rcases sameSign_iff.mp hsign with ⟨ha, hb⟩ | ⟨ha, hb⟩ | ⟨ha, hb⟩
  · simp only [direction, magnitude, hval, if_neg (Int.not_le.mpr ha), if_neg (Int.not_le.mpr hb),
      if_neg (show ¬ 0 ≤ a.val + b.val by omega), List.replicate_append_replicate]
    congr 1
    omega
  · simp [magnitude, hval, ha, hb]
  · simp only [direction, magnitude, hval, if_pos (Int.le_of_lt ha), if_pos (Int.le_of_lt hb),
      if_pos (show 0 ≤ a.val + b.val by omega), List.replicate_append_replicate]
    congr 1
    omega

/-- An instruction that is dropped stands for no symbol. -/
theorem Instruction.symbols_of_isIdle {i : Instruction} (h : i.isIdle = true) : i.symbols = [] := by
  cases i with
  | right a | add a =>
    have ha : a.val = 0 := Amount.isZero_iff.mp h
    simp [Instruction.symbols, Amount.magnitude, ha]
  | read | write | loop => cases h

/-- Whether two instructions are fused or not, the symbols of both are there, in order. -/
theorem Instruction.symbols_of_join {i j : Instruction} {c : Code} (h : i.join j = .ok c) :
    c.symbols = i.symbols ++ j.symbols := by
  unfold Instruction.join at h
  split at h
  case h_1 a b | h_2 a b =>
    split at h
    · rename_i hsign
      obtain ⟨s, hs, rfl⟩ := Violation.map_eq_ok_iff.mp h
      simp only [Code.symbols, Instruction.symbols, List.append_nil]
      exact Amount.replicate_of_add hsign hs _ _
    · cases h
      simp [Code.symbols]
  case h_3 =>
    cases h
    simp [Code.symbols]

namespace Code

/-- The symbols of an instruction that is joined to the last one come at the end. -/
theorem symbols_of_joinLast {i : Instruction} {c c' : Code} (h : joinLast i c = .ok c') :
    c'.symbols = c.symbols ++ i.symbols := by
  induction c generalizing c' with
  | nil =>
    cases h
    simp [symbols]
  | cons first rest ih =>
    cases rest with
    | nil =>
      rw [Instruction.symbols_of_join h]
      simp [symbols]
    | cons second rest =>
      obtain ⟨tail, htail, rfl⟩ := Violation.map_eq_ok_iff.mp h
      rw [symbols, ih htail, ← List.append_assoc, symbols.eq_2 first]

/-- Appending an instruction appends its symbols, also where it is dropped or fused. -/
theorem symbols_of_push {i : Instruction} {c c' : Code} (h : c.push i = .ok c') :
    c'.symbols = c.symbols ++ i.symbols := by
  unfold push at h
  split at h
  · rename_i hidle
    cases h
    rw [Instruction.symbols_of_isIdle hidle, List.append_nil]
  · exact symbols_of_joinLast h

/-- Putting two codes together puts their symbols together. -/
theorem symbols_of_extend {c d c' : Code} (h : c.extend d = .ok c') :
    c'.symbols = c.symbols ++ d.symbols := by
  cases d with
  | nil =>
    cases h
    rw [symbols, List.append_nil]
  | cons first rest =>
    obtain ⟨head, hhead, rfl⟩ := Violation.map_eq_ok_iff.mp h
    rw [symbols_append, symbols_of_push hhead, symbols, List.append_assoc]

theorem symbols_ofInstruction (i : Instruction) : (ofInstruction i).symbols = i.symbols := by
  unfold ofInstruction
  split
  · rename_i hidle
    rw [Instruction.symbols_of_isIdle hidle, symbols]
  · rw [symbols, symbols, List.append_nil]

end Code

end TapeLowering
