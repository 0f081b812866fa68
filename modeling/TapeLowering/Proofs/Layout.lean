import TapeLowering.Code.Text

/-!
# The layout of code

A layout adds blanks to the canonical text, and nothing else: without its blanks and line breaks it
is the canonical text again (`Code.filter_layoutChars`).

The depth of a layout moves whole lines. However the bodies of loops are nested, and whichever of them
stand on lines of their own, a layout at a greater depth has more blanks behind every line break, as
many at each of them (`Code.layoutChars_add`).
-/

namespace TapeLowering

/-- Whether a character only sets others apart. -/
def isBlank (ch : Char) : Bool := ch == ' ' || ch == '\n'

theorem Symbol.isBlank_toChar (s : Symbol) : isBlank s.toChar = false := by
  cases s with
  | act a => cases a <;> rfl
  | loopStart => rfl
  | loopEnd => rfl

/-- The canonical text has no blanks. -/
theorem filter_map_toChar (t : List Symbol) :
    (t.map Symbol.toChar).filter (!isBlank ·) = t.map Symbol.toChar := by
  refine List.filter_eq_self.mpr fun ch hch => ?_
  obtain ⟨s, _, rfl⟩ := List.mem_map.mp hch
  rw [Symbol.isBlank_toChar]
  rfl

theorem filter_indentation (depth : Nat) : (indentation depth).filter (!isBlank ·) = [] := by
  rw [indentation, List.filter_replicate]
  rfl

mutual

/-- Without its blanks, the layout of an instruction is its text. By induction on the instruction,
together with `Code.filter_layoutChars`. -/
theorem Instruction.filter_layoutChars (depth : Nat) (i : Instruction) :
    (i.layoutChars depth).filter (!isBlank ·) = i.symbols.map Symbol.toChar := by
  cases i with
  | right | add | read | write => exact filter_map_toChar _
  | loop body =>
    have hsymbols : (Instruction.loop body).symbols.map Symbol.toChar
        = '[' :: ((Code.symbols body).map Symbol.toChar ++ [']']) := by
      rw [Instruction.symbols, List.map_cons, List.map_append]
      rfl
    have hstart : ∀ cs, ('[' :: cs).filter (!isBlank ·) = '[' :: cs.filter (!isBlank ·) :=
      fun _ => rfl
    have hbreak : ∀ cs, ('\n' :: cs).filter (!isBlank ·) = cs.filter (!isBlank ·) := fun _ => rfl
    have hend : [']'].filter (!isBlank ·) = [']'] := rfl
    rw [hsymbols, Instruction.layoutChars]
    split
    · rw [hstart, List.filter_append, Code.filter_layoutChars, hend]
    · rw [hstart, hbreak, List.filter_append, List.filter_append, filter_indentation,
        Code.filter_layoutChars, hbreak, List.filter_append, filter_indentation, hend]
      rfl

/-- Without its blanks, a layout is the canonical text. -/
theorem Code.filter_layoutChars (depth : Nat) (c : Code) :
    (c.layoutChars depth).filter (!isBlank ·) = c.symbols.map Symbol.toChar := by
  match c with
  | [] => rfl
  | i :: rest =>
    rw [Code.layoutChars, List.filter_append, Instruction.filter_layoutChars depth i,
      Code.filter_layoutChars depth rest, Code.symbols, List.map_append]

end

/-! ## Depths -/

/-- Puts the blanks of a depth behind every line break. -/
def indentLines (depth : Nat) (cs : List Char) : List Char :=
  cs.flatMap fun ch => if ch = '\n' then ch :: indentation depth else [ch]

theorem indentation_add (depth extra : Nat) :
    indentation (depth + extra) = indentation extra ++ indentation depth := by
  rw [indentation, indentation, indentation, List.replicate_append_replicate]
  congr 1
  omega

theorem indentLines_append (depth : Nat) (cs ds : List Char) :
    indentLines depth (cs ++ ds) = indentLines depth cs ++ indentLines depth ds :=
  List.flatMap_append

theorem indentLines_break (depth : Nat) (cs : List Char) :
    indentLines depth ('\n' :: cs) = '\n' :: (indentation depth ++ indentLines depth cs) := rfl

/-- A text without line breaks has no lines to indent. -/
theorem indentLines_eq_self {depth : Nat} {cs : List Char} (h : '\n' ∉ cs) :
    indentLines depth cs = cs := by
  induction cs with
  | nil => rfl
  | cons ch cs ih =>
    rw [List.mem_cons, not_or] at h
    rw [indentLines, List.flatMap_cons, if_neg (Ne.symm h.1), ← indentLines, ih h.2]
    rfl

/-- A canonical text has no lines to indent. -/
theorem indentLines_map_toChar (depth : Nat) (t : List Symbol) :
    indentLines depth (t.map Symbol.toChar) = t.map Symbol.toChar := by
  refine indentLines_eq_self fun h => ?_
  obtain ⟨s, _, hs⟩ := List.mem_map.mp h
  have hblank := s.isBlank_toChar
  rw [hs] at hblank
  cases hblank

theorem indentLines_indentation (depth extra : Nat) :
    indentLines extra (indentation depth) = indentation depth :=
  indentLines_eq_self fun h => by cases List.eq_of_mem_replicate h

mutual

/-- A greater depth indents the lines of an instruction by the difference. By induction on the
instruction, together with `Code.layoutChars_add`. -/
theorem Instruction.layoutChars_add (depth extra : Nat) (i : Instruction) :
    i.layoutChars (depth + extra) = indentLines extra (i.layoutChars depth) := by
  cases i with
  | right | add | read | write => exact (indentLines_map_toChar extra _).symm
  | loop body =>
    have hstart : ∀ cs, indentLines extra ('[' :: cs) = '[' :: indentLines extra cs := fun _ => rfl
    have hend : indentLines extra [']'] = [']'] := rfl
    rw [Instruction.layoutChars, Instruction.layoutChars]
    split
    · rw [hstart, indentLines_append, ← Code.layoutChars_add depth extra body, hend]
    · -- the body and the closing bracket start lines, at depths that both grow by the same
      have hbody := Code.layoutChars_add (depth + 1) extra body
      rw [hstart, indentLines_break, indentLines_append, indentLines_append,
        indentLines_indentation, ← hbody, indentLines_break, indentLines_append,
        indentLines_indentation, hend, Nat.add_right_comm depth extra 1, indentation_add,
        indentation_add depth extra, List.append_assoc, List.append_assoc, List.append_assoc,
        List.append_assoc]

/-- A greater depth puts more blanks behind every line break, and nothing else. -/
theorem Code.layoutChars_add (depth extra : Nat) (c : Code) :
    c.layoutChars (depth + extra) = indentLines extra (c.layoutChars depth) := by
  match c with
  | [] => rfl
  | i :: rest =>
    rw [Code.layoutChars, Code.layoutChars, indentLines_append,
      Instruction.layoutChars_add depth extra i, Code.layoutChars_add depth extra rest]

end

/-- A layout is the canonical text with blanks and line breaks in it, and a layout at some depth is
the one at depth zero with two blanks for each level behind every line break. -/
theorem Code.layout_adds_blanks (c : Code) (depth : Nat) :
    String.ofList ((c.layout depth).toList.filter fun ch => !(ch == ' ' || ch == '\n')) = c.text ∧
    c.layout depth = String.ofList ((c.layout 0).toList.flatMap fun ch =>
      if ch = '\n' then ch :: List.replicate (2 * depth) ' ' else [ch]) := by
  rw [layout, layout, String.toList_ofList, String.toList_ofList]
  constructor
  · exact congrArg String.ofList (filter_layoutChars depth c)
  · rw [← Nat.zero_add depth, layoutChars_add 0 depth c, Nat.zero_add]
    rfl

-- the inner body stays on its line, so its depth does not show
example : Code.layout 1 [.read, .loop [.add .negOne, .loop [.right .one], .write]]
    = ",[\n    -[>].\n  ]" := by decide +kernel

end TapeLowering
