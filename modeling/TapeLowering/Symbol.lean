/-!
# Symbols

The eight symbols a program is made of: six actions on a tape with input and output, and the two
brackets of a loop. Every symbol is written as one ASCII character, hence as one byte of the
program's UTF-8 text. `ofByte?_eq_some_iff` says that reading a byte undoes writing one, and that
all other bytes are no symbol.
-/

namespace TapeLowering

/-- What a program does to the cell under the pointer, or to the pointer. -/
inductive Action where
  /-- Moves the pointer one cell to the right. -/
  | right
  /-- Moves the pointer one cell to the left. -/
  | left
  /-- Adds one to the cell. -/
  | increment
  /-- Takes one from the cell. -/
  | decrement
  /-- Stores the next input in the cell. -/
  | read
  /-- Outputs the cell. -/
  | write
  deriving Repr, DecidableEq

/-- One symbol of a program. -/
inductive Symbol where
  /-- An action. -/
  | act (action : Action)
  /-- The start of a loop; skips the loop if the cell under the pointer is zero. -/
  | loopStart
  /-- The end of a loop; repeats the loop unless the cell under the pointer is zero. -/
  | loopEnd
  deriving Repr, DecidableEq

namespace Symbol

/-- The character that stands for a symbol. -/
def toChar : Symbol → Char
  | act .right => '>'
  | act .left => '<'
  | act .increment => '+'
  | act .decrement => '-'
  | act .read => ','
  | act .write => '.'
  | loopStart => '['
  | loopEnd => ']'

/-- The byte that stands for a symbol. -/
def toByte (s : Symbol) : UInt8 := s.toChar.toUInt8

/-- The symbol that a byte stands for; there is none for a byte of a comment. -/
def ofByte? : UInt8 → Option Symbol
  | 0x3E => some (act .right)
  | 0x3C => some (act .left)
  | 0x2B => some (act .increment)
  | 0x2D => some (act .decrement)
  | 0x2C => some (act .read)
  | 0x2E => some (act .write)
  | 0x5B => some loopStart
  | 0x5D => some loopEnd
  | _ => none

/-- Reading a byte undoes writing a symbol. -/
theorem ofByte?_toByte (s : Symbol) : ofByte? s.toByte = some s := by
  cases s with
  | act a => cases a <;> rfl
  | loopStart => rfl
  | loopEnd => rfl

/-- No byte stands for a symbol but the one that the symbol is written as. -/
theorem ofByte?_eq_some_iff {b : UInt8} {s : Symbol} : ofByte? b = some s ↔ b = s.toByte := by
  constructor
  · intro h
    unfold ofByte? at h
    split at h <;> cases h <;> rfl
  · rintro rfl
    exact ofByte?_toByte s

end Symbol

end TapeLowering
