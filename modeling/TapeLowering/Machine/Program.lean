import TapeLowering.Symbol

/-!
# Programs and their brackets

A program is the sequence of bytes of its UTF-8 text, and its positions count bytes. Bytes that
stand for no symbol are comments.

The partner of a bracket is found by walking away from it and counting the brackets on the way:
`closing?` walks forward from the start of a loop and `opening?` walks back from its end. Both
carry the number of inner loops that are open, so a partner is a bracket met while none is.

A text that consists of symbols only is the program of these symbols (`ofText_ofList`), with one
position for each of them (`symbolAt?_ofSymbols`).
-/

namespace TapeLowering

/-- The bytes of a program's text. -/
abbrev Program := Array UInt8

namespace Program

/-- The program with a given text. -/
def ofText (text : String) : Program := text.toUTF8.data

/-- The program made of nothing but the given symbols. -/
def ofSymbols (symbols : List Symbol) : Program := (symbols.map Symbol.toByte).toArray

/-- The symbol at a position; there is none in a comment or outside the program. -/
def symbolAt? (p : Program) (position : Nat) : Option Symbol := p[position]?.bind Symbol.ofByte?

/-- The end of the loop that surrounds the `remaining` positions from `position` on, of which
`depth` inner loops are open. -/
def closingFrom? (p : Program) : (remaining depth position : Nat) → Option Nat
  | 0, _, _ => none
  | remaining + 1, depth, position =>
    match p.symbolAt? position with
    | some .loopStart => p.closingFrom? remaining (depth + 1) (position + 1)
    | some .loopEnd =>
      match depth with
      | 0 => some position
      | depth + 1 => p.closingFrom? remaining depth (position + 1)
    | _ => p.closingFrom? remaining depth (position + 1)

/-- The end of the loop that starts at a position. -/
def closing? (p : Program) (start : Nat) : Option Nat :=
  p.closingFrom? (p.size - (start + 1)) 0 (start + 1)

/-- The start of the loop that surrounds the positions below a bound, of which `depth` inner loops
are open. -/
def openingFrom? (p : Program) : (bound depth : Nat) → Option Nat
  | 0, _ => none
  | position + 1, depth =>
    match p.symbolAt? position with
    | some .loopEnd => p.openingFrom? position (depth + 1)
    | some .loopStart =>
      match depth with
      | 0 => some position
      | depth + 1 => p.openingFrom? position depth
    | _ => p.openingFrom? position depth

/-- The start of the loop that ends at a position. -/
def opening? (p : Program) (finish : Nat) : Option Nat := p.openingFrom? finish 0

/-- Every symbol is one byte of a text. -/
theorem utf8EncodeChar_toChar (s : Symbol) : String.utf8EncodeChar s.toChar = [s.toByte] := by
  cases s with
  | act a => cases a <;> rfl
  | loopStart => rfl
  | loopEnd => rfl

private theorem flatMap_utf8EncodeChar (symbols : List Symbol) :
    (symbols.map Symbol.toChar).flatMap String.utf8EncodeChar = symbols.map Symbol.toByte := by
  induction symbols with
  | nil => rfl
  | cons s rest ih =>
    rw [List.map_cons, List.flatMap_cons, utf8EncodeChar_toChar, ih, List.map_cons,
      List.singleton_append]

/-- A text that consists of symbols only is the program of these symbols. -/
theorem ofText_ofList (symbols : List Symbol) :
    ofText (String.ofList (symbols.map Symbol.toChar)) = ofSymbols symbols := by
  simp [ofText, ofSymbols, String.toUTF8, String.ofList, List.utf8Encode, flatMap_utf8EncodeChar,
    List.data_toByteArray]

theorem ofText_append (a b : String) : ofText (a ++ b) = ofText a ++ ofText b := by
  simp [ofText, String.toUTF8]

/-- Positions count bytes, so the size of a program is that of its text in UTF-8. -/
theorem size_ofText (a : String) : (ofText a).size = a.utf8ByteSize := rfl

@[simp] theorem size_ofSymbols (symbols : List Symbol) :
    (ofSymbols symbols).size = symbols.length := by
  simp [ofSymbols]

/-- A program without comments has one position for each of its symbols. -/
@[simp] theorem symbolAt?_ofSymbols (symbols : List Symbol) (position : Nat) :
    (ofSymbols symbols).symbolAt? position = symbols[position]? := by
  cases h : symbols[position]? with
  | none => simp [symbolAt?, ofSymbols, h]
  | some s => simp [symbolAt?, ofSymbols, h, Symbol.ofByte?_toByte]

end Program

end TapeLowering
