import TapeLowering.Code.Text
import TapeLowering.Machine.Program

/-!
# Brackets within a text

The text of code closes every loop that it opens. `Nested` states this for a list of symbols, and
`Program.Holds` places such a list in a program, whatever stands before and after it.

A scan for a partner that walks into a nested text leaves it again with as many open loops as before
(`closingFrom?_of_nested`, `openingFrom?_of_nested`). Hence the partner of a bracket is found in the
text if and only if the bracket is there itself (`Partner.inside_iff`).
-/

namespace TapeLowering

/-- A list of symbols that closes every loop it opens, and no other. -/
inductive Nested : List Symbol → Prop where
  | nil : Nested []
  | act (a : Action) {t : List Symbol} : Nested t → Nested (.act a :: t)
  | loop {t u : List Symbol} : Nested t → Nested u → Nested (.loopStart :: (t ++ .loopEnd :: u))

theorem Nested.append {t u : List Symbol} (ht : Nested t) (hu : Nested u) : Nested (t ++ u) := by
  induction ht with
  | nil => exact hu
  | act a _ ih => exact .act a ih
  | loop hbody _ _ ih =>
    rw [List.cons_append, List.append_assoc, List.cons_append]
    exact .loop hbody ih

/-- An action any number of times is a nested text. -/
theorem Nested.replicate (a : Action) (n : Nat) : Nested (List.replicate n (.act a)) := by
  induction n with
  | zero => exact .nil
  | succ n ih => exact .act a ih

mutual

/-- The symbols of an instruction are nested: for a loop, because those of its body are. -/
theorem Instruction.nested_symbols (i : Instruction) : Nested i.symbols := by
  cases i with
  | right a => exact .replicate _ _
  | add a => exact .replicate _ _
  | read => exact .act _ .nil
  | write => exact .act _ .nil
  | loop body => exact .loop (Code.nested_symbols body) .nil

theorem Code.nested_symbols (c : Code) : Nested c.symbols := by
  match c with
  | [] => exact .nil
  | i :: rest => exact (Instruction.nested_symbols i).append (Code.nested_symbols rest)

end

namespace Program

/-- The program has some symbols from a position on, one at each position. -/
def Holds (p : Program) : Nat → List Symbol → Prop
  | _, [] => True
  | start, s :: rest => p.symbolAt? start = some s ∧ p.Holds (start + 1) rest

variable {p : Program}

/-- A program holds two texts one after the other if it holds each of them where it starts. -/
theorem holds_append {start : Nat} {t u : List Symbol} :
    p.Holds start (t ++ u) ↔ p.Holds start t ∧ p.Holds (start + t.length) u := by
  induction t generalizing start with
  | nil => simp [Holds]
  | cons s rest ih =>
    rw [List.cons_append, Holds, Holds, ih, List.length_cons, and_assoc,
      show start + 1 + rest.length = start + (rest.length + 1) by omega]

theorem lt_size_of_symbolAt? {position : Nat} {s : Symbol} (h : p.symbolAt? position = some s) :
    position < p.size := by
  apply Nat.lt_of_not_le
  intro hle
  simp [symbolAt?, Array.getElem?_eq_none hle] at h

/-- A text ends within the program that holds it. -/
theorem Holds.le_size {start : Nat} {t : List Symbol} (h : p.Holds start t)
    (hstart : start ≤ p.size) : start + t.length ≤ p.size := by
  induction t generalizing start with
  | nil => exact hstart
  | cons s rest ih =>
    have hrest := ih h.2 (lt_size_of_symbolAt? h.1)
    rw [List.length_cons]
    omega

/-- A text that the program holds tells the symbols at its positions. -/
theorem Holds.symbolAt? {start : Nat} {t : List Symbol} (h : p.Holds start t) {i : Nat}
    (hi : i < t.length) : p.symbolAt? (start + i) = some t[i] := by
  induction t generalizing start i with
  | nil => cases hi
  | cons s rest ih =>
    cases i with
    | zero => exact h.1
    | succ i =>
      rw [show start + (i + 1) = start + 1 + i by omega]
      exact ih h.2 (Nat.lt_of_succ_lt_succ hi)

/-- The program of a text holds the text from its beginning on. -/
theorem holds_ofSymbols (t : List Symbol) : (ofSymbols t).Holds 0 t := by
  have h : ∀ u v : List Symbol, (ofSymbols (u ++ v)).Holds u.length v := by
    intro u v
    induction v generalizing u with
    | nil => trivial
    | cons s rest ih =>
      refine ⟨by simp, ?_⟩
      simpa using ih (u ++ [s])
  exact h [] t

/-! ### A program in a context -/

/-- What follows a program does not change its symbols. -/
theorem symbolAt?_append_of_lt {position : Nat} (h : position < p.size) (q : Program) :
    (p ++ q).symbolAt? position = p.symbolAt? position := by
  rw [Program.symbolAt?, Array.getElem?_append_left h]
  rfl

theorem symbolAt?_append_of_some {position : Nat} {s : Symbol} (h : p.symbolAt? position = some s)
    (q : Program) : (p ++ q).symbolAt? position = some s :=
  (symbolAt?_append_of_lt (lt_size_of_symbolAt? h) q).trans h

/-- What precedes a program moves its symbols by the length of that. -/
theorem symbolAt?_append_size (p q : Program) (position : Nat) :
    (p ++ q).symbolAt? (p.size + position) = q.symbolAt? position := by
  rw [Program.symbolAt?, Array.getElem?_append_right (by omega), Nat.add_sub_cancel_left]
  rfl

/-- A text is held whatever follows the program. -/
theorem Holds.append_right {start : Nat} {t : List Symbol} (h : p.Holds start t) (q : Program) :
    (p ++ q).Holds start t := by
  induction t generalizing start with
  | nil => trivial
  | cons s rest ih => exact ⟨symbolAt?_append_of_some h.1 q, ih h.2⟩

/-- A text is held whatever precedes the program, but starts later. -/
theorem Holds.append_left {start : Nat} {t : List Symbol} (h : p.Holds start t) (q : Program) :
    (q ++ p).Holds (q.size + start) t := by
  induction t generalizing start with
  | nil => trivial
  | cons s rest ih => exact ⟨(symbolAt?_append_size q p start).trans h.1, ih h.2⟩

/-- The text of some code stands behind a text that comes before it, whatever follows. -/
theorem holds_context (before after : String) (c : Code) :
    (ofText (before ++ c.text ++ after)).Holds before.utf8ByteSize c.symbols := by
  rw [ofText_append, ofText_append, Code.text, ofText_ofList, ← size_ofText]
  exact ((holds_ofSymbols c.symbols).append_left (ofText before)).append_right _

/-! ## One step of a scan -/

/-- A scan forward passes whatever is no bracket. -/
theorem closingFrom?_pass {position : Nat} (hstart : p.symbolAt? position ≠ some .loopStart)
    (hend : p.symbolAt? position ≠ some .loopEnd) (remaining depth : Nat) :
    p.closingFrom? (remaining + 1) depth position
      = p.closingFrom? remaining depth (position + 1) := by
  simp only [closingFrom?]

/-- A scan forward counts a loop that starts. -/
theorem closingFrom?_loopStart {position : Nat} (h : p.symbolAt? position = some .loopStart)
    (remaining depth : Nat) : p.closingFrom? (remaining + 1) depth position
      = p.closingFrom? remaining (depth + 1) (position + 1) := by
  simp [closingFrom?, h]

/-- A scan forward passes the end of a loop that has started on the way. -/
theorem closingFrom?_loopEnd {position : Nat} (h : p.symbolAt? position = some .loopEnd)
    (remaining depth : Nat) : p.closingFrom? (remaining + 1) (depth + 1) position
      = p.closingFrom? remaining depth (position + 1) := by
  simp [closingFrom?, h]

/-- A scan forward stops at the end of a loop that it has not seen start. -/
theorem closingFrom?_loopEnd_zero {position : Nat} (h : p.symbolAt? position = some .loopEnd)
    (remaining : Nat) : p.closingFrom? (remaining + 1) 0 position = some position := by
  simp [closingFrom?, h]

/-- A scan back passes whatever is no bracket. -/
theorem openingFrom?_pass {position : Nat} (hstart : p.symbolAt? position ≠ some .loopStart)
    (hend : p.symbolAt? position ≠ some .loopEnd) (depth : Nat) :
    p.openingFrom? (position + 1) depth = p.openingFrom? position depth := by
  simp only [openingFrom?]

/-- A scan back counts a loop that ends. -/
theorem openingFrom?_loopEnd {position : Nat} (h : p.symbolAt? position = some .loopEnd)
    (depth : Nat) : p.openingFrom? (position + 1) depth = p.openingFrom? position (depth + 1) := by
  simp [openingFrom?, h]

/-- A scan back passes the start of a loop that has ended on the way. -/
theorem openingFrom?_loopStart {position : Nat} (h : p.symbolAt? position = some .loopStart)
    (depth : Nat) : p.openingFrom? (position + 1) (depth + 1) = p.openingFrom? position depth := by
  simp [openingFrom?, h]

theorem openingFrom?_loopStart_zero {position : Nat} (h : p.symbolAt? position = some .loopStart) :
    p.openingFrom? (position + 1) 0 = some position := by
  simp [openingFrom?, h]

/-! ## Scans over a nested text -/

/-- A scan forward leaves a nested text with as many open loops as it had before. -/
theorem closingFrom?_of_nested {t : List Symbol} (ht : Nested t) {start : Nat}
    (h : p.Holds start t) (remaining depth : Nat) :
    p.closingFrom? (t.length + remaining) depth start
      = p.closingFrom? remaining depth (start + t.length) := by
  induction ht generalizing start remaining depth with
  | nil => simp
  | @act a t _ ih =>
    rw [List.length_cons, Nat.add_right_comm, closingFrom?_pass (by simp [h.1]) (by simp [h.1]),
      ih h.2, show start + 1 + t.length = start + (t.length + 1) by omega]
  | @loop t u _ _ iht ihu =>
    obtain ⟨hopen, hrest⟩ := h
    obtain ⟨ht, hclose, hu⟩ := holds_append.mp hrest
    have hlen : (Symbol.loopStart :: (t ++ .loopEnd :: u)).length
        = t.length + (u.length + 1) + 1 := by simp
    -- the scan opens the loop, passes its body, closes it and passes what follows
    rw [hlen, show t.length + (u.length + 1) + 1 + remaining
        = t.length + (u.length + remaining + 1) + 1 by omega,
      closingFrom?_loopStart hopen, iht ht, closingFrom?_loopEnd hclose, ihu hu]
    congr 1
    omega

/-- A scan back leaves a nested text with as many open loops as it had before. -/
theorem openingFrom?_of_nested {t : List Symbol} (ht : Nested t) {start : Nat}
    (h : p.Holds start t) (depth : Nat) :
    p.openingFrom? (start + t.length) depth = p.openingFrom? start depth := by
  induction ht generalizing start depth with
  | nil => rfl
  | @act a t _ ih =>
    rw [List.length_cons, show start + (t.length + 1) = start + 1 + t.length by omega, ih h.2,
      openingFrom?_pass (by simp [h.1]) (by simp [h.1])]
  | @loop t u _ _ iht ihu =>
    obtain ⟨hopen, hrest⟩ := h
    obtain ⟨ht, hclose, hu⟩ := holds_append.mp hrest
    have hlen : (Symbol.loopStart :: (t ++ .loopEnd :: u)).length
        = t.length + (u.length + 1) + 1 := by simp
    -- from behind: what follows the loop, its end, its body, its start
    rw [hlen, show start + (t.length + (u.length + 1) + 1)
        = start + 1 + t.length + 1 + u.length by omega,
      ihu hu, openingFrom?_loopEnd hclose, iht ht, openingFrom?_loopStart hopen]

/-! ## The partners of the brackets of a loop -/

/-- The partner of the bracket that opens a loop is the one behind the body. -/
theorem closing?_of_holds {start : Nat} {t u : List Symbol} (ht : Nested t)
    (h : p.Holds start (.loopStart :: (t ++ .loopEnd :: u))) :
    p.closing? start = some (start + 1 + t.length) := by
  obtain ⟨_, hrest⟩ := h
  obtain ⟨ht', hclose, _⟩ := holds_append.mp hrest
  have hlt := lt_size_of_symbolAt? hclose
  rw [closing?, show p.size - (start + 1)
      = t.length + (p.size - (start + 1 + t.length + 1) + 1) by omega,
    closingFrom?_of_nested ht ht', closingFrom?_loopEnd_zero hclose]

/-- The partner of the bracket that closes a loop is the one before the body. -/
theorem opening?_of_holds {start : Nat} {t u : List Symbol} (ht : Nested t)
    (h : p.Holds start (.loopStart :: (t ++ .loopEnd :: u))) :
    p.opening? (start + 1 + t.length) = some start := by
  obtain ⟨hopen, hrest⟩ := h
  rw [opening?, openingFrom?_of_nested ht (holds_append.mp hrest).1,
    openingFrom?_loopStart_zero hopen]

/-- The bracket at the first position jumps to the one at the second. -/
def Partner (p : Program) (i j : Nat) : Prop :=
  p.symbolAt? i = some .loopStart ∧ p.closing? i = some j ∨
    p.symbolAt? i = some .loopEnd ∧ p.opening? i = some j

/-- Every bracket of a nested text has its partner there. -/
theorem exists_partner_of_nested {t : List Symbol} (ht : Nested t) {start : Nat}
    (h : p.Holds start t) {i : Nat} (hlo : start ≤ i) (hhi : i < start + t.length)
    (hi : p.symbolAt? i = some .loopStart ∨ p.symbolAt? i = some .loopEnd) :
    ∃ j, p.Partner i j ∧ start ≤ j ∧ j < start + t.length := by
  -- by induction on the nesting: in each case the partner lies in the part that holds the bracket.
  induction ht generalizing start with
  | nil => simp at hhi; omega
  | @act a t _ ih =>
    rw [List.length_cons] at hhi ⊢
    rcases Nat.eq_or_lt_of_le hlo with rfl | hlt
    · simp [h.1] at hi
    · obtain ⟨j, hj, hjlo, hjhi⟩ := ih h.2 hlt (by omega)
      exact ⟨j, hj, by omega, by omega⟩
  | @loop t u ht _ iht ihu =>
    obtain ⟨ht', hclose, hu⟩ := holds_append.mp h.2
    have hlen : (Symbol.loopStart :: (t ++ .loopEnd :: u)).length
        = t.length + u.length + 2 := by simp; omega
    rw [hlen] at hhi ⊢
    -- the position is in the loop's body, at its end, behind it or at its start
    rcases Nat.lt_trichotomy i (start + 1 + t.length) with hbody | rfl | hbehind
    · rcases Nat.eq_or_lt_of_le hlo with rfl | hlt
      · exact ⟨_, .inl ⟨h.1, closing?_of_holds ht h⟩, by omega, by omega⟩
      · obtain ⟨j, hj, hjlo, hjhi⟩ := iht ht' hlt hbody
        exact ⟨j, hj, by omega, by omega⟩
    · exact ⟨_, .inr ⟨hclose, opening?_of_holds ht h⟩, by omega, by omega⟩
    · obtain ⟨j, hj, hjlo, hjhi⟩ := ihu hu hbehind (by omega)
      exact ⟨j, hj, by omega, by omega⟩

theorem Partner.unique {i j k : Nat} (hj : p.Partner i j) (hk : p.Partner i k) : j = k := by
  rcases hj with ⟨hi, hj⟩ | ⟨hi, hj⟩ <;> rcases hk with ⟨hi', hk⟩ | ⟨hi', hk⟩ <;> simp_all

/-! ## Scans that start outside of a nested text -/

/-- A scan forward finds its position, or goes on with some number of open loops. -/
theorem closingFrom?_succ_eq_some {remaining depth position j : Nat}
    (h : p.closingFrom? (remaining + 1) depth position = some j) :
    (j = position ∧ p.symbolAt? position = some .loopEnd) ∨
      ∃ d, p.closingFrom? remaining d (position + 1) = some j := by
  rw [closingFrom?.eq_def] at h
  simp only at h
  split at h
  · exact .inr ⟨_, h⟩
  · rename_i hend
    split at h
    · exact .inl ⟨(Option.some.inj h).symm, hend⟩
    · exact .inr ⟨_, h⟩
  · exact .inr ⟨_, h⟩

/-- A scan back finds its position, or goes on with some number of open loops. -/
theorem openingFrom?_succ_eq_some {position depth j : Nat}
    (h : p.openingFrom? (position + 1) depth = some j) :
    (j = position ∧ p.symbolAt? position = some .loopStart) ∨
      ∃ d, p.openingFrom? position d = some j := by
  rw [openingFrom?.eq_def] at h
  simp only at h
  split at h
  · exact .inr ⟨_, h⟩
  · rename_i hstart
    split at h
    · exact .inl ⟨(Option.some.inj h).symm, hstart⟩
    · exact .inr ⟨_, h⟩
  · exact .inr ⟨_, h⟩

/-- A scan stops at a bracket of the other kind. -/
theorem symbolAt?_of_closingFrom? {remaining depth position j : Nat}
    (h : p.closingFrom? remaining depth position = some j) : p.symbolAt? j = some .loopEnd := by
  induction remaining generalizing depth position with
  | zero => cases h
  | succ remaining ih =>
    rcases closingFrom?_succ_eq_some h with ⟨rfl, hend⟩ | ⟨_, h⟩
    · exact hend
    · exact ih h

/-- What a scan back finds is the start of a loop. -/
theorem symbolAt?_of_openingFrom? {bound depth j : Nat}
    (h : p.openingFrom? bound depth = some j) : p.symbolAt? j = some .loopStart := by
  induction bound generalizing depth with
  | zero => cases h
  | succ position ih =>
    rcases openingFrom?_succ_eq_some h with ⟨rfl, hstart⟩ | ⟨_, h⟩
    · exact hstart
    · exact ih h

/-- A scan forward finds nothing before the position where it starts. -/
theorem le_of_closingFrom? {remaining depth position j : Nat}
    (h : p.closingFrom? remaining depth position = some j) : position ≤ j := by
  induction remaining generalizing depth position with
  | zero => cases h
  | succ remaining ih =>
    rcases closingFrom?_succ_eq_some h with ⟨rfl, _⟩ | ⟨_, h⟩
    · exact Nat.le_refl j
    · exact Nat.le_of_succ_le (ih h)

/-- A scan back finds nothing behind the position where it starts. -/
theorem lt_of_openingFrom? {bound depth j : Nat} (h : p.openingFrom? bound depth = some j) :
    j < bound := by
  induction bound generalizing depth with
  | zero => cases h
  | succ position ih =>
    rcases openingFrom?_succ_eq_some h with ⟨rfl, _⟩ | ⟨_, h⟩
    · exact Nat.lt_succ_self j
    · exact Nat.lt_succ_of_lt (ih h)

/-- A scan forward finds nothing behind the positions that remain to it. -/
theorem lt_of_closingFrom? {remaining depth position j : Nat}
    (h : p.closingFrom? remaining depth position = some j) : j < position + remaining := by
  induction remaining generalizing depth position with
  | zero => cases h
  | succ remaining ih =>
    rcases closingFrom?_succ_eq_some h with ⟨rfl, _⟩ | ⟨_, h⟩
    · omega
    · have hlt := ih h
      omega

/-- A scan that stops does so however far it might have gone. -/
theorem closingFrom?_prolong {remaining depth position j : Nat}
    (h : p.closingFrom? remaining depth position = some j) {remaining' : Nat}
    (hle : remaining ≤ remaining') : p.closingFrom? remaining' depth position = some j := by
  induction remaining generalizing depth position remaining' with
  | zero => cases h
  | succ remaining ih =>
    obtain ⟨rest, rfl⟩ : ∃ rest, remaining' = rest + 1 := ⟨remaining' - 1, by omega⟩
    have hle' : remaining ≤ rest := Nat.le_of_succ_le_succ hle
    by_cases hstart : p.symbolAt? position = some .loopStart
    · rw [closingFrom?_loopStart hstart] at h ⊢
      exact ih h hle'
    by_cases hend : p.symbolAt? position = some .loopEnd
    · cases depth with
      | zero => rwa [closingFrom?_loopEnd_zero hend] at h ⊢
      | succ depth =>
        rw [closingFrom?_loopEnd hend] at h ⊢
        exact ih h hle'
    · rw [closingFrom?_pass hstart hend] at h ⊢
      exact ih h hle'

/-- A scan forward from before a nested text does not stop in it. -/
theorem closingFrom?_outside {t : List Symbol} (ht : Nested t) {start : Nat}
    (h : p.Holds start t) {remaining depth position j : Nat} (hp : position + remaining = p.size)
    (hlo : position ≤ start) (hj : p.closingFrom? remaining depth position = some j) :
    j < start ∨ start + t.length ≤ j := by
  induction remaining generalizing depth position with
  | zero => cases hj
  | succ remaining ih =>
    rcases Nat.eq_or_lt_of_le hlo with rfl | hlt
    -- at the start of the text the scan passes all of it at once
    · have hsize := h.le_size (by omega)
      rw [show remaining + 1 = t.length + (remaining + 1 - t.length) by omega,
        closingFrom?_of_nested ht h] at hj
      exact .inr (le_of_closingFrom? hj)
    · rcases closingFrom?_succ_eq_some hj with ⟨rfl, _⟩ | ⟨_, hj⟩
      · exact .inl hlt
      · exact ih (by omega) hlt hj

/-- A scan back from behind a nested text does not stop in it. -/
theorem openingFrom?_outside {t : List Symbol} (ht : Nested t) {start : Nat}
    (h : p.Holds start t) {bound depth j : Nat} (hhi : start + t.length ≤ bound)
    (hj : p.openingFrom? bound depth = some j) : j < start ∨ start + t.length ≤ j := by
  induction bound generalizing depth with
  | zero => cases hj
  | succ position ih =>
    rcases Nat.eq_or_lt_of_le hhi with heq | hlt
    · rw [← heq, openingFrom?_of_nested ht h] at hj
      exact .inl (lt_of_openingFrom? hj)
    · have hle : start + t.length ≤ position := Nat.le_of_lt_succ hlt
      rcases openingFrom?_succ_eq_some hj with ⟨rfl, _⟩ | ⟨_, hj⟩
      · exact .inr hle
      · exact ih hle hj

/-- The partner of a bracket is in a nested text if and only if the bracket is. -/
theorem Partner.inside_iff {t : List Symbol} (ht : Nested t) {start : Nat} (h : p.Holds start t)
    {i j : Nat} (hij : p.Partner i j) :
    (start ≤ i ∧ i < start + t.length) ↔ (start ≤ j ∧ j < start + t.length) := by
  constructor
  · rintro ⟨hlo, hhi⟩
    obtain ⟨k, hk, hklo, hkhi⟩ := exists_partner_of_nested ht h hlo hhi (hij.imp (·.1) (·.1))
    rw [hij.unique hk]
    exact ⟨hklo, hkhi⟩
  · rintro ⟨hlo, hhi⟩
    -- a scan that starts outside of the text does not stop in it
    rcases hij with ⟨hi, hj⟩ | ⟨hi, hj⟩
    · have hlt := le_of_closingFrom? hj
      have hsize := lt_size_of_symbolAt? hi
      refine ⟨Nat.le_of_not_lt fun hout => ?_, by omega⟩
      have hout' := closingFrom?_outside ht h (by omega) hout hj
      omega
    · have hlt := lt_of_openingFrom? hj
      refine ⟨by omega, Nat.lt_of_not_le fun hout => ?_⟩
      have hout' := openingFrom?_outside ht h hout hj
      omega

end Program

end TapeLowering
