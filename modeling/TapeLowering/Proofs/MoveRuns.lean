import Mathlib.Data.List.SplitBy
import TapeLowering.Proofs.Settled

/-!
# Runs of moves

Where the pointer goes from one cell to another, the text has as many equal moves as the cells are apart.
The maximal runs of moves in a text are such legs of its pointer if no two of them meet, and they do not
meet if something else stands between any two of them.

`Parted` says this of a text and its legs, and that the text does not end in a move. So it is kept when
texts are put together (`Parted.append`), and code in normal form with such a text has no two adjacent
moves at any nesting level (`movesApart_of_level`).
-/

namespace TapeLowering

/-- Whether a symbol moves the pointer. -/
def Symbol.isMove : Symbol → Bool
  | .act .right | .act .left => true
  | .act _ | .loopStart | .loopEnd => false

/-- The maximal runs of moves in a text, in whatever directions they go. -/
def moveRuns (t : List Symbol) : List (List Symbol) :=
  (t.splitBy fun a b => a.isMove && b.isMove).filter (·.any Symbol.isMove)

/-- A way of the pointer from one cell to another. -/
structure Leg where
  /-- The cell where it starts. -/
  start : Nat
  /-- The cell where it ends. -/
  finish : Nat
  deriving Repr, DecidableEq

namespace Leg

/-- Whether the pointer stays where it is. -/
def isIdle (l : Leg) : Bool := l.start == l.finish

/-- One move for each cell on the shortest way. -/
def symbols (l : Leg) : List Symbol :=
  List.replicate ((l.finish : Int) - l.start).natAbs
    (.act (if l.start ≤ l.finish then .right else .left))

variable {l : Leg} {s : Symbol}

theorem isMove_of_mem (h : s ∈ l.symbols) : s.isMove = true := by
  rw [symbols] at h
  rw [List.eq_of_mem_replicate h]
  split <;> rfl

/-- A leg without moves goes nowhere. -/
theorem symbols_eq_nil_iff : l.symbols = [] ↔ l.isIdle = true := by
  rw [symbols, List.replicate_eq_nil_iff, isIdle, beq_iff_eq]
  omega

end Leg

/-- The moves of an amount are those of a leg that goes as far. -/
theorem Amount.symbols_right {a : Amount} {start finish : Nat} (h : a.val = (finish : Int) - start) :
    (Instruction.right a).symbols = Leg.symbols ⟨start, finish⟩ := by
  rw [Instruction.symbols, magnitude, direction, h, Leg.symbols]
  have hdirection : 0 ≤ (finish : Int) - start ↔ start ≤ finish := by omega
  simp only [hdirection]

/-! ## The runs of a text and of its parts -/

section Runs

variable {t u : List Symbol}

/-- Two parts of a text have their own runs if no run goes on from one to the other. -/
theorem moveRuns_append (h : ∀ a ∈ t.getLast?, ∀ b ∈ u.head?, (a.isMove && b.isMove) = false) :
    moveRuns (t ++ u) = moveRuns t ++ moveRuns u := by
  rw [moveRuns, List.splitBy_append h, List.filter_append]
  rfl

/-- Without moves there are no runs of moves. -/
theorem moveRuns_eq_nil (h : ∀ s ∈ t, s.isMove = false) : moveRuns t = [] := by
  rw [moveRuns, List.filter_eq_nil_iff]
  intro run hrun hany
  obtain ⟨s, hs, hmove⟩ := List.any_eq_true.mp hany
  have hmem : s ∈ t := by
    rw [← List.flatten_splitBy (fun a b => a.isMove && b.isMove) t]
    exact List.mem_flatten_of_mem hrun hs
  rw [h s hmem] at hmove
  cases hmove

/-- A leg is one run, or none if it goes nowhere. -/
theorem moveRuns_leg (l : Leg) : moveRuns l.symbols = ([l].filter (!·.isIdle)).map Leg.symbols := by
  cases hidle : l.isIdle with
  | true =>
    rw [Leg.symbols_eq_nil_iff.mpr hidle, List.filter_cons_of_neg (by simp [hidle])]
    rfl
  | false =>
    have hne : l.symbols ≠ [] := fun h => by simp [Leg.symbols_eq_nil_iff.mp h] at hidle
    have hchain : l.symbols.IsChain fun a b => (a.isMove && b.isMove) = true := by
      refine List.isChain_replicate_of_rel _ ?_
      split <;> rfl
    have hany : l.symbols.any Symbol.isMove = true :=
      List.any_eq_true.mpr ⟨_, List.head_mem hne, Leg.isMove_of_mem (List.head_mem hne)⟩
    rw [moveRuns, List.splitBy_of_isChain hne hchain]
    simp [hany, hidle]

end Runs

/-! ## Texts without turns -/

/-- Whether two symbols are moves in opposite directions. -/
def Symbol.turns (a b : Symbol) : Bool := a.isMove && b.isMove && a != b

/-- Nowhere in a text does the pointer turn back at once. -/
def Straight (t : List Symbol) : Prop := t.IsChain fun a b => a.turns b = false

/-- What is no move is no turn, on either side. -/
theorem turns_of_not_isMove {a : Symbol} (h : a.isMove = false) (b : Symbol) :
    a.turns b = false ∧ b.turns a = false := by
  simp [Symbol.turns, h]

theorem straight_of_not_isMove {t : List Symbol} (h : ∀ s ∈ t, s.isMove = false) : Straight t :=
  (List.pairwise_of_forall_mem_list fun a ha b _ => (turns_of_not_isMove (h a ha) b).1).isChain

/-- All moves of a leg go the same way. -/
theorem straight_leg (l : Leg) : Straight l.symbols :=
  List.isChain_replicate_of_rel _ (by simp [Symbol.turns])

/-- The characters of two moves in opposite directions are not next to each other. -/
theorem Straight.not_adjacent {t : List Symbol} (h : Straight t) {a b : Symbol} (hab : a.turns b = true) :
    ¬ [a.toChar, b.toChar] <:+: t.map Symbol.toChar := by
  rw [List.infix_map_iff]
  rintro ⟨u, hu, hchars⟩
  obtain rfl : [a, b] = u := List.map_injective_iff.mpr Symbol.toChar_injective hchars
  have hpair := List.IsChain.infix h hu
  rw [List.isChain_pair, hab] at hpair
  cases hpair

/-! ## Legs that are parted -/

/-- The runs of moves in a text are legs of the pointer, in the order of the text; legs that go nowhere
do not show. No two of them meet, and none is at the end. -/
structure Parted (t : List Symbol) (legs : List Leg) : Prop where
  runs : moveRuns t = (legs.filter (!·.isIdle)).map Leg.symbols
  straight : Straight t
  settled : ∀ s ∈ t.getLast?, s.isMove = false

namespace Parted

variable {t u : List Symbol} {legs legs' : List Leg}

theorem of_not_isMove (h : ∀ s ∈ t, s.isMove = false) : Parted t [] where
  runs := moveRuns_eq_nil h
  straight := straight_of_not_isMove h
  settled s hs := h s (List.mem_of_getLast? hs)

/-- Two parted texts are parted together: between the last leg of the first one and the first leg of the
second one there is something else. -/
theorem append (h : Parted t legs) (h' : Parted u legs') : Parted (t ++ u) (legs ++ legs') where
  runs := by
    have hseam : ∀ a ∈ t.getLast?, ∀ b ∈ u.head?, (a.isMove && b.isMove) = false :=
      fun a ha b _ => by rw [h.settled a ha, Bool.false_and]
    rw [moveRuns_append hseam, h.runs, h'.runs, List.filter_append, List.map_append]
  straight := List.isChain_append.mpr ⟨h.straight, h'.straight, fun a ha b _ =>
    (turns_of_not_isMove (h.settled a ha) b).1⟩
  settled s hs := by
    rcases eq_or_ne u [] with rfl | hu
    · rw [List.append_nil] at hs
      exact h.settled s hs
    · rw [List.getLast?_append_of_ne_nil t hu] at hs
      exact h'.settled s hs

/-- A leg, and then something that is no move. -/
theorem leg_append (l : Leg) (hne : t ≠ []) (h : ∀ s ∈ t, s.isMove = false) :
    Parted (l.symbols ++ t) [l] where
  runs := by
    have hseam : ∀ a ∈ l.symbols.getLast?, ∀ b ∈ t.head?, (a.isMove && b.isMove) = false :=
      fun a _ b hb => by rw [h b (List.mem_of_mem_head? hb), Bool.and_false]
    rw [moveRuns_append hseam, moveRuns_leg, moveRuns_eq_nil h, List.append_nil]
  straight := List.isChain_append.mpr ⟨straight_leg l, straight_of_not_isMove h, fun a _ b hb =>
    (turns_of_not_isMove (h b (List.mem_of_mem_head? hb)) a).2⟩
  settled s hs := by
    rw [List.getLast?_append_of_ne_nil _ hne] at hs
    exact h s (List.mem_of_getLast? hs)

end Parted

/-! ## Code whose moves do not meet -/

mutual

/-- Whether no two moves are adjacent in the bodies of an instruction. -/
def Instruction.movesApart : Instruction → Bool
  | .right _ | .add _ | .read | .write => true
  | .loop body => Code.movesApart body

/-- Whether no two moves are adjacent at any nesting level. -/
def Code.movesApart : Code → Bool
  | [] => true
  | i :: rest => i.movesApart && !(i.isMove && rest.head?.any Instruction.isMove) && Code.movesApart rest

end

/-- Two moves that do not fuse go in opposite directions. -/
theorem Amount.turns_direction {a b : Amount} (ha : a.isZero = false) (hb : b.isZero = false)
    (h : a.sameSign b = false) :
    (Symbol.act (a.direction .right .left)).turns (.act (b.direction .right .left)) = true := by
  have hna : a.val ≠ 0 := fun hz => by simp [isZero, hz] at ha
  have hnb : b.val ≠ 0 := fun hz => by simp [isZero, hz] at hb
  have hsign : ¬ (0 ≤ a.val ↔ 0 ≤ b.val) := by
    rw [← Bool.not_eq_true, sameSign_iff] at h
    omega
  simp only [direction]
  split <;> split <;> first | rfl | exact absurd (by simp [*]) hsign

/-- In normal form a move stands for at least one symbol. -/
theorem exists_symbols_right {a : Amount} (h : (Instruction.right a).isNormal = true) :
    a.isZero = false ∧ ∃ n, (Instruction.right a).symbols
      = List.replicate (n + 1) (.act (a.direction .right .left)) := by
  have hzero : a.isZero = false := by simpa [Instruction.isNormal] using h
  have hpos : a.magnitude ≠ 0 := by simpa [Amount.isZero, Amount.magnitude] using hzero
  obtain ⟨n, hn⟩ := Nat.exists_eq_succ_of_ne_zero hpos
  exact ⟨hzero, n, by rw [Instruction.symbols, hn]⟩

/-- In normal form a text turns back between two adjacent moves. -/
theorem not_isMove_of_straight {i j : Instruction} {t : List Symbol} (hi : i.isNormal = true)
    (hj : j.isNormal = true) (hfuses : i.fuses j = false)
    (hs : Straight (i.symbols ++ (j.symbols ++ t))) : (i.isMove && j.isMove) = false := by
  cases i with
  | add | read | write | loop => rfl
  | right a =>
    cases j with
    | add | read | write | loop => rfl
    | right b =>
      obtain ⟨ha, n, hn⟩ := exists_symbols_right hi
      obtain ⟨hb, m, hm⟩ := exists_symbols_right hj
      rw [hn, hm] at hs
      have hseam := (List.isChain_append.mp hs).2.2 (.act (a.direction .right .left))
        (by simp [List.getLast?_replicate]) (.act (b.direction .right .left))
        (by simp [List.replicate_succ])
      rw [Amount.turns_direction ha hb hfuses] at hseam
      cases hseam

mutual

/-- In normal form, the moves in the text of an instruction do not meet if they do not turn: two that
meet and go the same way would have been one. By induction on the instruction. -/
theorem Instruction.movesApart_of_straight (i : Instruction) (hi : i.isNormal = true)
    (hs : Straight i.symbols) : i.movesApart = true := by
  cases i with
  | right | add | read | write => rfl
  | loop body =>
    have hbody : Code.symbols body <:+: (Instruction.loop body).symbols := ⟨[.loopStart], [.loopEnd], rfl⟩
    have hinner := List.IsChain.infix hs hbody
    exact Code.movesApart_of_straight body hi hinner

/-- Code in normal form has no adjacent moves if its text does not turn back. -/
theorem Code.movesApart_of_straight (c : Code) (hc : c.isNormal = true) (hs : Straight c.symbols) :
    c.movesApart = true := by
  match c with
  | [] => rfl
  | i :: rest =>
    simp only [Code.isNormal, Bool.and_eq_true, Bool.not_eq_true'] at hc
    obtain ⟨⟨hi, hfuses⟩, hrest⟩ := hc
    obtain ⟨hhead, htail, -⟩ := List.isChain_append.mp hs
    have happart : (i.isMove && rest.head?.any Instruction.isMove) = false := by
      cases rest with
      | nil => exact Bool.and_false _
      | cons j rest =>
        simp only [Code.isNormal, Bool.and_eq_true] at hrest
        exact not_isMove_of_straight hi hrest.1.1 hfuses hs
    simp only [Code.movesApart, happart, Bool.not_false, Bool.and_true, Bool.and_eq_true]
    exact ⟨Instruction.movesApart_of_straight i hi hhead, Code.movesApart_of_straight rest hrest htail⟩

end

end TapeLowering
