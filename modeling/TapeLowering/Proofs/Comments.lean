import TapeLowering.Proofs.Balance
import TapeLowering.Proofs.Embedding
import TapeLowering.Proofs.Layout
import TapeLowering.Proofs.WholeRun

/-!
# Comments do not matter

A program with comments does what its symbols alone do: `Program.bare` is the program of these
symbols, and `Program.rank` says which of them is the next one at a position. A machine on the
program passes the comments before that symbol, and then makes the step of a machine on the symbols
alone (`exists_alike_run`). Passing comments ends, so neither machine runs forever alone.

Two texts with the same symbols have the same bare program, hence they run alike, whatever comments
they have. This covers a text in lines and the canonical text of the same code.
-/

namespace TapeLowering

namespace Program

variable {p : Program}

/-- The symbols of a program, as a program without comments. -/
def bare (p : Program) : Program := ofSymbols p.symbols

/-- How many symbols there are before a position: the number of the symbol there, counted from
zero. -/
def rank (p : Program) (position : Nat) : Nat := (p.before position).length

theorem rank_size (p : Program) : p.rank p.size = p.bare.size := by
  rw [rank, before_size, bare, size_ofSymbols]

/-- A comment has no rank of its own. -/
theorem rank_of_comment {i : Nat} (h : p.symbolAt? i = none) : p.rank (i + 1) = p.rank i := by
  rw [rank, before_succ, h, Option.toList_none, List.append_nil, rank]

theorem rank_of_symbol {i : Nat} {x : Symbol} (h : p.symbolAt? i = some x) :
    p.rank (i + 1) = p.rank i + 1 := by
  rw [rank, before_succ, h, List.length_append, rank]
  rfl

/-- The symbol at a position is in the bare program at its rank. -/
theorem symbolAt?_bare {i : Nat} {x : Symbol} (h : p.symbolAt? i = some x) :
    p.bare.symbolAt? (p.rank i) = some x := by
  have hsplit : p.symbols
      = p.before (i + 1) ++ (p.toList.drop (i + 1)).filterMap Symbol.ofByte? := by
    rw [before, ← List.filterMap_append, List.take_append_drop, symbols]
  rw [bare, symbolAt?_ofSymbols, hsplit, before_succ, h, rank]
  simp

theorem embeds_bare (p : Program) : Embeds p.rank p p.bare where
  symbol h := ⟨symbolAt?_bare h, rank_of_symbol h⟩
  comment _ h := .inl (rank_of_comment h)

/-- A symbol is obeyed in the bare program as it is in the program with comments. -/
theorem obeyedAt_bare {i : Nat} {x : Symbol} (h : p.symbolAt? i = some x) :
    ObeyedAt p.rank p p.bare i :=
  (embeds_bare p).obeyedAt (rank_size p) (fun _ => rfl) h

/-! ## Texts of code -/

theorem symbols_ofText_ofList (cs : List Char) : (ofText (String.ofList cs)).symbols
    = cs.flatMap fun ch => (String.utf8EncodeChar ch).filterMap Symbol.ofByte? := by
  simp [symbols, ofText, String.toUTF8, String.ofList, List.utf8Encode, List.data_toByteArray,
    List.filterMap_flatMap]

/-- Blanks are comments. -/
theorem symbols_ofText_filter (cs : List Char) :
    (ofText (String.ofList (cs.filter (!isBlank ·)))).symbols
      = (ofText (String.ofList cs)).symbols := by
  simp only [symbols_ofText_ofList]
  induction cs with
  | nil => rfl
  | cons ch rest ih =>
    rw [List.filter_cons]
    split
    · rw [List.flatMap_cons, ih, List.flatMap_cons]
    · rename_i hblank
      have hch : ch = ' ' ∨ ch = '\n' :=
        Decidable.or_iff_not_imp_left.mpr (by simpa [isBlank] using hblank)
      have hnone : (String.utf8EncodeChar ch).filterMap Symbol.ofByte? = [] := by
        rcases hch with rfl | rfl <;> rfl
      rw [ih, List.flatMap_cons, hnone, List.nil_append]

/-- Code in lines has the same symbols as its canonical text. -/
theorem symbols_layout (depth : Nat) (c : Code) :
    (ofText (c.layout depth)).symbols = (ofText c.text).symbols := by
  rw [Code.layout, ← symbols_ofText_filter, Code.filter_layoutChars, Code.text]

end Program

namespace State

open Program

variable {p : Program} {s : State}

/-! ## From one symbol to the next -/

/-- A comment does nothing but take a step. -/
theorem step_of_comment (hs : s.counter < p.size) (h : p.symbolAt? s.counter = none) :
    s.step p = .ok s.advance :=
  (step_eq_ok_iff hs).mpr ⟨s, by rw [h]; rfl, rfl⟩

/-- The machine passes all comments until the next symbol, or the end of the program. -/
theorem exists_passage_to_symbol (hs : s.counter ≤ p.size) : ∃ k t, Passage p 0 p.size k s t ∧
    t.toWorkspace = s.toWorkspace ∧ p.rank t.counter = p.rank s.counter ∧
    (t.counter = p.size ∨ ∃ x, p.symbolAt? t.counter = some x) := by
  generalize hn : p.size - s.counter = n
  induction n generalizing s with
  | zero => exact ⟨0, s, .refl s, rfl, rfl, .inl (by omega)⟩
  | succ n ih =>
    have hlt : s.counter < p.size := by omega
    cases hx : p.symbolAt? s.counter with
    | some x => exact ⟨0, s, .refl s, rfl, rfl, .inr ⟨x, hx⟩⟩
    | none =>
      have hstep := step_of_comment hlt hx
      obtain ⟨k, t, ht, hw, hrank, hend⟩ := ih (s := s.advance) hlt (by simp only [advance]; omega)
      exact ⟨k + 1, t, .step (Nat.zero_le _) hlt hstep ht, hw,
        hrank.trans (rank_of_comment hx), hend⟩

/-- How a run of a program compares with one of its symbols alone. -/
inductive Alike (p : Program) : Progress → Progress → Prop where
  | halted {s c : State} : s.toWorkspace = c.toWorkspace → Alike p (.halted s) (.halted c)
  | failed {s c : State} {number : Nat} {fault : Fault} {x : Symbol} :
      s.toWorkspace = c.toWorkspace → p.rank s.counter = number → p.symbolAt? s.counter = some x →
      Alike p (.failed (.fault s.counter fault) s) (.failed (.fault number fault) c)
  | running (s c : State) : Alike p (.running s) (.running c)

/-- Two states that agree in the workspace and in the renumbered position are the same state once
renumbered. -/
theorem renumber_congr {f : Nat → Nat} {t : State} (hw : t.toWorkspace = s.toWorkspace)
    (hcounter : f t.counter = f s.counter) (steps : Nat) :
    s.renumber f steps = t.renumber f steps := by
  simp only [renumber, hw, hcounter]

/-- At its end the program has no symbol left. -/
theorem alike_of_end (hs : s.counter = p.size) (steps n m : Nat) :
    Alike p (s.run p none n) ((s.renumber p.rank steps).run p.bare none m) := by
  have hbare : (s.renumber p.rank steps).counter = p.bare.size := by
    rw [← rank_size, ← hs]
    rfl
  rw [run_of_halted hs, run_of_halted hbare]
  exact .halted rfl

/-- Whatever the symbols alone do in so many steps, the program does as well, in no less steps. -/
theorem exists_alike_run (hs : s.counter ≤ p.size) (steps m : Nat) : ∃ n, m ≤ n ∧
    Alike p (s.run p none n) ((s.renumber p.rank steps).run p.bare none m) := by
  -- by induction on the steps of the machine on the symbols, each of which takes a passage here
  induction m generalizing s steps with
  | zero =>
    obtain ⟨k, t, hpass, hw, hrank, hend⟩ := exists_passage_to_symbol hs
    refine ⟨k + 0, Nat.zero_le _, ?_⟩
    rw [run_of_passage hpass (Nat.le_refl _), renumber_congr hw hrank]
    rcases hend with hend | ⟨x, hx⟩
    · exact alike_of_end hend steps 0 0
    · have hlt : (t.renumber p.rank steps).counter < p.bare.size := (obeyedAt_bare hx).lt
      rw [run_zero (lt_size_of_symbolAt? hx), run_zero hlt]
      exact .running _ _
  | succ m ih =>
    obtain ⟨k, t, hpass, hw, hrank, hend⟩ := exists_passage_to_symbol hs
    have hrun : ∀ n, s.run p none (k + n) = t.run p none n :=
      run_of_passage hpass (Nat.le_refl _)
    rw [renumber_congr hw hrank]
    rcases hend with hend | ⟨x, hx⟩
    · exact ⟨k + (m + 1), Nat.le_add_left _ _, hrun _ ▸ alike_of_end hend steps _ _⟩
    · have hobey := obeyedAt_bare hx
      have hlt := lt_size_of_symbolAt? hx
      have hlt' : (t.renumber p.rank steps).counter < p.bare.size := hobey.lt
      cases hstep : t.step p with
      | ok u =>
        obtain ⟨n, hle, halike⟩ := ih (counter_le_of_step (Nat.le_of_lt hlt) hstep) (steps + 1)
        refine ⟨k + (n + 1), by omega, ?_⟩
        rw [hrun, run_succ hlt hstep, run_succ hlt' (step_renumber_ok hobey hlt hstep steps)]
        exact halike
      | error e =>
        obtain ⟨fault, rfl⟩ := exists_fault_of_step hstep
        refine ⟨k + (m + 1), Nat.le_add_left _ _, ?_⟩
        rw [hrun, run_of_error hlt hstep,
          run_of_error hlt' (step_renumber_error hobey hlt hstep steps)]
        exact .failed (c := t.renumber p.rank steps) rfl rfl hx

/-- If the symbols alone run forever, so does the program. -/
theorem exists_running_of_bare (hs : s.counter ≤ p.size) (steps : Nat)
    (h : ∀ m, ∃ c, (s.renumber p.rank steps).run p.bare none m = .running c) (m : Nat) :
    ∃ t, s.run p none m = .running t := by
  obtain ⟨n, hle, halike⟩ := exists_alike_run hs steps m
  obtain ⟨c, hc⟩ := h m
  rw [hc] at halike
  generalize hr : s.run p none n = r at halike
  cases halike
  exact exists_running_of_le hs hr hle

/-! ## Texts with the same symbols -/

/-- Two programs do the same on some inputs: both halt, or both fail, or both run forever. A failure
is at the symbol of the same number in both. -/
def RunAlike (p q : Program) (inputs : List Cell) : Prop :=
  (∃ n s m t, (start inputs).run p none n = .halted s ∧ (start inputs).run q none m = .halted t ∧
    s.toWorkspace = t.toWorkspace) ∨
  (∃ n s m t fault x, (start inputs).run p none n = .failed (.fault s.counter fault) s ∧
    (start inputs).run q none m = .failed (.fault t.counter fault) t ∧
    s.toWorkspace = t.toWorkspace ∧ p.rank s.counter = q.rank t.counter ∧
    p.symbolAt? s.counter = some x ∧ q.symbolAt? t.counter = some x) ∨
  ((∀ n, ∃ s, (start inputs).run p none n = .running s) ∧
    ∀ n, ∃ t, (start inputs).run q none n = .running t)

/-- Two programs run alike if each of them runs like the program of their symbols, and that one is
done. -/
theorem runAlike_of_alike {q : Program} {inputs : List Cell} (h : q.bare = p.bare) {n m : Nat}
    {b : Progress} (hp : Alike p ((start inputs).run p none n) b)
    (hq : Alike q ((start inputs).run q none m) b) (hdone : ∀ c, b ≠ .running c) :
    RunAlike p q inputs := by
  generalize hr : (start inputs).run p none n = r at hp
  generalize hr' : (start inputs).run q none m = r' at hq
  cases hp with
  | running s c => exact absurd rfl (hdone c)
  | halted hw =>
    cases hq with
    | halted hw' => exact .inl ⟨n, _, m, _, hr, hr', hw.trans hw'.symm⟩
  | failed hw hrank hx =>
    cases hq with
    | failed hw' hrank' hx' =>
      -- both failed at the symbol of one number, so it is the same symbol
      have hy := symbolAt?_bare hx
      have hy' := symbolAt?_bare hx'
      rw [hrank] at hy
      rw [h, hrank', hy, Option.some.injEq] at hy'
      exact .inr (.inl ⟨n, _, m, _, _, _, hr, hr', hw.trans hw'.symm, hrank.trans hrank'.symm, hx,
        hy' ▸ hx'⟩)

/-- Programs with the same symbols run alike: the program of these symbols is done at some time, or it
goes on forever, and so do they. -/
theorem runAlike_of_symbols {q : Program} (h : p.symbols = q.symbols) (inputs : List Cell) :
    RunAlike p q inputs := by
  have hbare : q.bare = p.bare := by rw [bare, bare, h]
  have hp : (start inputs).counter ≤ p.size := Nat.zero_le _
  have hq : (start inputs).counter ≤ q.size := Nat.zero_le _
  by_cases hforever : ∀ m, ∃ c, (start inputs).run p.bare none m = .running c
  · exact .inr (.inr ⟨exists_running_of_bare hp 0 hforever,
      exists_running_of_bare hq 0 (hbare ▸ hforever)⟩)
  · obtain ⟨m, hm⟩ := Classical.not_forall.mp hforever
    obtain ⟨n, _, hpn⟩ := exists_alike_run hp 0 m
    obtain ⟨n', _, hqn⟩ := exists_alike_run hq 0 m
    rw [hbare] at hqn
    exact runAlike_of_alike hbare hpn hqn fun c hc => hm ⟨c, hc⟩

/-- Texts with the same symbols run alike, whatever comments stand between these. In particular, the
layout of code runs like its canonical text. -/
theorem runAlike_text :
    (∀ p q : String, (ofText p).symbols = (ofText q).symbols → ∀ inputs,
      RunAlike (ofText p) (ofText q) inputs) ∧
    ∀ (c : Code) (depth : Nat) (inputs : List Cell),
      RunAlike (ofText (c.layout depth)) (ofText c.text) inputs :=
  ⟨fun _ _ h => runAlike_of_symbols h,
    fun c depth => runAlike_of_symbols (symbols_layout depth c)⟩

theorem runAlike_text_commented :
    (ofText "+[ - ] done.").symbols = (ofText "+[-].").symbols ∧
      RunAlike (ofText "+[ - ] done.") (ofText "+[-].") [] := by
  have h : (ofText "+[ - ] done.").symbols = (ofText "+[-].").symbols := by
    decide +kernel
  exact ⟨h, runAlike_text.1 _ _ h []⟩

end State

end TapeLowering
