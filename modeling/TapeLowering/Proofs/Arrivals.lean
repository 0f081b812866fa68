import TapeLowering.Proofs.Crossing

/-!
# How often a machine enters the body of a loop

A body is executed as often as the machine comes to its first position. `State.arrivals` are the
workspaces with which it comes to a position within a number of steps, and `State.Arrives` says that
these are all of them until the machine leaves a stretch of the program, or for as long as it does not.

The body of a loop is entered by the two brackets of the loop only: nothing within the body jumps to its
start (`State.Passage.arrivals_eq_nil`). So the machine comes there once for each round of the loop
(`Code.Rounds`), which is `State.arrives_of_rounds`, by induction on the rounds. The last round need not
come to its end.
-/

namespace TapeLowering

namespace State

variable {p : Program} {lo hi position n m : Nat} {s t : State} {starts : List Workspace}

/-! ## Arrivals at a position -/

/-- The workspaces with which a machine comes to a position within a number of steps. -/
def arrivals (p : Program) (position : Nat) : Nat → State → List Workspace
  | 0, _ => []
  | n + 1, s =>
    match s.step p with
    | .ok t => (if t.counter = position then [t.toWorkspace] else []) ++ arrivals p position n t
    | .error _ => []

/-- The arrivals of some steps are those of the first step and those of the others. -/
theorem arrivals_succ (h : s.step p = .ok t) (position n : Nat) : arrivals p position (n + 1) s
    = (if t.counter = position then [t.toWorkspace] else []) ++ arrivals p position n t := by
  rw [arrivals, h]

theorem arrivals_one (h : s.step p = .ok t) (position : Nat) :
    arrivals p position 1 s = if t.counter = position then [t.toWorkspace] else [] :=
  (arrivals_succ h position 0).trans (List.append_nil _)

/-- What a machine comes to on the way from a state comes behind what it came to on the way there. -/
theorem Passage.arrivals_add (h : Passage p lo hi n s t) (position m : Nat) :
    arrivals p position (n + m) s = arrivals p position n s ++ arrivals p position m t := by
  induction h with
  | refl s => rw [Nat.zero_add, arrivals, List.nil_append]
  | step _ _ hs _ ih =>
    rw [Nat.succ_add, arrivals_succ hs, arrivals_succ hs, ih, List.append_assoc]

/-- With more steps there are more arrivals, behind the others. -/
theorem arrivals_of_le (p : Program) (position : Nat) (s : State) (hle : n ≤ m) :
    arrivals p position n s <+: arrivals p position m s := by
  induction n generalizing s m with
  | zero => exact List.nil_prefix
  | succ n ih =>
    obtain ⟨m, rfl⟩ : ∃ k, m = k + 1 := ⟨m - 1, by omega⟩
    rw [arrivals, arrivals]
    cases s.step p with
    | ok t => exact (List.prefix_append_right_inj _).mpr (ih t (Nat.le_of_succ_le_succ hle))
    | error e => exact List.prefix_rfl

/-- From within the text of some code a step leads behind its first position, and not beyond its end. -/
theorem counter_of_step {c : Code} (h : p.Holds lo c.symbols) (hlo : lo ≤ s.counter)
    (hhi : s.counter < lo + c.size) (hs : s.step p = .ok t) :
    lo < t.counter ∧ t.counter ≤ lo + c.size := by
  rw [← Code.length_symbols] at hhi ⊢
  have hsymbol := h.symbolAt? (i := s.counter - lo) (by omega)
  rw [Nat.add_sub_cancel' hlo] at hsymbol
  obtain ⟨u, hu, rfl⟩ := (step_eq_ok_iff (Program.lt_size_of_symbolAt? hsymbol)).mp hs
  have hinside : lo ≤ u.counter ∧ u.counter < lo + c.symbols.length := by
    rcases counter_of_obey hu with heq | hjump
    · rw [heq]
      exact ⟨hlo, hhi⟩
    · exact (Program.Partner.inside_iff (Code.nested_symbols c) h hjump).mp ⟨hlo, hhi⟩
  exact ⟨Nat.lt_succ_of_le hinside.1, hinside.2⟩

/-- On its way through the text of some code a machine comes neither to its first position nor beyond its
end. -/
theorem Passage.arrivals_eq_nil {c : Code} (h : p.Holds lo c.symbols)
    (hposition : position ≤ lo ∨ lo + c.size < position)
    (hpassage : Passage p lo (lo + c.size) n s t) : arrivals p position n s = [] := by
  induction hpassage with
  | refl s => rfl
  | step hlo hhi hs _ ih =>
    have hnext := counter_of_step h hlo hhi hs
    rw [arrivals_succ hs, ih, if_neg (by omega)]
    rfl

/-! ## All arrivals on a stretch of the program -/

/-- The machine comes to a position with these workspaces, one after the other and at no other times,
until it leaves a stretch of the program or for as long as it does not. -/
def Arrives (p : Program) (lo hi position : Nat) (s : State) (starts : List Workspace) : Prop :=
  (∃ n t, Passage p lo hi n s t ∧ arrivals p position n s = starts) ∧
  ∀ n t, Passage p lo hi n s t → arrivals p position n s <+: starts

/-- A passage comes before the arrivals from its end on. -/
theorem Arrives.prepend (hs : Passage p lo hi n s t) (h : Arrives p lo hi position t starts) :
    Arrives p lo hi position s (arrivals p position n s ++ starts) := by
  obtain ⟨⟨m, u, hu, heq⟩, hall⟩ := h
  refine ⟨⟨n + m, u, hs.trans hu, by rw [hs.arrivals_add, heq]⟩, fun k v hv => ?_⟩
  rcases Nat.le_total k n with hle | hle
  · exact (arrivals_of_le p position s hle).trans (List.prefix_append _ _)
  · have hrest := hall (k - n) v (hs.prolong hv hle)
    rw [← Nat.add_sub_cancel' hle, hs.arrivals_add]
    exact (List.prefix_append_right_inj _).mpr hrest

/-- There are no arrivals behind the last state on the stretch. -/
theorem arrives_of_last (hs : Passage p lo hi n s t)
    (ht : lo ≤ t.counter → t.counter < hi → ∃ e, t.step p = .error e) :
    Arrives p lo hi position s (arrivals p position n s) :=
  ⟨⟨n, t, hs, rfl⟩, fun _ _ hu => arrivals_of_le p position s (hs.le_of_last ht hu)⟩

/-- A step to the position comes before the arrivals from there on. -/
theorem Arrives.enter (hlo : lo ≤ s.counter) (hhi : s.counter < hi) (hs : s.step p = .ok t)
    (ht : t.counter = position) (h : Arrives p lo hi position t starts) :
    Arrives p lo hi position s (t.toWorkspace :: starts) := by
  have hall := h.prepend (.single hlo hhi hs)
  rwa [arrivals_one hs, if_pos ht] at hall

section

variable {c : Code} {first last : Nat}

/-- Code that is done adds nothing to the arrivals behind it, unless the position is in its text. -/
theorem arrives_of_done (h : p.Holds lo c.symbols) (hfirst : first ≤ lo) (hlast : lo + c.size ≤ last)
    (hposition : position ≤ lo ∨ lo + c.size < position) (hs : s.counter = lo) {fuel : Nat}
    {w : Workspace} (hdone : c.run fuel s.toWorkspace = .done w)
    (hnext : ∀ t : State, t.counter = lo + c.size → t.toWorkspace = w →
      Arrives p first last position t starts) : Arrives p first last position s starts := by
  obtain ⟨n, t, ht, hcounter, hw⟩ := (leaves_iff (fun fuel => follows_run fuel c h hs) w).mpr ⟨fuel, hdone⟩
  have hall := (hnext t hcounter hw).prepend (ht.widen hfirst hlast)
  rwa [ht.arrivals_eq_nil h hposition] at hall

/-- Code that does not come to its end never leads to its own start again, and not beyond its end. -/
theorem arrives_of_not_done (h : p.Holds lo c.symbols) (hfirst : first ≤ lo)
    (hlast : lo + c.size ≤ last) (hposition : position ≤ lo ∨ lo + c.size < position)
    (hs : s.counter = lo) (hdone : ∀ fuel w, c.run fuel s.toWorkspace ≠ .done w) :
    Arrives p first last position s [] := by
  refine ⟨⟨0, s, .refl s, rfl⟩, fun n t ht => ?_⟩
  -- there is a passage through the code that is not shorter than the given one
  obtain ⟨k, u, hu, hend⟩ := follows_run (n + 1) c h hs
  have hle : n ≤ k := by
    cases ho : c.run (n + 1) s.toWorkspace with
    | done w => exact absurd ho (hdone _ w)
    | failed fault w =>
      rw [ho] at hend
      exact (hu.widen hfirst hlast).le_of_last (fun _ _ => ⟨_, hend.2.2.1⟩) ht
    | unfinished =>
      rw [ho] at hend
      exact Nat.le_of_succ_le hend.2.2
  exact hu.arrivals_eq_nil h hposition ▸ arrivals_of_le p position s hle

end

end State

/-! ## The rounds of a loop -/

/-- The workspaces with which the rounds of a loop start, where the last round need not come to its end. -/
inductive Code.Rounds (body : Code) : Workspace → List Workspace → Prop where
  | stop {w : Workspace} : w.isZero = true → Rounds body w []
  | round {w w' : Workspace} {starts : List Workspace} {fuel : Nat} : w.isZero = false →
      body.run fuel w = .done w' → Rounds body w' starts → Rounds body w (w :: starts)
  | last {w : Workspace} : w.isZero = false → (∀ fuel w', body.run fuel w ≠ .done w') →
      Rounds body w [w]

namespace State

variable {p : Program} {lo first : Nat} {body : Code} {s : State} {w : Workspace}
  {starts : List Workspace}

/-- The machine comes to the body of a loop once for each round. -/
theorem arrives_of_rounds (hrounds : body.Rounds w starts)
    (h : p.Holds lo (.loopStart :: (body.symbols ++ [.loopEnd]))) (hfirst : first ≤ lo)
    (hs : s.counter = lo ∨ s.counter = lo + 1 + body.size) (hw : s.toWorkspace = w) :
    Arrives p first (lo + 1 + body.size + 1) (lo + 1) s starts := by
  have hnested := Code.nested_symbols body
  have hbody : p.Holds (lo + 1) body.symbols := (Program.holds_append.mp h.2).1
  -- by induction on the rounds, from either bracket of the loop
  induction hrounds generalizing s with
  | stop hz =>
    subst hw
    obtain ⟨r, hr, hcounter, -⟩ := exists_step_behind hnested h (by rwa [Code.length_symbols]) hz
    rw [Code.length_symbols] at hcounter
    have hnone : arrivals p (lo + 1) 1 s = [] := by
      rw [arrivals_one hr]
      exact if_neg (by omega)
    rw [← hnone]
    exact arrives_of_last (.single (by omega) (by omega) hr) fun _ hlt =>
      absurd hcounter (Nat.ne_of_lt hlt)
  | round hz hdone _ ih =>
    subst hw
    obtain ⟨r, hr, hcounter, hws⟩ := exists_step_into hnested h (by rwa [Code.length_symbols]) hz
    rw [← hws] at hdone ⊢
    refine .enter (by omega) (by omega) hr hcounter ?_
    exact arrives_of_done hbody (Nat.le_succ_of_le hfirst) (Nat.le_succ _) (.inl (Nat.le_refl _))
      hcounter hdone fun t ht hwt => ih (.inr ht) hwt
  | last hz hnot =>
    subst hw
    obtain ⟨r, hr, hcounter, hws⟩ := exists_step_into hnested h (by rwa [Code.length_symbols]) hz
    rw [← hws] at hnot ⊢
    refine .enter (by omega) (by omega) hr hcounter ?_
    exact arrives_of_not_done hbody (Nat.le_succ_of_le hfirst) (Nat.le_succ _) (.inl (Nat.le_refl _))
      hcounter hnot

end State

/-! ## Arrivals at a part of a text -/

/-- Wherever the three texts stand in a program, one after the other, and however many steps were done
before, a machine that comes to the first one with a workspace enters the second one with `starts`, until
it leaves the three or for as long as it does not. -/
def Workspace.Enters (front inner back : String) (w : Workspace) (starts : List Workspace) : Prop :=
  ∀ (before after : String) (steps : Nat),
    State.Arrives (.ofText (before ++ (front ++ inner ++ back) ++ after)) before.utf8ByteSize
      (before.utf8ByteSize + (front ++ inner ++ back).utf8ByteSize)
      (before.utf8ByteSize + front.utf8ByteSize) ⟨w, before.utf8ByteSize, steps⟩ starts

namespace Code

/-- The text of a loop behind some code, where the text of the loop's body comes in two parts. -/
theorem text_framed (lead d close : Code) : text (lead ++ [.loop (d ++ close)])
    = lead.text ++ "[" ++ d.text ++ (close.text ++ "]") := by
  rw [text_of_symbols (symbols_append lead _)]
  simp [text, symbols, Instruction.symbols, Symbol.toChar, String.ofList_append, String.append_assoc]

/-- Behind some code that is done, the machine enters the first part of the body of a loop once for each
round of the loop. -/
theorem enters_of_rounds {lead d close : Code} {n : Nat} {w w₀ : Workspace} {starts : List Workspace}
    (hlead : lead.run n w = .done w₀) (hrounds : (d ++ close).Rounds w₀ starts) :
    w.Enters (lead.text ++ "[") d.text (close.text ++ "]") starts := by
  intro before after steps
  have hholds := Program.holds_context before after (lead ++ [.loop (d ++ close)])
  rw [symbols_append, Program.holds_append, length_symbols] at hholds
  obtain ⟨hfirst, hloop⟩ := hholds
  rw [symbols, symbols, List.append_nil, Instruction.symbols] at hloop
  have hfront : before.utf8ByteSize + (lead.text ++ "[").utf8ByteSize
      = before.utf8ByteSize + lead.size + 1 := by
    rw [String.utf8ByteSize_append, utf8ByteSize_text]
    rfl
  have hend : before.utf8ByteSize + (text (lead ++ [.loop (d ++ close)])).utf8ByteSize
      = before.utf8ByteSize + lead.size + 1 + (d ++ close).size + 1 := by
    rw [utf8ByteSize_text, size_append, size, size, Instruction.size]
    omega
  rw [hfront, ← text_framed, hend]
  exact State.arrives_of_done hfirst (Nat.le_refl _) (by omega) (.inr (Nat.lt_succ_self _)) rfl hlead
    fun t ht hwt => State.arrives_of_rounds hrounds hloop (Nat.le_add_right _ _) (.inl ht) hwt

end Code

end TapeLowering
