import TapeLowering.Proofs.EmittedOutline

/-!
# Surveys of commands

A survey looks at the boundaries between commands. It covers a list of commands if the text of the list
has an outline by which, at every boundary, the pointer is at the cursor that the generation had there
and whatever else is demanded holds.

A list is covered command by command (`coversAll_cons`), and a command by the rule for its constructor.
The rules are about any survey; which cells are known to hold zero, and what that is good for at a
boundary, is up to those who use them.
-/

namespace TapeLowering

open Emitter

mutual

/-- The greatest index of the slots that the code of a command moves to. -/
def Command.reach : Command → Nat
  | .allocate | .release _ | .append _ | .unknown _ => 0
  | .increment x | .decrement x | .reset x | .set x _ | .read x | .write x => x.index
  | .transfer x y | .deduct x y => max x.index y.index
  | .loop x body | .branch x body => max x.index (Command.reachAll body)
  | .scope body | .detach _ body => Command.reachAll body

/-- The greatest index of the slots that the code of some commands moves to. -/
def Command.reachAll : List Command → Nat
  | [] => 0
  | c :: rest => max c.reach (Command.reachAll rest)

end

/-- Whether a command has no body and has nothing to do with fragments. -/
def Command.isPlain : Command → Bool
  | .loop _ _ | .branch _ _ | .scope _ | .detach _ _ | .append _ => false
  | .allocate | .release _ | .increment _ | .decrement _ | .reset _ | .set _ _ | .read _ | .write _
  | .transfer _ _ | .deduct _ _ | .unknown _ => true

/-- The cells that are known to hold zero behind a command without a body. -/
def Command.settle (K : Nat → Bool) : Command → Nat → Bool
  | .increment x | .decrement x | .set x _ | .read x | .write x => forget x K
  | .reset x => learn x K
  | .transfer x y | .deduct x y => learn x (forget y K)
  | .allocate | .release _ | .loop _ _ | .branch _ _ | .scope _ | .detach _ _ | .append _
  | .unknown _ => K

/-- What a survey is about: the program that has the text of the commands, what is given of its runs,
a bound for the pointer, and what is demanded at a boundary. -/
structure Survey where
  /-- The program that has the text of the commands. -/
  program : Program
  /-- What is known of a workspace at a position that a run has reached. -/
  given : Nat → Workspace → Prop
  /-- The greatest index that the pointer may have. -/
  bound : Nat
  /-- What is demanded of the workspace at a boundary with some emitter. -/
  demand : Emitter → Workspace → Prop

namespace Survey

/-- What has to hold at a position where the commands have a boundary. -/
def AtBoundaries (S : Survey) (base : Nat) (e : Emitter) (cs : List Command) (pos : Nat)
    (w : Workspace) : Prop :=
  Within S.bound pos w ∧ ∀ b todo, Boundary base e cs pos b todo →
    w.tape.pointer = b.cursor ∧ S.demand b w

/-- What has to hold at a position where the body of a command has a boundary. -/
def InBodies (S : Survey) (base : Nat) (e : Emitter) (c : Command) (pos : Nat) (w : Workspace) :
    Prop :=
  Within S.bound pos w ∧ ∀ body base' e', Body base e c body base' e' →
    S.AtBoundaries base' e' body pos w

/-- The text of a command has an outline that goes with the survey. -/
def Covers (S : Survey) (base : Nat) (e : Emitter) (c : Command) (K K' : Nat → Bool) : Prop :=
  ∀ e', emit c e = .ok e' → S.program.Holds base e'.code.symbols →
    Outlined S.program S.given (base + e.code.size) (base + e'.code.size)
      (Stands S.bound e.cursor K) (Stands S.bound e'.cursor K') (S.InBodies base e c)

/-- The text of a list of commands has an outline that goes with the survey. -/
def CoversAll (S : Survey) (base : Nat) (e : Emitter) (cs : List Command) (K K' : Nat → Bool) :
    Prop :=
  ∀ e', emitAll cs e = .ok e' → S.program.Holds base e'.code.symbols →
    Outlined S.program S.given (base + e.code.size) (base + e'.code.size)
      (Stands S.bound e.cursor K) (Stands S.bound e'.cursor K') (S.AtBoundaries base e cs)

variable {S : Survey} {base : Nat} {e : Emitter} {c : Command} {cs body rest : List Command}
  {x : Slot} {K K' K₁ : Nat → Bool}

/-- Less may be known to be zero than a command leaves at zero. -/
theorem Covers.weaken (h : S.Covers base e c K K') (hK : ∀ k, K₁ k = true → K' k = true) :
    S.Covers base e c K K₁ := fun e' he hp =>
  (h e' he hp).conseq id (fun _ h => h.weaken hK) fun _ _ _ _ _ h => h

theorem CoversAll.weaken (h : S.CoversAll base e cs K K') (hK : ∀ k, K₁ k = true → K' k = true) :
    S.CoversAll base e cs K K₁ := fun e' he hp =>
  (h e' he hp).conseq id (fun _ h => h.weaken hK) fun _ _ _ _ _ h => h

/-! ## Commands without a body -/

/-- What is emitted for a command without a body has no boundary inside. -/
theorem covers_of_bodiless (hbody : ∀ body base' e', ¬ Body base e c body base' e')
    (h : ∀ e', emit c e = .ok e' → S.program.Holds base e'.code.symbols →
      Outlined S.program S.given (base + e.code.size) (base + e'.code.size)
        (Stands S.bound e.cursor K) (Stands S.bound e'.cursor K') (Within S.bound)) :
    S.Covers base e c K K' := fun e' he hp =>
  (h e' he hp).conseq id (fun _ h => h) fun _ _ _ _ _ h =>
    ⟨h, fun body base' e' hb => absurd hb (hbody body base' e')⟩

/-- A command that emits nothing leaves everything as it is. -/
theorem covers_of_silent (hbody : ∀ body base' e', ¬ Body base e c body base' e')
    (h : ∀ e', emit c e = .ok e' → e'.code = e.code ∧ e'.cursor = e.cursor) :
    S.Covers base e c K K := by
  apply covers_of_bodiless hbody
  intro e' he _
  obtain ⟨hcode, hcursor⟩ := h e' he
  rw [hcode, hcursor]
  exact (Outlined.skip _ _ _ _).conseq id (fun _ h => h) fun _ _ _ _ _ h => h.le

/-- A command without a body is covered as far as the slots are within the bound. -/
theorem covers_of_isPlain (hc : c.isPlain = true) (hreach : c.reach ≤ S.bound) :
    S.Covers base e c K (c.settle K) := by
  cases c with
  | allocate =>
    refine covers_of_silent nofun fun e' he => ?_
    cases he
    exact ⟨rfl, rfl⟩
  | release x =>
    exact covers_of_silent nofun fun _ he => ⟨(release_eq_ok he).1, (release_eq_ok he).2.1⟩
  | increment x | decrement x =>
    exact covers_of_bodiless nofun fun _ he hp => outlined_add _ he hp hreach
  | reset x => exact covers_of_bodiless nofun fun _ he hp => outlined_reset he hp hreach
  | set x v => exact covers_of_bodiless nofun fun _ he hp => outlined_set he hp hreach
  | read x =>
    exact covers_of_bodiless nofun fun _ he hp =>
      outlined_onCell (n := 1) (a := .read) rfl nofun nofun he hp hreach
  | write x =>
    exact covers_of_bodiless nofun fun _ he hp =>
      outlined_onCell (n := 1) (a := .write) rfl nofun nofun he hp hreach
  | transfer x y | deduct x y =>
    obtain ⟨hx, hy⟩ := Nat.max_le.mp hreach
    exact covers_of_bodiless nofun fun _ he hp => outlined_drain he hp hx hy
  | unknown word =>
    intro e' he
    cases he
  | loop | branch | scope | detach | append => cases hc

/-! ## Loops, branches and scopes -/

/-- What has to hold at a position where a body between two brackets has a boundary. -/
def Bracketed (S : Survey) (base : Nat) (e : Emitter) (x : Slot) (body : List Command) (pos : Nat)
    (w : Workspace) : Prop :=
  Within S.bound pos w ∧ ∀ e₁, seek x e = .ok e₁ →
    S.AtBoundaries (base + e₁.code.size + 1) { e₁ with code := [] } body pos w

/-- The boundaries in the body of a loop or a branch lie between the two brackets. -/
theorem inBodies_of_bracketed (hc : c = .loop x body ∨ c = .branch x body) {e' : Emitter}
    (he : emit c e = .ok e') {pos : Nat} {w : Workspace}
    (h : AlongLoop S.bound base x (emitAll body) e (S.Bracketed base e x body) pos w) :
    S.InBodies base e c pos w := by
  refine ⟨h.1, fun body' base' eb hbody => ⟨h.1, fun b todo hb => ?_⟩⟩
  obtain ⟨eb', heb, _, _⟩ := hbody.exists_emitAll he
  have hrange := hb.mem_range heb
  have hseek : ∃ e₁, seek x e = .ok e₁ ∧ body' = body ∧ base' = base + e₁.code.size + 1 ∧
      eb = { e₁ with code := [] } := by
    rcases hc with rfl | rfl
    · cases hbody with
      | loop h₁ => exact ⟨_, h₁, rfl, rfl, rfl⟩
    · cases hbody with
      | branch h₁ => exact ⟨_, h₁, rfl, rfl, rfl⟩
  obtain ⟨e₁, h₁, rfl, rfl, rfl⟩ := hseek
  exact ((h.2 e₁ eb' h₁ heb hrange.1 hrange.2).2 e₁ h₁).2 b todo hb

/-- The text of a body between two brackets is that of a list of commands. -/
theorem outlinedBody_of_coversAll {J J' : Nat → Bool} (hbody : ∀ e₁, seek x e = .ok e₁ →
      S.CoversAll (base + e₁.code.size + 1) { e₁ with code := [] } body J J') :
    OutlinedBody S.program S.given S.bound base x (emitAll body) e J J'
      (S.Bracketed base e x body) := by
  intro e₁ e₂ h₁ h₂ hp
  refine (hbody e₁ h₁ e₂ h₂ hp).conseq id (fun _ h => h) fun _ _ _ _ _ h => ⟨h.1, fun _ h₁' => ?_⟩
  exact Except.ok.inj (h₁.symm.trans h₁') ▸ h

/-- A loop or a branch is covered by what its body keeps, and its slot is zero behind it. -/
theorem covers_bracketed (hc : c = .loop x body ∨ c = .branch x body) (hx : x.index ≤ S.bound)
    (J : Nat → Bool) {J' : Nat → Bool} (hJK : ∀ k, J k = true → K k = true)
    (hJJ' : ∀ k, J k = true → J' k = true)
    (hbody : ∀ e₁, seek x e = .ok e₁ →
      S.CoversAll (base + e₁.code.size + 1) { e₁ with code := [] } body J J') :
    S.Covers base e c K (learn x J) := by
  intro e' he hp
  have hround := outlinedBody_of_coversAll hbody
  have houtline : Outlined S.program S.given (base + e.code.size) (base + e'.code.size)
      (Stands S.bound e.cursor K) (Stands S.bound e'.cursor (learn x J))
      (AlongLoop S.bound base x (emitAll body) e (S.Bracketed base e x body)) := by
    rcases hc with rfl | rfl
    · exact outlined_loop J he hp hx (·.1) hJK hJJ' hround
    · exact outlined_branch J he hp hx (·.1) hJK hJJ' hround
  exact houtline.conseq id (fun _ h => h) fun _ _ _ _ _ h => inBodies_of_bracketed hc he h

/-- A scope is covered by its body, and what is given where it is left tells more about it. -/
theorem covers_scope (hbody : S.CoversAll base e.allocate body K K₁)
    (hexit : ∀ {e₁ w}, emitAll body e.allocate = .ok e₁ → S.given (base + e₁.code.size) w →
      Stands S.bound e₁.cursor K₁ w → ∀ k, K' k = true → w.tape.cellAt k = 0) :
    S.Covers base e (.scope body) K K' := by
  intro e' he hp
  obtain ⟨e₁, h₁, h₂⟩ := scope_eq_ok_iff.mp he
  obtain ⟨hcode, hcursor, _⟩ := release_eq_ok h₂
  rw [hcode] at hp ⊢
  rw [hcursor]
  refine (hbody e₁ h₁ hp).conseq id (fun hg h => ⟨h.pointer, h.within, hexit h₁ hg h⟩)
    fun _ _ _ _ _ h => ⟨h.1, fun body' base' eb hb => ?_⟩
  cases hb
  exact h

/-! ## Lists of commands -/

/-- An empty list has one boundary, where it starts. -/
theorem coversAll_nil (hD : ∀ w, Stands S.bound e.cursor K w → S.demand e w) :
    S.CoversAll base e [] K K := by
  intro e' he hp
  cases he
  refine (Outlined.skip _ _ _ _).conseq id (fun _ h => h) fun _ _ _ _ _ h =>
    ⟨h.le, fun b todo hb => ?_⟩
  cases hb
  exact ⟨h.pointer, hD _ h⟩

/-- A list is covered by an outline of its first part, if every boundary is at its start, or taken
care of by that outline, or one of the rest. -/
theorem outlined_of_split {e₁ e' : Emitter} {G : Nat → Workspace → Prop}
    (hD : ∀ w, Stands S.bound e.cursor K w → S.demand e w)
    (h : Outlined S.program S.given (base + e.code.size) (base + e₁.code.size)
      (Stands S.bound e.cursor K) (Stands S.bound e₁.cursor K₁) G)
    (hG : ∀ {pos w}, G pos w → Within S.bound pos w) (hext : Extends e₁ e)
    (hrest : S.CoversAll base e₁ rest K₁ K') (h₂ : emitAll rest e₁ = .ok e')
    (hp : S.program.Holds base e'.code.symbols)
    (hsplit : ∀ {pos b todo}, Boundary base e cs pos b todo → b = e ∧ pos = base + e.code.size ∨
      (pos ≤ base + e₁.code.size ∧ ∀ w, G pos w → w.tape.pointer = b.cursor ∧ S.demand b w) ∨
      Boundary base e₁ rest pos b todo) :
    Outlined S.program S.given (base + e.code.size) (base + e'.code.size)
      (Stands S.bound e.cursor K) (Stands S.bound e'.cursor K') (S.AtBoundaries base e cs) := by
  have hsize₁ := hext.size_le
  have hsize₂ := (extends_of_emitAll h₂).size_le
  refine (h.seq (hrest e' h₂ hp) (by omega) (by omega)).conseq id (fun _ h => h)
    fun {pos w} _ _ _ hstart _ h => ⟨?_, fun b todo hb => ?_⟩
  · rcases Nat.le_total pos (base + e₁.code.size) with hle | hle
    · exact hG (h.1 hle)
    · exact (h.2 hle).1
  -- a boundary is at the start, within the first part or one of the rest
  · rcases hsplit hb with ⟨rfl, hpos⟩ | ⟨hle, hfirst⟩ | hb
    · exact ⟨(hstart hpos).pointer, hD w (hstart hpos)⟩
    · exact hfirst w (h.1 hle)
    · exact (h.2 (hb.mem_range h₂).1).2 b todo hb

/-- A list is covered if its first command is, and the others are from where that leads. A boundary is
before the first command, within it or behind it. -/
theorem coversAll_cons (hc : ∀ fragment body, c ≠ .detach fragment body)
    (hD : ∀ w, Stands S.bound e.cursor K w → S.demand e w) (h : S.Covers base e c K K₁)
    (hrest : ∀ e₁, emit c e = .ok e₁ → S.CoversAll base e₁ rest K₁ K') :
    S.CoversAll base e (c :: rest) K K' := by
  intro e' he hp
  obtain ⟨e₁, h₁, h₂⟩ := emitAll_cons_eq_ok_iff.mp he
  have hfirst := h e₁ h₁ (hp.of_extends (extends_of_emitAll h₂))
  refine outlined_of_split hD hfirst (·.1) (extends_of_emit h₁) (hrest e₁ h₁) h₂ hp fun hb => ?_
  cases hb with
  | here => exact .inl ⟨rfl, rfl⟩
  | inside hbody hb =>
    obtain ⟨eb', heb, _, hhi⟩ := hbody.exists_emitAll h₁
    have hrange := hb.mem_range heb
    exact .inr (.inl ⟨by omega, fun w h => (h.2 _ _ _ hbody).2 _ _ hb⟩)
  | behind _ h₁' hb =>
    obtain rfl := Except.ok.inj (h₁.symm.trans h₁')
    exact .inr (.inr hb)
  | insidePair | behindPair => exact absurd rfl (hc _ _)

/-- A fragment that is placed where it is kept is covered like its body, emitted there. -/
theorem coversAll_pair {fragment : String}
    (hD : ∀ w, Stands S.bound e.cursor K w → S.demand e w)
    (hbody : S.CoversAll (base + e.code.size) { e with code := [] } body K K₁)
    (hrest : ∀ e₁, emitAll [.detach fragment body, .append fragment] e = .ok e₁ →
      S.CoversAll base e₁ rest K₁ K') :
    S.CoversAll base e (.detach fragment body :: .append fragment :: rest) K K' := by
  intro e' he hp
  obtain ⟨e₁, e₂, h₁, hpair, hstack, hsymbols, h₂⟩ := emitAll_pair_eq_ok he
  have hend : base + e₂.code.size = base + e.code.size + e₁.code.size := by
    rw [Code.size_of_symbols hsymbols, Code.length_symbols, Nat.add_assoc]
  have hcursor : e₂.cursor = e₁.cursor := by rw [cursor, hstack, cursor]
  -- the text of the fragment is what it adds to the text before it
  have hp₁ := hp.of_extends (extends_of_emitAll h₂)
  rw [hsymbols] at hp₁
  have hp₁ := (Program.holds_append.mp hp₁).2
  rw [Code.length_symbols] at hp₁
  have hfirst := hbody e₁ h₁ hp₁
  rw [← hend, ← hcursor] at hfirst
  refine outlined_of_split hD hfirst (·.1) (extends_of_emitAll hpair) (hrest e₂ hpair) h₂ hp
    fun hb => ?_
  cases hb with
  | here => exact .inl ⟨rfl, rfl⟩
  | inside hbody => cases hbody
  | behind hc => exact absurd rfl (hc _ _)
  | insidePair hb =>
    have hrange := hb.mem_range h₁
    exact .inr (.inl ⟨by omega, fun w h => h.2 _ _ hb⟩)
  | behindPair hpair' hb =>
    obtain rfl := Except.ok.inj (hpair.symm.trans hpair')
    exact .inr (.inr hb)

/-! ## Runs -/

/-- What a survey of all commands says is true of every state that a run of their text reaches. -/
theorem sound {e' : Emitter} (he : emitAll cs {} = .ok e')
    (hprogram : S.program = .ofText e'.code.text) (h : S.CoversAll 0 {} cs K K')
    (inputs : List Cell) (n : Nat)
    (hgiven : ∀ m, m ≤ n → S.given (State.run S.program none m (.start inputs)).state.counter
      (State.run S.program none m (.start inputs)).state.toWorkspace) :
    let r := State.run S.program none n (.start inputs)
    S.AtBoundaries 0 {} cs r.state.counter r.state.toWorkspace ∧
      (∀ t, r = .halted t → t.tape.pointer = e'.cursor) ∧
      ∀ position, r.error? ≠ some (.fault position .leftOfOrigin) ∧
        r.error? ≠ some (.fault position .unmatchedBracket) := by
  have hsymbols : S.program = .ofSymbols e'.code.symbols := by
    rw [hprogram, Code.text, Program.ofText_ofList]
  have hsize : 0 + e'.code.size = S.program.size := by
    rw [hsymbols, Program.size_ofSymbols, Code.length_symbols, Nat.zero_add]
  have hholds : S.program.Holds 0 e'.code.symbols := hsymbols ▸ Program.holds_ofSymbols _
  have houtlined := h e' he hholds
  rw [hsize] at houtlined
  -- at the start every cell is zero, whichever of them are known to be
  have hstart : Stands S.bound 0 K (State.start inputs).toWorkspace :=
    ⟨rfl, Nat.zero_le _, fun k _ => Tape.cellAt_blank k⟩
  obtain ⟨hgoal, hhalted, hsafe⟩ := houtlined.sound rfl hstart n hgiven
  exact ⟨hgoal, fun t ht => (hhalted t ht).pointer, hsafe⟩

end Survey

end TapeLowering
