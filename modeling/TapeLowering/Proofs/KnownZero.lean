import TapeLowering.Proofs.StackDiscipline
import TapeLowering.Proofs.Survey

/-!
# Cells that are known to hold zero

Making a slot live emits no code: it relies on the cell holding zero. `zeroAfter` tells, for one cell,
whether commands are known to leave it at zero. It looks at the commands only, and it is cautious about
loops: what a body is not known to keep at zero is not known to be zero before it either.

Commands that use live slots only keep every cell above the live ones at zero, except for the cell of
a scope that they leave. So at every boundary the cells above the live slots hold zero, provided those
do of which it is not known when their scope is left (`OpenExit`).
-/

namespace TapeLowering

open Emitter

namespace Command

mutual

/-- Whether the cell `k` is known to hold zero behind a command that starts with `depth` live slots,
by whether it is `known` to hold zero before. -/
def zeroAfter (k depth : Nat) (known : Bool) : Command → Bool
  | .increment x | .decrement x | .set x _ | .read x | .write x => known && k != x.index
  | .reset x => known || k == x.index
  | .transfer x y | .deduct x y => (known && k != y.index) || k == x.index
  | .loop x body | .branch x body => (known && zeroAfterAll k depth true body) || k == x.index
  | .scope body => zeroAfterAll k (depth + 1) known body || k == depth
  | .allocate | .release _ | .detach _ _ | .append _ | .unknown _ => known

/-- Whether the cell `k` is known to hold zero behind some commands. -/
def zeroAfterAll (k depth : Nat) (known : Bool) : List Command → Bool
  | [] => known
  | c :: rest => zeroAfterAll k depth (c.zeroAfter k depth known) rest

end

mutual

/-- Whether a command uses live slots only, and makes slots live by scopes only. -/
def isLive (depth : Nat) : Command → Bool
  | .increment x | .decrement x | .reset x | .set x _ | .read x | .write x => x.index < depth
  | .transfer x y | .deduct x y => x.index < depth && y.index < depth
  | .loop x body | .branch x body => x.index < depth && areLive depth body
  | .scope body => areLive (depth + 1) body
  | .allocate | .release _ | .detach _ _ | .append _ | .unknown _ => false

/-- Whether commands use live slots only, and make slots live by scopes only. -/
def areLive (depth : Nat) : List Command → Bool
  | [] => true
  | c :: rest => c.isLive depth && areLive depth rest

end

/-- Whether commands use live slots only, and make slots live by scopes, or outside of all bodies. -/
def useLive (depth : Nat) : List Command → Bool
  | [] => true
  | .allocate :: rest => useLive (depth + 1) rest
  | c :: rest => c.isLive depth && useLive depth rest

/-- What is known behind two lists of commands is known behind the second one, from what is known behind
the first. -/
theorem zeroAfterAll_append (k depth : Nat) (known : Bool) (cs ds : List Command) :
    zeroAfterAll k depth known (cs ++ ds)
      = zeroAfterAll k depth (zeroAfterAll k depth known cs) ds := by
  induction cs generalizing known with
  | nil => rfl
  | cons c rest ih => exact ih _

theorem ne_detach_of_isLive {c : Command} {depth : Nat} (h : c.isLive depth = true)
    (fragment : String) (body : List Command) : c ≠ .detach fragment body := by
  rintro rfl
  cases h

mutual

/-- A command on live slots keeps at zero what is above them. -/
theorem zeroAfter_of_isLive {k depth : Nat} (hk : depth ≤ k) (c : Command)
    (h : c.isLive depth = true) : c.zeroAfter k depth true = true := by
  have hne : ∀ {x : Slot}, decide (x.index < depth) = true → (k != x.index) = true := by
    intro x hx
    have hx := of_decide_eq_true hx
    rw [bne_iff_ne]
    omega
  cases c with
  | increment x | decrement x | set x _ | read x | write x =>
    rw [isLive] at h
    rw [zeroAfter, hne h, Bool.and_self]
  | reset x => rfl
  | transfer x y | deduct x y =>
    rw [isLive, Bool.and_eq_true] at h
    rw [zeroAfter, hne h.2, Bool.and_self, Bool.true_or]
  | loop x body | branch x body =>
    rw [isLive, Bool.and_eq_true] at h
    rw [zeroAfter, zeroAfterAll_of_areLive hk body h.2, Bool.and_self, Bool.true_or]
  | scope body =>
    rw [isLive] at h
    rw [zeroAfter, Bool.or_eq_true, beq_iff_eq]
    -- the cell of the scope is taken to be zero, and any other one is above the live slots of the body
    rcases Nat.eq_or_lt_of_le hk with rfl | hlt
    · exact .inr rfl
    · exact .inl (zeroAfterAll_of_areLive hlt body h)
  | allocate | release | detach | append | unknown => cases h

/-- Commands on live slots keep every cell above these at zero. -/
theorem zeroAfterAll_of_areLive {k depth : Nat} (hk : depth ≤ k) (cs : List Command)
    (h : areLive depth cs = true) : zeroAfterAll k depth true cs = true := by
  match cs with
  | [] => rfl
  | c :: rest =>
    rw [areLive, Bool.and_eq_true] at h
    rw [zeroAfterAll, zeroAfter_of_isLive hk c h.1]
    exact zeroAfterAll_of_areLive hk rest h.2

end

end Command

open Command

/-! ## Live slots and the emitter -/

mutual

/-- A command on live slots makes slots live in scopes only. -/
theorem isScoped_of_isLive {depth : Nat} (c : Command) (h : c.isLive depth = true) :
    c.isScoped = true := by
  cases c with
  | loop x body | branch x body =>
    rw [isLive, Bool.and_eq_true] at h
    exact areScoped_of_areLive body h.2
  | scope body => exact areScoped_of_areLive body h
  | allocate | release | detach | append | unknown => cases h
  | increment | decrement | reset | set | read | write | transfer | deduct => rfl

theorem areScoped_of_areLive {depth : Nat} (cs : List Command) (h : areLive depth cs = true) :
    areScoped cs = true := by
  match cs with
  | [] => rfl
  | c :: rest =>
    rw [areLive, Bool.and_eq_true] at h
    rw [areScoped, isScoped_of_isLive c h.1, areScoped_of_areLive rest h.2, Bool.and_self]

end

/-- A command on live slots leaves as many of them live as before. -/
theorem depth_of_emit {c : Command} {depth : Nat} {e e' : Emitter} (hc : c.isLive depth = true)
    (h : emit c e = .ok e') : e'.depth = e.depth :=
  congrArg List.length ((keepsLive_emit c (isScoped_of_isLive c hc)).live h)

/-- Commands on live slots leave as many slots live as before. -/
theorem depth_of_emitAll {cs : List Command} {depth : Nat} {e e' : Emitter}
    (hcs : areLive depth cs = true) (h : emitAll cs e = .ok e') : e'.depth = e.depth :=
  congrArg List.length ((keepsLive_emitAll cs (areScoped_of_areLive cs hcs)).live h)

/-! ## Exits -/

/-- In the text of some commands, a scope is left at `pos` whose body is not known to leave its cell
`k` at zero. -/
def OpenExit (base : Nat) (e : Emitter) (cs : List Command) (pos k : Nat) : Prop :=
  ∃ start b body rest b', Boundary base e cs start b (.scope body :: rest) ∧
    emitAll body b.allocate = .ok b' ∧ pos + b.code.size = start + b'.code.size ∧
    k = b.depth ∧ zeroAfterAll k (k + 1) true body = false

/-- A part of some commands has no boundaries, hence no exits, but theirs. -/
theorem OpenExit.mono {base base' pos k : Nat} {e e' : Emitter} {cs ds : List Command}
    (h : OpenExit base e cs pos k) (hb : ∀ {pos b todo}, Boundary base e cs pos b todo →
      Boundary base' e' ds pos b todo) : OpenExit base' e' ds pos k := by
  obtain ⟨start, b, body, rest, b', hstart, hrest⟩ := h
  exact ⟨start, b, body, rest, b', hb hstart, hrest⟩

namespace Command

mutual

/-- Whether every scope of a command is known to leave its cell at zero. -/
def isTidy (depth : Nat) : Command → Bool
  | .loop _ body | .branch _ body => areTidy depth body
  | .scope body => areTidy (depth + 1) body && zeroAfterAll depth (depth + 1) true body
  | .allocate | .release _ | .increment _ | .decrement _ | .reset _ | .set _ _ | .read _ | .write _
  | .transfer _ _ | .deduct _ _ | .detach _ _ | .append _ | .unknown _ => true

/-- Whether every scope of some commands is known to leave its cell at zero. -/
def areTidy (depth : Nat) : List Command → Bool
  | [] => true
  | c :: rest => c.isTidy depth && areTidy depth rest

end

end Command

/-- What comes behind a boundary of tidy commands is tidy. -/
theorem Boundary.areTidy {base pos : Nat} {e b : Emitter} {cs todo : List Command}
    (hb : Boundary base e cs pos b todo) (hlive : areLive e.depth cs = true)
    (htidy : areTidy e.depth cs = true) : Command.areTidy b.depth todo = true := by
  induction hb with
  | here => exact htidy
  | inside hbody _ ih =>
    rw [areLive, Bool.and_eq_true] at hlive
    rw [Command.areTidy, Bool.and_eq_true] at htidy
    cases hbody with
    | loop h₁ | branch h₁ =>
      have hdepth := depth_of_seek h₁
      rw [isLive, Bool.and_eq_true] at hlive
      exact ih (hdepth ▸ hlive.1.2) (hdepth ▸ htidy.1)
    | scope =>
      rw [isTidy, Bool.and_eq_true] at htidy
      exact ih hlive.1 htidy.1.1
  | behind _ h₁ _ ih =>
    rw [areLive, Bool.and_eq_true] at hlive
    rw [Command.areTidy, Bool.and_eq_true] at htidy
    rw [depth_of_emit hlive.1 h₁] at ih
    exact ih hlive.2 htidy.2
  | insidePair => cases hlive
  | behindPair => cases hlive

/-- No scope of tidy commands needs to be watched. -/
theorem not_openExit_of_areTidy {base pos k : Nat} {e : Emitter} {cs : List Command}
    (hlive : areLive e.depth cs = true) (htidy : areTidy e.depth cs = true) :
    ¬ OpenExit base e cs pos k := by
  rintro ⟨start, b, body, rest, b', hb, _, _, rfl, hopen⟩
  have htodo := hb.areTidy hlive htidy
  simp [areTidy, isTidy, hopen] at htodo

namespace Survey

/-! ## Coverage -/

variable {S : Survey}

/-- Nothing is demanded at a boundary but that all cells above the live slots hold zero. -/
def DemandsZero (S : Survey) : Prop :=
  ∀ b w, (∀ k, b.depth ≤ k → w.tape.cellAt k = 0) → S.demand b w

/-- What coverage starts from: `depth` slots are live, every cell above them is known to hold zero, and
the cell of an open exit is given to hold zero there. -/
structure Ready (S : Survey) (base depth : Nat) (e : Emitter) (K : Nat → Bool)
    (cs : List Command) : Prop where
  reach : reachAll cs ≤ S.bound
  depth_eq : e.depth = depth
  known : ∀ k, depth ≤ k → K k = true
  exit : ∀ pos k w, OpenExit base e cs pos k → S.given pos w → w.tape.cellAt k = 0

/-- The cells known to hold zero that the body of a loop is known to keep at zero. -/
def kept (depth : Nat) (body : List Command) (K : Nat → Bool) : Nat → Bool :=
  fun k => K k && zeroAfterAll k depth true body

section

variable {base depth k : Nat} {e e₁ : Emitter} {K : Nat → Bool} {c : Command}
  {cs body rest : List Command} {x : Slot}

theorem known_of_kept (h : kept depth body K k = true) : K k = true :=
  (Bool.and_eq_true _ _ ▸ h).1

theorem zeroAfterAll_of_kept (h : kept depth body K k = true) :
    zeroAfterAll k depth (kept depth body K k) body = true := by
  rw [h]
  exact (Bool.and_eq_true _ _ ▸ h).2

namespace Ready

/-- What is demanded at a boundary holds at the start. -/
theorem demand (h : Ready S base depth e K cs) (hdemand : S.DemandsZero) (w : Workspace)
    (hw : Stands S.bound e.cursor K w) : S.demand e w :=
  hdemand e w fun k hk => hw.zero k (h.known k (h.depth_eq ▸ hk))

/-- A command on live slots keeps everything as it has to be for those behind it. -/
theorem behind (h : Ready S base depth e K (c :: rest)) (hc : c.isLive depth = true)
    (h₁ : emit c e = .ok e₁) :
    Ready S base depth e₁ (fun k => c.zeroAfter k depth (K k)) rest where
  reach := (Nat.max_le.mp h.reach).2
  depth_eq := (depth_of_emit hc h₁).trans h.depth_eq
  known k hk := by
    rw [h.known k hk]
    exact zeroAfter_of_isLive hk c hc
  exit pos k w hexit := h.exit pos k w (hexit.mono (.behind (ne_detach_of_isLive hc) h₁))

/-- The body of a loop or a branch starts with what it is known to keep. -/
theorem bracketed (hc : c = .loop x body ∨ c = .branch x body)
    (h : Ready S base depth e K (c :: rest)) (hbody : areLive depth body = true)
    (h₁ : seek x e = .ok e₁) :
    Ready S (base + e₁.code.size + 1) depth { e₁ with code := [] } (kept depth body K) body where
  reach := by
    have hreach := (Nat.max_le.mp h.reach).1
    rcases hc with rfl | rfl <;> exact (Nat.max_le.mp hreach).2
  depth_eq := (depth_of_seek h₁).trans h.depth_eq
  known k hk := by
    rw [kept, h.known k hk, zeroAfterAll_of_areLive hk body hbody, Bool.and_self]
  exit pos k w hexit := h.exit pos k w (hexit.mono (.inside (.of_bracketed hc h₁)))

/-- The body of a scope starts with one more live slot. -/
theorem scope (h : Ready S base depth e K (.scope body :: rest)) :
    Ready S base (depth + 1) e.allocate K body where
  reach := (Nat.max_le.mp h.reach).1
  depth_eq := congrArg (· + 1) h.depth_eq
  known k hk := h.known k (Nat.le_of_succ_le hk)
  exit pos k w hexit := h.exit pos k w (hexit.mono (.inside .scope))

/-- Making a slot live takes its cell from those that have to be zero. -/
theorem allocate (h : Ready S base depth e K (.allocate :: rest)) :
    Ready S base (depth + 1) e.allocate K rest where
  reach := (Nat.max_le.mp h.reach).2
  depth_eq := congrArg (· + 1) h.depth_eq
  known k hk := h.known k (Nat.le_of_succ_le hk)
  exit pos k w hexit := h.exit pos k w (hexit.mono (.behind nofun rfl))

/-- The cell of a scope is known to be zero behind it, or it is given that it is. -/
theorem zero_of_exit (h : Ready S base depth e K (.scope body :: rest)) {w : Workspace}
    (he₁ : emitAll body e.allocate = .ok e₁) (hg : S.given (base + e₁.code.size) w)
    (hw : Stands S.bound e₁.cursor (fun k => zeroAfterAll k (depth + 1) (K k) body) w) :
    w.tape.cellAt depth = 0 := by
  cases hz : zeroAfterAll depth (depth + 1) true body with
  | true =>
    apply hw.zero depth
    rw [h.known depth (Nat.le_refl depth), hz]
  | false =>
    have hexit : OpenExit base e (.scope body :: rest) (base + e₁.code.size) depth :=
      ⟨_, e, body, rest, e₁, .here base e _, he₁, by omega, h.depth_eq.symm, hz⟩
    exact h.exit _ depth w hexit hg

end Ready

end

mutual

/-- A command on live slots is covered, by induction on the command, together with
`coversAll_of_areLive`. What its scopes do not leave at zero themselves is zero by assumption. -/
theorem covers_of_isLive (c : Command) (rest : List Command) {depth base : Nat} {e : Emitter}
    {K : Nat → Bool} (hdemand : S.DemandsZero) (hc : c.isLive depth = true)
    (h : S.Ready base depth e K (c :: rest)) :
    S.Covers base e c K fun k => c.zeroAfter k depth (K k) := by
  have hreach := (Nat.max_le.mp h.reach).1
  cases c with
  | increment | decrement | reset | set | read | write | transfer | deduct =>
    exact covers_of_isPlain rfl hreach
  | loop x body | branch x body =>
    rw [isLive, Bool.and_eq_true] at hc
    -- what the body is not known to keep at zero is forgotten before the first round
    exact covers_bracketed (by simp) (Nat.max_le.mp hreach).1 (kept depth body K)
      (fun _ => known_of_kept) (fun _ => zeroAfterAll_of_kept) fun e₁ h₁ =>
        coversAll_of_areLive body hdemand hc.2 (h.bracketed (by simp) hc.2 h₁)
  | scope body =>
    refine covers_scope (coversAll_of_areLive body hdemand hc h.scope) fun he₁ hg hw k hk => ?_
    simp only [zeroAfter, Bool.or_eq_true, beq_iff_eq] at hk
    rcases hk with hk | rfl
    · exact hw.zero k hk
    · exact h.zero_of_exit he₁ hg hw
  | allocate | release | detach | append | unknown => cases hc

/-- Commands on live slots are covered: above the live slots everything is zero at every boundary. -/
theorem coversAll_of_areLive (cs : List Command) {depth base : Nat} {e : Emitter} {K : Nat → Bool}
    (hdemand : S.DemandsZero) (hcs : areLive depth cs = true) (h : S.Ready base depth e K cs) :
    S.CoversAll base e cs K fun k => zeroAfterAll k depth (K k) cs := by
  match cs with
  | [] => exact coversAll_nil (h.demand hdemand)
  | c :: rest =>
    rw [areLive, Bool.and_eq_true] at hcs
    exact coversAll_cons (ne_detach_of_isLive hcs.1) (h.demand hdemand)
      (covers_of_isLive c rest hdemand hcs.1 h) fun e₁ h₁ =>
        coversAll_of_areLive rest hdemand hcs.2 (h.behind hcs.1 h₁)

end

/-- Making a slot live outside of all bodies takes one cell from those that are known to be zero. -/
theorem coversAll_of_useLive (cs : List Command) {depth base : Nat} {e : Emitter} {K : Nat → Bool}
    (hdemand : S.DemandsZero) (hcs : useLive depth cs = true) (h : S.Ready base depth e K cs) :
    S.CoversAll base e cs K fun _ => false := by
  induction cs generalizing depth e K with
  | nil => exact (coversAll_nil (h.demand hdemand)).weaken nofun
  | cons c rest ih =>
    unfold useLive at hcs
    split at hcs
    · rename_i heq
      cases heq
    · rename_i heq
      cases heq
      -- the slot stays live, so its cell is not demanded to be zero from here on
      refine coversAll_cons nofun (h.demand hdemand)
        (covers_of_isPlain rfl (Nat.max_le.mp h.reach).1) fun e₁ h₁ => ?_
      cases h₁
      exact ih hcs h.allocate
    · rename_i heq
      cases heq
      rw [Bool.and_eq_true] at hcs
      exact coversAll_cons (ne_detach_of_isLive hcs.1) (h.demand hdemand)
        (covers_of_isLive c rest hdemand hcs.1 h) fun e₁ h₁ => ih hcs.2 (h.behind hcs.1 h₁)

end Survey

end TapeLowering
