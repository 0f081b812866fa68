import TapeLowering.Proofs.Boundary
import TapeLowering.Proofs.Outline

/-!
# Outlines of emitted code

Each kind of emission has an outline that says where the pointer is and which cells are known to hold
zero, before and after. The pointer stays within a bound all the time. A command may touch a cell of
which nothing is known then; a cell that is drained, and the origin of a loop, hold zero behind it.

Lists of commands have outlines whose goal is about the boundaries between them. The rules for these
leave open what is demanded at a boundary beyond the place of the pointer.
-/

namespace TapeLowering

open Emitter

/-- The pointer is at an index within a bound, and some cells hold zero. -/
structure Stands (bound cursor : Nat) (K : Nat → Bool) (w : Workspace) : Prop where
  pointer : w.tape.pointer = cursor
  within : cursor ≤ bound
  zero : ∀ k, K k = true → w.tape.cellAt k = 0

/-- The pointer does not leave the cells up to a bound. -/
def Within (bound : Nat) (_ : Nat) (w : Workspace) : Prop := w.tape.pointer ≤ bound

/-- The cells without that of a slot. -/
def forget (x : Slot) (K : Nat → Bool) : Nat → Bool := fun k => K k && k != x.index

/-- The cells with that of a slot. -/
def learn (x : Slot) (K : Nat → Bool) : Nat → Bool := fun k => K k || k == x.index

variable {p : Program} {given : Nat → Workspace → Prop} {bound base cursor : Nat} {K K' : Nat → Bool}
  {e e' : Emitter} {x y : Slot} {w w' : Workspace}

@[simp] theorem forget_iff {k : Nat} : forget x K k = true ↔ K k = true ∧ k ≠ x.index := by
  simp [forget]

@[simp] theorem learn_iff {k : Nat} : learn x K k = true ↔ K k = true ∨ k = x.index := by
  simp [learn]

namespace Stands

theorem le (h : Stands bound cursor K w) : w.tape.pointer ≤ bound := h.pointer ▸ h.within

/-- Less may be known to be zero than is. -/
theorem weaken (h : Stands bound cursor K w) (hK : ∀ k, K' k = true → K k = true) :
    Stands bound cursor K' w :=
  ⟨h.pointer, h.within, fun k hk => h.zero k (hK k hk)⟩

/-- An action on the cell under the pointer tells nothing about any other cell. -/
theorem perform {a : Action} (hright : a ≠ .right) (hleft : a ≠ .left)
    (h : Stands bound cursor K w) (hK : ∀ k, K k = true → k ≠ cursor)
    (hw : w.perform a = .ok w') : Stands bound cursor K w' := by
  obtain ⟨hpointer, hcells⟩ := Workspace.cellAt_of_perform hright hleft hw
  refine ⟨hpointer.trans h.pointer, h.within, fun k hk => ?_⟩
  rw [hcells k (h.pointer ▸ hK k hk)]
  exact h.zero k hk

/-- Behind a loop its origin holds zero, and so does what the body keeps at zero. -/
theorem learn_origin (h : Stands bound x.index K w) (hz : w.isZero = true) :
    Stands bound x.index (learn x K) w := by
  refine ⟨h.pointer, h.within, fun k hk => ?_⟩
  rcases learn_iff.mp hk with hk | rfl
  · exact h.zero k hk
  · rw [← h.pointer, Tape.cellAt_pointer]
    exact Tape.isZero_iff.mp hz

end Stands

namespace Emitter

/-! ## Moves and instructions -/

/-- Moves to the right go through the cells up to the one where they end. -/
theorem outlined_forward {n lo : Nat} (hp : p.Holds lo (.replicate n (.act .right)))
    (hbound : cursor + n ≤ bound) : Outlined p given lo (lo + n) (Stands bound cursor K)
      (Stands bound (cursor + n) K) (Within bound) := by
  have hacts := Outlined.acts given hp
    (fun i w => w.tape.pointer = cursor + i ∧ ∀ k, K k = true → w.tape.cellAt k = 0) ?_ ?_
  · refine hacts.conseq (fun h => ⟨h.pointer, h.zero⟩) (fun _ h => ⟨h.1, hbound, h.2⟩)
      fun _ hhi _ _ _ h => ?_
    rw [Within, h.1]
    omega
  · rintro i w w' _ ⟨hpointer, hzero⟩ hw
    cases hw
    refine ⟨?_, fun k hk => ?_⟩
    · simp only [Workspace.withTape, Tape.pointer_right, hpointer]
      omega
    · simpa only [Workspace.withTape, Tape.cellAt_right] using hzero k hk
  · rintro i w fault _ _ hw
    cases hw

/-- Moves to the left go through the cells down to the one where they end. -/
theorem outlined_back {n lo : Nat} (hp : p.Holds lo (.replicate n (.act .left)))
    (hn : n ≤ cursor) : Outlined p given lo (lo + n) (Stands bound cursor K)
      (Stands bound (cursor - n) K) (Within bound) := by
  -- the place of the pointer and the moves that are done add up to where it started
  have hacts := Outlined.acts given hp (fun i w => w.tape.pointer + i = cursor ∧ cursor ≤ bound ∧
    ∀ k, K k = true → w.tape.cellAt k = 0) ?_ ?_
  · refine hacts.conseq (fun h => ⟨h.pointer, h.within, h.zero⟩)
      (fun _ h => ⟨by omega, by omega, h.2.2⟩) fun _ _ _ _ _ h => ?_
    rw [Within]
    omega
  · rintro i w w' _ ⟨hpointer, hbound, hzero⟩ hw
    obtain ⟨t, ht, rfl⟩ : ∃ t, w.tape.left = .ok t ∧ w.withTape t = w' := by
      cases ht : w.tape.left <;> simp [Workspace.perform, ht, Except.map] at hw
      exact ⟨_, rfl, hw⟩
    have htape := Tape.pointer_of_left ht
    refine ⟨?_, hbound, fun k hk => ?_⟩
    · simp only [Workspace.withTape]
      omega
    · simpa only [Workspace.withTape, Tape.cellAt_of_left ht] using hzero k hk
  · rintro i w fault hi ⟨hpointer, _⟩ hw
    obtain ⟨t, ht⟩ := Tape.exists_left_of_pos (t := w.tape) (by omega)
    simp [Workspace.perform, ht, Except.map] at hw

/-- A move goes through the cells between where it starts and where it ends. -/
theorem outlined_right {a : Amount} {lo : Nat} (ha : a.val = (x.index : Int) - cursor)
    (hp : p.Holds lo (Instruction.right a).symbols) (hx : x.index ≤ bound) :
    Outlined p given lo (lo + a.magnitude) (Stands bound cursor K) (Stands bound x.index K)
      (Within bound) := by
  rw [Instruction.symbols] at hp
  by_cases hpos : 0 ≤ a.val
  · rw [Amount.direction, if_pos hpos] at hp
    have hindex : x.index = cursor + a.magnitude := by
      rw [Amount.magnitude]
      omega
    rw [hindex] at hx ⊢
    exact outlined_forward hp hx
  · rw [Amount.direction, if_neg hpos] at hp
    have hindex : x.index = cursor - a.magnitude ∧ a.magnitude ≤ cursor := by
      rw [Amount.magnitude]
      omega
    rw [hindex.1]
    exact outlined_back hp hindex.2

/-- The way to a slot stays within the bound, and no cell changes on it. -/
theorem outlined_seek (h : seek x e = .ok e') (hp : p.Holds base e'.code.symbols)
    (hx : x.index ≤ bound) : Outlined p given (base + e.code.size) (base + e'.code.size)
      (Stands bound e.cursor K) (Stands bound e'.cursor K) (Within bound) := by
  obtain ⟨_, a, ha, hsymbols⟩ := seek_eq_ok h
  have hsize : e'.code.size = e.code.size + a.magnitude := by
    rw [Code.size_of_symbols hsymbols, Instruction.length_symbols, Instruction.size]
  rw [hsymbols] at hp
  have hp := (Program.holds_append.mp hp).2
  rw [Code.length_symbols] at hp
  rw [cursor_of_seek h, hsize, ← Nat.add_assoc]
  exact outlined_right ha hp hx

/-- An instruction that repeats an action on the cell of a slot. -/
theorem outlined_onCell {i : Instruction} {a : Action} {n : Nat}
    (hi : i.symbols = List.replicate n (.act a)) (hright : a ≠ .right) (hleft : a ≠ .left)
    (h : onCell x i e = .ok e') (hp : p.Holds base e'.code.symbols) (hx : x.index ≤ bound) :
    Outlined p given (base + e.code.size) (base + e'.code.size)
      (Stands bound e.cursor K) (Stands bound e'.cursor (forget x K)) (Within bound) := by
  obtain ⟨e₁, h₁, h₂⟩ := onCell_eq_ok_iff.mp h
  have hsymbols := symbols_of_push h₂
  rw [hsymbols] at hp
  obtain ⟨hp₁, hp₂⟩ := Program.holds_append.mp hp
  rw [Code.length_symbols, hi] at hp₂
  -- at the cell, nothing is known of it any more, before the first action already
  have hacts := Outlined.acts given hp₂ (fun _ => Stands bound x.index (forget x K)) ?_ ?_
  · rw [Code.size_of_symbols hsymbols, hi, List.length_replicate, ← Nat.add_assoc,
      cursor_of_onCell h]
    have hseek : Outlined p given _ _ (Stands bound e.cursor K) (Stands bound e₁.cursor K)
        (Within bound) := outlined_seek h₁ hp₁ hx
    rw [cursor_of_seek h₁] at hseek
    have hsize := (extends_of_seek h₁).size_le
    refine hseek.chain (hacts.conseq (fun h => ?_) (fun _ h => h) fun _ _ _ _ _ h => h.le)
      (by omega) (by omega)
    exact h.weaken fun k hk => (forget_iff.mp hk).1
  · exact fun _ hJ hw => hJ.perform hright hleft (fun k hk => (forget_iff.mp hk).2) hw
  · exact fun _ _ hw => Workspace.ne_leftOfOrigin_of_perform hleft hw

/-- An addition stays where it is. Nothing is known of its cell afterwards. -/
theorem outlined_add (a : Amount) (h : onCell x (.add a) e = .ok e')
    (hp : p.Holds base e'.code.symbols) (hx : x.index ≤ bound) :
    Outlined p given (base + e.code.size) (base + e'.code.size)
      (Stands bound e.cursor K) (Stands bound e'.cursor (forget x K)) (Within bound) := by
  refine outlined_onCell (a := a.direction .increment .decrement) rfl ?_ ?_ h hp hx
  · unfold Amount.direction
    split <;> simp
  · unfold Amount.direction
    split <;> simp

/-! ## Loops -/

/-- What is emitted between the brackets of a loop has an outline. It starts with nothing emitted, at
the position behind the first bracket. -/
def OutlinedBody (p : Program) (given : Nat → Workspace → Prop) (bound base : Nat) (x : Slot)
    (f : Emission) (e : Emitter) (J J' : Nat → Bool) (G : Nat → Workspace → Prop) : Prop :=
  ∀ e₁ e₂, seek x e = .ok e₁ → f { e₁ with code := [] } = .ok e₂ →
    p.Holds (base + e₁.code.size + 1) e₂.code.symbols →
    Outlined p given (base + e₁.code.size + 1) (base + e₁.code.size + 1 + e₂.code.size)
      (Stands bound e₁.cursor J) (Stands bound e₂.cursor J') G

/-- What has to hold along a loop: the goal of what is emitted between its brackets there, and a
bound for the pointer everywhere. -/
def AlongLoop (bound base : Nat) (x : Slot) (f : Emission) (e : Emitter)
    (G : Nat → Workspace → Prop) (pos : Nat) (w : Workspace) : Prop :=
  Within bound pos w ∧ ∀ e₁ e₂, seek x e = .ok e₁ → f { e₁ with code := [] } = .ok e₂ →
    base + e₁.code.size + 1 ≤ pos → pos ≤ base + e₁.code.size + 1 + e₂.code.size → G pos w

/-- One round of a loop: what is between the brackets, and the move back to the origin. -/
theorem outlined_round {lo : Nat} {J J' : Nat → Bool} {G : Nat → Workspace → Prop}
    (hbody : Outlined p given lo (lo + e.code.size) (Stands bound x.index J)
      (Stands bound e.cursor J') G)
    (h : seek x e = .ok e') (hp : p.Holds lo e'.code.symbols) (hx : x.index ≤ bound)
    (hG : ∀ {pos w}, G pos w → Within bound pos w) (hJJ' : ∀ k, J k = true → J' k = true) :
    Outlined p given lo (lo + e'.code.size) (Stands bound x.index J) (Stands bound x.index J)
      fun pos w => Within bound pos w ∧ (pos ≤ lo + e.code.size → G pos w) := by
  have hback : Outlined p given _ _ (Stands bound e.cursor J') (Stands bound e'.cursor J')
      (Within bound) := outlined_seek h hp hx
  have hsize := (extends_of_seek h).size_le
  refine (hbody.seq hback (by omega) (by omega)).conseq id (fun _ h' => ?_)
    fun {pos w} _ _ _ _ _ h => ⟨?_, h.1⟩
  · rw [cursor_of_seek h] at h'
    exact h'.weaken hJJ'
  · rcases Nat.le_total pos (lo + e.code.size) with hle | hle
    · exact hG (h.1 hle)
    · exact h.2 hle

/-- A loop keeps at zero what its body keeps at zero. -/
theorem outlined_loop {f : Emission} (J : Nat → Bool) {J' : Nat → Bool}
    {G : Nat → Workspace → Prop} (h : loop x f e = .ok e') (hp : p.Holds base e'.code.symbols)
    (hx : x.index ≤ bound) (hG : ∀ {pos w}, G pos w → Within bound pos w)
    (hJK : ∀ k, J k = true → K k = true) (hJJ' : ∀ k, J k = true → J' k = true)
    (hbody : OutlinedBody p given bound base x f e J J' G) :
    Outlined p given (base + e.code.size) (base + e'.code.size) (Stands bound e.cursor K)
      (Stands bound e'.cursor (learn x J)) (AlongLoop bound base x f e G) := by
  obtain ⟨e₁, e₂, e₃, h₁, h₂, h₃, h₄⟩ := loop_eq_ok_iff.mp h
  have hsymbols : e'.code.symbols
      = e₁.code.symbols ++ .loopStart :: (e₃.code.symbols ++ [.loopEnd]) :=
    (symbols_of_push_loop h₄ :)
  rw [hsymbols] at hp
  obtain ⟨hp₁, hploop⟩ := Program.holds_append.mp hp
  rw [Code.length_symbols] at hploop
  have hp₃ := (Program.holds_append.mp hploop.2).1
  have hround := hbody e₁ e₂ h₁ h₂ (hp₃.of_extends (extends_of_seek h₃))
  rw [cursor_of_seek h₁] at hround
  have hround := outlined_round hround h₃ hp₃ hx hG hJJ'
  rw [← Code.length_symbols e₃.code] at hround
  have hwhole := Outlined.loop (Code.nested_symbols e₃.code) hploop hround
  have hseek : Outlined p given _ _ (Stands bound e.cursor K) (Stands bound e₁.cursor K)
      (Within bound) := outlined_seek h₁ hp₁ hx
  have hend : base + e'.code.size
      = base + e₁.code.size + 1 + e₃.code.symbols.length + 1 := by
    rw [Code.size_of_symbols hsymbols]
    simp only [List.length_cons, List.length_append, List.length_nil]
    omega
  have hsize₁ := (extends_of_seek h₁).size_le
  have hsize₃ := (extends_of_seek h₃).size_le
  rw [cursor_of_seek h₁] at hseek
  rw [cursor_of_loop h, hend]
  have hseek' : Outlined p given _ _ (Stands bound e.cursor K) (Stands bound x.index J)
      (Within bound) := hseek.conseq id (fun _ h => h.weaken hJK) fun _ _ _ _ _ h => h
  refine (hseek'.seq hwhole (by omega) (by omega)).conseq id (fun _ h => h.1.learn_origin h.2)
    fun {pos w} _ _ _ _ _ h => ⟨?_, ?_⟩
  -- the pointer is in bounds on the way to the origin, at the brackets and in the body
  · rcases Nat.le_total pos (base + e₁.code.size) with hle | hle
    · exact h.1 hle
    · obtain ⟨hin, hends⟩ := h.2 hle
      by_cases hbracket : pos = base + e₁.code.size ∨
          pos = base + e₁.code.size + 1 + e₃.code.symbols.length + 1
      · exact (hends hbracket).le
      · exact (hin (by omega) (by omega)).1
  · intro e₁' e₂' h₁' h₂' hlo hhi
    obtain rfl := Except.ok.inj (h₁.symm.trans h₁')
    obtain rfl := Except.ok.inj (h₂.symm.trans h₂')
    rw [Code.length_symbols] at h
    exact ((h.2 (by omega)).1 hlo (by omega)).2 hhi

/-- A reset is a loop whose cell is zero behind it, whatever was known before. -/
theorem outlined_reset (h : onCell x .clear e = .ok e') (hp : p.Holds base e'.code.symbols)
    (hx : x.index ≤ bound) : Outlined p given (base + e.code.size) (base + e'.code.size)
      (Stands bound e.cursor K) (Stands bound e'.cursor (learn x K)) (Within bound) := by
  rw [onCell_clear] at h
  refine (outlined_loop (forget x K) h hp hx id (fun k hk => (forget_iff.mp hk).1) ?_
    fun _ _ _ h₂ hp₂ => outlined_add .negOne h₂ hp₂ hx).conseq id (fun _ h => h.weaken fun k hk => ?_)
    fun _ _ _ _ _ h => h.1
  · exact fun k hk => forget_iff.mpr ⟨hk, (forget_iff.mp hk).2⟩
  · by_cases hkx : k = x.index <;> simp_all

/-- Two emissions one after the other. -/
theorem outlined_bind {e₁ : Emitter} {P Q R : Workspace → Prop} {G : Nat → Workspace → Prop}
    (h₁ : Outlined p given (base + e.code.size) (base + e₁.code.size) P Q G)
    (h₂ : Outlined p given (base + e₁.code.size) (base + e'.code.size) Q R G)
    (hext₁ : Extends e₁ e) (hext₂ : Extends e' e₁) :
    Outlined p given (base + e.code.size) (base + e'.code.size) P R G :=
  h₁.chain h₂ (Nat.add_le_add_left hext₁.size_le base) (Nat.add_le_add_left hext₂.size_le base)

/-- A set resets its cell and adds to it, so nothing more is known of the cell afterwards. -/
theorem outlined_set {v : Cell} (h : set x v e = .ok e') (hp : p.Holds base e'.code.symbols)
    (hx : x.index ≤ bound) : Outlined p given (base + e.code.size) (base + e'.code.size)
      (Stands bound e.cursor K) (Stands bound e'.cursor (forget x K)) (Within bound) := by
  obtain ⟨hv, h⟩ := set_eq_ok_iff.mp h
  obtain ⟨e₁, h₁, h₂⟩ := Violation.bind_eq_ok_iff.mp h
  have hext := extends_of_onCell h₂
  have hreset : Outlined p given _ _ (Stands bound e.cursor K) (Stands bound e₁.cursor (learn x K))
      (Within bound) := outlined_reset h₁ (hp.of_extends hext) hx
  refine (outlined_bind hreset (outlined_add _ h₂ hp hx) (extends_of_onCell h₁) hext).conseq id
    (fun _ h => h.weaken fun k hk => ?_) fun _ _ _ _ _ h => h
  simp_all

/-- Behind a drain the source is zero, and nothing is known of the destination. -/
theorem outlined_drain {change : Amount} (h : drain x y change e = .ok e')
    (hp : p.Holds base e'.code.symbols) (hx : x.index ≤ bound) (hy : y.index ≤ bound) :
    Outlined p given (base + e.code.size) (base + e'.code.size) (Stands bound e.cursor K)
      (Stands bound e'.cursor (learn x (forget y K))) (Within bound) := by
  -- in a round nothing is known of the two cells
  have hbody : ∀ {lo e₁ e₂}, (onCell x (.add .negOne) e₁ >>= onCell y (.add change)) = .ok e₂ →
      p.Holds lo e₂.code.symbols → Outlined p given (lo + e₁.code.size) (lo + e₂.code.size)
        (Stands bound e₁.cursor (forget x (forget y K)))
        (Stands bound e₂.cursor (forget y (forget x (forget x (forget y K))))) (Within bound) := by
    intro lo e₁ e₂ h₂ hp₂
    obtain ⟨e₃, h₃, h₄⟩ := Violation.bind_eq_ok_iff.mp h₂
    have hext := extends_of_onCell h₄
    exact outlined_bind (outlined_add _ h₃ (hp₂.of_extends hext) hx)
      (outlined_add _ h₄ hp₂ hy) (extends_of_onCell h₃) hext
  refine (outlined_loop (forget x (forget y K)) (drain_eq_ok_iff.mp h).2 hp hx id ?_ ?_
    fun _ _ _ h₂ hp₂ => hbody h₂ hp₂).conseq id (fun _ h => h.weaken fun k hk => ?_)
    fun _ _ _ _ _ h => h.1
  · simp_all
  · simp_all
  · by_cases hkx : k = x.index <;> simp_all

/-- A branch is a loop whose body ends with a reset of the condition. -/
theorem outlined_branch {f : Emission} (J : Nat → Bool) {J' : Nat → Bool}
    {G : Nat → Workspace → Prop} (h : branch x f e = .ok e') (hp : p.Holds base e'.code.symbols)
    (hx : x.index ≤ bound) (hG : ∀ {pos w}, G pos w → Within bound pos w)
    (hJK : ∀ k, J k = true → K k = true) (hJJ' : ∀ k, J k = true → J' k = true)
    (hbody : OutlinedBody p given bound base x f e J J' G) :
    Outlined p given (base + e.code.size) (base + e'.code.size) (Stands bound e.cursor K)
      (Stands bound e'.cursor (learn x J)) (AlongLoop bound base x f e G) := by
  have hround : OutlinedBody p given bound base x (fun e => f e >>= onCell x .clear) e J
      (learn x J') fun pos w => Within bound pos w ∧ ∀ e₁ e₃, seek x e = .ok e₁ →
        f { e₁ with code := [] } = .ok e₃ → pos ≤ base + e₁.code.size + 1 + e₃.code.size →
        G pos w := by
    intro e₁ e₂ h₁ h₂ hp₂
    obtain ⟨e₃, h₃, h₄⟩ := Violation.bind_eq_ok_iff.mp h₂
    have hext₄ := extends_of_onCell h₄
    have hsize := hext₄.size_le
    have hreset : Outlined p given _ _ (Stands bound e₃.cursor J')
        (Stands bound e₂.cursor (learn x J')) (Within bound) := outlined_reset h₄ hp₂ hx
    refine ((hbody e₁ e₃ h₁ h₃ (hp₂.of_extends hext₄)).seq hreset (by omega) (by omega)).conseq id
      (fun _ h => h) fun {pos w} _ _ _ _ _ h => ⟨?_, fun e₁' e₃' h₁' h₃' hle => ?_⟩
    · rcases Nat.le_total pos (base + e₁.code.size + 1 + e₃.code.size) with hle | hle
      · exact hG (h.1 hle)
      · exact h.2 hle
    · obtain rfl := Except.ok.inj (h₁.symm.trans h₁')
      obtain rfl := Except.ok.inj (h₃.symm.trans h₃')
      exact h.1 hle
  obtain ⟨e₁, e₂, _, h₁, h₂, _, _⟩ := loop_eq_ok_iff.mp h
  obtain ⟨e₃, h₃, h₄⟩ := Violation.bind_eq_ok_iff.mp h₂
  have hsize := (extends_of_onCell h₄).size_le
  -- the goal is about the positions up to the reset only
  refine (outlined_loop J h hp hx (fun h => h.1) hJK ?_ hround).conseq id (fun _ h => h)
    fun _ _ _ _ _ h => ⟨h.1, fun e₁' e₃' h₁' h₃' hlo hhi => ?_⟩
  · exact fun k hk => learn_iff.mpr (.inl (hJJ' k hk))
  · obtain rfl := Except.ok.inj (h₁.symm.trans h₁')
    obtain rfl := Except.ok.inj (h₃.symm.trans h₃')
    exact (h.2 e₁ e₂ h₁ h₂ hlo (by omega)).2 e₁ e₃ h₁ h₃ hhi

end Emitter

end TapeLowering
