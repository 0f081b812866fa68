import TapeLowering.Proofs.Arrivals
import TapeLowering.Proofs.Calls
import TapeLowering.Proofs.Frames
import TapeLowering.Proofs.RoutineEffects

/-!
# How often the body of a loop is run

A counted loop runs its body as often as its counter says, if the body leaves the counter alone, and a
branch runs its body at most once, whatever the body does. What is counted is how often the machine comes
to the text of the body (`Workspace.Enters`).

A loop and a branch are emitted in the same way, and differ in what closes the body: the one takes one
from the counter, the other sets the condition to zero. So both come down to what the machine does on
the loop of `Emitter.exists_frame`. For the counted loop this is an induction on the value of the counter
(`Code.exists_countsDown`); a branch has one round at most (`Code.runsOnce`), and it fails, or goes on
forever, where its body does.
-/

namespace TapeLowering

open Outcome

/-! ## How some code ends, by its parts -/

namespace Code

variable {c d body : Code} {w u : Workspace} {o : Outcome Workspace} {fault : Fault}

/-- With enough fuel the code is done, or fails. -/
def Ends (c : Code) (w : Workspace) (o : Outcome Workspace) : Prop :=
  o ≠ .unfinished ∧ ∃ fuel, c.run fuel w = o

theorem ends_done_iff : c.Ends w (.done u) ↔ ∃ fuel, c.run fuel w = .done u := by
  simp [Ends]

/-- A machine crosses a text if its code ends. -/
theorem crosses_iff_ends : w.Crosses d.text u ↔ d.Ends w (.done u) :=
  crosses_iff.trans ends_done_iff.symm

/-- Code that ends is followed by other code, which decides how both end. -/
theorem Ends.append (hc : c.Ends w (.done u)) (hd : d.Ends u o) : (c ++ d).Ends w o := by
  obtain ⟨-, n, hn⟩ := hc
  obtain ⟨hne, m, hm⟩ := hd
  refine ⟨hne, max n m, ?_⟩
  rw [run_append, (c.growing_run w).andThen_of_done d.growing_run hn (hm ▸ hne), hm]

/-- What follows code that fails has no part in how both end. -/
theorem Ends.append_of_failed (hc : c.Ends w (.failed fault u)) (d : Code) :
    (c ++ d).Ends w (.failed fault u) := by
  obtain ⟨hne, n, hn⟩ := hc
  exact ⟨hne, n, by rw [run_append, hn, andThen_failed]⟩

theorem run_loop (fuel : Nat) (body : Code) (w : Workspace) : run fuel [.loop body] w
    = repeatWhile (fun w => !w.isZero) (body.run fuel) fuel w := by
  simp only [run, Instruction.run, andThen_done_right]

/-- A loop ends at once where its cell is zero. -/
theorem ends_loop_of_isZero (hz : w.isZero = true) (body : Code) : Ends [.loop body] w (.done w) := by
  refine ends_done_iff.mpr ⟨0, ?_⟩
  rw [run_loop, repeatWhile_of_not (by simp [hz])]

/-- A round comes before the rest of a loop. -/
theorem Ends.loop (hz : w.isZero = false) (hbody : body.Ends w (.done u))
    (hrest : Ends [.loop body] u o) : Ends [.loop body] w o := by
  obtain ⟨-, n, hn⟩ := hbody
  obtain ⟨hne, m, hm⟩ := hrest
  rw [run_loop] at hm
  refine ⟨hne, max n m + 1, ?_⟩
  rw [run_loop, repeatWhile_of_done body.growing_run (by simp [hz]) hn (hm ▸ hne), hm]

/-- A loop fails where its body fails in the first round. -/
theorem Ends.loop_of_failed (hz : w.isZero = false) (hbody : body.Ends w (.failed fault u)) :
    Ends [.loop body] w (.failed fault u) := by
  obtain ⟨hne, n, hn⟩ := hbody
  have hfirst := (body.growing_run w).failed hn (Nat.le_succ n)
  refine ⟨hne, n + 1, ?_⟩
  rw [run_loop, repeatWhile_succ_of_test (by simp [hz]), hfirst, andThen_failed]

/-- A round that never ends is the last one. -/
theorem run_loop_of_unfinished (hz : w.isZero = false) (hbody : ∀ fuel, body.run fuel w = .unfinished)
    (fuel : Nat) : run fuel [.loop body] w = .unfinished := by
  rw [run_loop]
  exact repeatWhile_of_unfinished (by simp [hz]) (hbody fuel) fuel

end Code

/-- The values of the cells are those of the store. -/
theorem Workspace.value_of_store {w w' : Workspace} (h : w'.store = w.store) (x : Slot) :
    w'.value x = w.value x :=
  congrArg (fun s => (Store.get s x).toNat) h

/-- A loop on the cell under the pointer stops if that cell is zero. -/
theorem Workspace.isZero_eq_true_iff {w : Workspace} {x : Slot} (h : w.tape.pointer = x.index) :
    w.isZero = true ↔ w.value x = 0 := by
  have htest : (w.store.get x != 0) = !w.isZero := Shows.test_eq ⟨h, rfl⟩
  rw [value_eq_zero_iff]
  cases hz : w.isZero <;> simp_all

theorem Workspace.isZero_eq_false_iff {w : Workspace} {x : Slot} (h : w.tape.pointer = x.index) :
    w.isZero = false ↔ w.value x ≠ 0 := by
  rw [ne_eq, ← isZero_eq_true_iff h, Bool.not_eq_true]

/-! ## Counted loops -/

/-- A text is crossed again and again, and behind it one is taken from a counter each time, until the
counter is zero: the workspaces before each time, and the one at the end. -/
inductive Workspace.CountsDown (text : String) (x : Slot) :
    Workspace → List Workspace → Workspace → Prop where
  | stop {w : Workspace} : w.value x = 0 → CountsDown text x w [] w
  | round {w u v w' : Workspace} {starts : List Workspace} : w.value x ≠ 0 → w.Crosses text u →
      v.tape.pointer = x.index → v.store = u.store.put x (u.store.get x - 1) →
      CountsDown text x v starts w' → CountsDown text x w (w :: starts) w'

/-- The machine goes through the second of three texts as often as the value of a counter says, if it always
comes to the end of that text and the counter is the same there as before. Behind the three texts the
counter is zero, and the rest is what the executions make of it. An invariant may tell what they start
from. -/
def Workspace.RunsByCounter (front inner back : String) (x : Slot) (w : Workspace) : Prop :=
  ∀ P : Store → Prop, P w.store →
    (∀ u : Workspace, P u.store → u.tape.pointer = x.index → u.value x ≠ 0 → ∃ u' : Workspace,
      u.Crosses inner u' ∧ u'.value x = u.value x ∧ P (u'.store.put x (u'.store.get x - 1))) →
    ∃ (w₀ : Workspace) (starts : List Workspace) (w' : Workspace),
      w₀.tape.pointer = x.index ∧ w₀.store = w.store ∧ starts.length = w.value x ∧
      w.Enters front inner back starts ∧ w₀.CountsDown inner x starts w' ∧
      w.Crosses (front ++ inner ++ back) w' ∧ w'.tape.pointer = x.index ∧ w'.value x = 0

namespace Code

variable {lead d close : Code} {x : Slot} {finish : Nat} {w w₀ : Workspace}

/-- A body that leaves the counter as it was is run as often as the counter says. -/
theorem exists_countsDown (hd : d.Moves x.index finish)
    (hclose : close.Performs finish x.index fun _ => Store.decrement x) {P : Store → Prop}
    (hround : ∀ u : Workspace, P u.store → u.tape.pointer = x.index → u.value x ≠ 0 →
      ∃ u', u.Crosses d.text u' ∧ u'.value x = u.value x ∧
        P (u'.store.put x (u'.store.get x - 1)))
    (hP : P w.store) (hw : w.tape.pointer = x.index) :
    ∃ starts w', starts.length = w.value x ∧ (d ++ close).Rounds w starts ∧
      w.CountsDown d.text x starts w' ∧ Ends [.loop (d ++ close)] w (.done w') ∧
      w'.tape.pointer = x.index ∧ w'.value x = 0 := by
  generalize hn : w.value x = n
  induction n generalizing w with
  | zero =>
    have hz := (Workspace.isZero_eq_true_iff hw).mpr hn
    exact ⟨[], w, rfl, .stop hz, .stop hn, ends_loop_of_isZero hz _, hw, hn⟩
  | succ n ih =>
    have hne : w.value x ≠ 0 := by omega
    have hz := (Workspace.isZero_eq_false_iff hw).mpr hne
    -- One round: the body leaves the counter alone, and its close takes one from it.
    obtain ⟨u, hcrosses, hvalue, hnext⟩ := hround w hP hw hne
    obtain ⟨k, hk⟩ := crosses_iff.mp hcrosses
    have hget : u.store.get x ≠ 0 := mt Workspace.value_eq_zero_iff.mpr (by omega)
    have hdecrement : u.store.decrement x = .done (u.store.put x (u.store.get x - 1)) := by
      rw [Store.decrement, Cell.pred?, if_neg hget, Store.change]
    obtain ⟨j, v, hj, hpointer, hstore⟩ :=
      hclose.exists_done (n := 0) (hd hw hk) hdecrement
    have hcount : v.value x = n := by
      have hcell : v.store.get x = u.store.get x - 1 := by rw [hstore, Store.get_put_self]
      have hless := Cell.toNat_sub_one hget
      rw [← hcell] at hless
      exact Nat.succ.inj (hless.trans (hvalue.trans hn))
    obtain ⟨starts, w', hlength, hrounds, hcounts, hends, hend⟩ := ih (hstore ▸ hnext) hpointer hcount
    have hbody : (d ++ close).Ends w (.done v) :=
      (ends_done_iff.mpr ⟨k, hk⟩).append (ends_done_iff.mpr ⟨j, hj⟩)
    obtain ⟨-, fuel, hfuel⟩ := hbody
    refine ⟨w :: starts, w', by rw [List.length_cons, hlength], .round hz hfuel hrounds,
      .round hne hcrosses hpointer hstore hcounts, .loop hz (ends_done_iff.mpr ⟨fuel, hfuel⟩) hends, hend⟩

end Code

/-! ## Branches -/

/-- The machine goes through the second of three texts once if a value is not zero, and not at all if
it is. Its workspace is `w` before the three texts and `w₀` before the second one; behind them a slot is
zero. -/
structure Workspace.RunsOnce (front inner back : String) (x : Slot) (v : Nat) (w w₀ : Workspace) :
    Prop where
  enters_of_ne : v ≠ 0 → w.Enters front inner back [w₀]
  enters_of_eq : v = 0 → w.Enters front inner back []
  crosses_of_ne : v ≠ 0 → ∀ u, w₀.Crosses inner u → ∃ w', w.Crosses (front ++ inner ++ back) w' ∧
    w'.tape.pointer = x.index ∧ w'.store = u.store.put x 0
  crosses_of_eq : v = 0 → ∃ w', w.Crosses (front ++ inner ++ back) w' ∧
    w'.tape.pointer = x.index ∧ w'.store = w₀.store
  failsOn : v ≠ 0 → ∀ fault, w₀.FailsOn inner fault → w.FailsOn (front ++ inner ++ back) fault
  lingers : v ≠ 0 → (∀ count, w₀.Lingers inner count) →
    ∀ count, w.Lingers (front ++ inner ++ back) count

namespace Code

variable {lead d close body : Code} {x : Slot} {finish : Nat} {w w₀ u : Workspace}

/-- With a reset behind it, a body that is done leaves the condition at zero. -/
theorem exists_reset (hclose : close.Performs finish x.index fun _ s => .done (s.put x 0))
    (hu : u.tape.pointer = finish) : ∃ w', close.Ends u (.done w') ∧ w'.isZero = true ∧
      w'.tape.pointer = x.index ∧ w'.store = u.store.put x 0 := by
  obtain ⟨n, w', hw', hpointer, hstore⟩ := hclose.exists_done (n := 0) hu rfl
  refine ⟨w', ends_done_iff.mpr ⟨n, hw'⟩, ?_, hpointer, hstore⟩
  rw [Workspace.isZero_eq_true_iff hpointer, Workspace.value_eq_zero_iff, hstore, Store.get_put_self]

/-- A branch whose condition is not zero has one round. -/
theorem rounds_branch (hw₀ : w₀.isZero = false) (hpointer : w₀.tape.pointer = x.index)
    (hd : d.Moves x.index finish)
    (hclose : close.Performs finish x.index fun _ s => .done (s.put x 0)) :
    (d ++ close).Rounds w₀ [w₀] := by
  by_cases hdone : ∃ u, d.Ends w₀ (.done u)
  · obtain ⟨u, hu⟩ := hdone
    obtain ⟨n, hn⟩ := ends_done_iff.mp hu
    obtain ⟨w', hends, hz, -⟩ := exists_reset hclose (hd hpointer hn)
    obtain ⟨m, hm⟩ := ends_done_iff.mp (hu.append hends)
    exact .round hw₀ hm (.stop hz)
  · refine .last hw₀ fun fuel w' hrun => ?_
    rw [run_append] at hrun
    cases hfirst : d.run fuel w₀ with
    | done u => exact hdone ⟨u, ends_done_iff.mpr ⟨fuel, hfirst⟩⟩
    | failed | unfinished => simp [hfirst] at hrun

/-- What comes behind code that is done has not ended, and neither have both. -/
theorem run_append_of_unfinished (hc : lead.Ends w (.done w₀))
    (hbody : ∀ fuel, body.run fuel w₀ = .unfinished) (fuel : Nat) :
    (lead ++ body).run fuel w = .unfinished := by
  obtain ⟨n, hn⟩ := ends_done_iff.mp hc
  rw [run_append]
  by_cases hfirst : lead.run fuel w = .unfinished
  · rw [hfirst, andThen_unfinished]
  · rw [(lead.growing_run w).unique hfirst (n := fuel) (m := n) (by simp [hn]), hn, andThen_done, hbody]

/-- A body that is closed by a reset of the condition is run once if the condition is not zero, and not at
all if it is. -/
theorem runsOnce (hlead : lead.Ends w (.done w₀)) (hw₀ : w₀.tape.pointer = x.index)
    (hd : d.Moves x.index finish)
    (hclose : close.Performs finish x.index fun _ s => .done (s.put x 0)) :
    w.RunsOnce (lead.text ++ "[") d.text (close.text ++ "]") x (w₀.value x) w₀ := by
  obtain ⟨n, hn⟩ := ends_done_iff.mp hlead
  have hover := fun h : w₀.value x = 0 => (Workspace.isZero_eq_true_iff hw₀).mpr h
  have hgoes := fun h : w₀.value x ≠ 0 => (Workspace.isZero_eq_false_iff hw₀).mpr h
  constructor
  case enters_of_ne => exact fun h => enters_of_rounds hn (rounds_branch (hgoes h) hw₀ hd hclose)
  case enters_of_eq => exact fun h => enters_of_rounds hn (.stop (hover h))
  -- the rest is about the whole text, hence about what the code does
  all_goals rw [← text_framed]
  case crosses_of_ne =>
    intro h u hu
    have hfirst := crosses_iff_ends.mp hu
    obtain ⟨k, hk⟩ := crosses_iff.mp hu
    obtain ⟨w', hends, hz, hpointer, hstore⟩ := exists_reset hclose (hd hw₀ hk)
    have hloop := Ends.loop (hgoes h) (hfirst.append hends) (ends_loop_of_isZero hz _)
    exact ⟨w', crosses_iff_ends.mpr (hlead.append hloop), hpointer, hstore⟩
  case crosses_of_eq =>
    intro h
    have hloop := ends_loop_of_isZero (hover h) (d ++ close)
    exact ⟨w₀, crosses_iff_ends.mpr (hlead.append hloop), hw₀, rfl⟩
  case failsOn =>
    intro h fault hfails
    obtain ⟨k, u, hk⟩ := failsOn_iff.mp hfails
    have hbody : d.Ends w₀ (.failed fault u) := ⟨by simp, k, hk⟩
    have hloop := Ends.loop_of_failed (hgoes h) (hbody.append_of_failed close)
    obtain ⟨-, j, hj⟩ := hlead.append hloop
    exact failsOn_iff.mpr ⟨j, u, hj⟩
  case lingers =>
    intro h hlingers
    have hfirst := forall_lingers_iff.mp hlingers
    have hbody : ∀ fuel, (d ++ close).run fuel w₀ = .unfinished := fun fuel => by
      rw [run_append, hfirst, andThen_unfinished]
    exact forall_lingers_iff.mpr (run_append_of_unfinished hlead (run_loop_of_unfinished (hgoes h) hbody))

end Code

/-! ## The text of a body -/

namespace Emitter

variable {cs : List Command} {x : Slot} {e e₁ e' b : Emitter} {lead d close : Code}

/-- Between two emitters, the text of a body was emitted with one text before it and one behind it. The
body is that of a loop on a slot, and what comes before the loop ends with `e₁`. -/
structure Wraps (cs : List Command) (x : Slot) (e₁ e e' b : Emitter) (front back : String) : Prop where
  body : emitAll cs (e₁.inside x) = .ok b
  text : e'.code.text = e.code.text ++ (front ++ b.code.text ++ back)
  cursor : e'.cursor = x.index

/-- The symbols of a loop tell the text of its body, and what stands before and behind it. -/
theorem wraps_of_symbols (hb : emitAll cs (e₁.inside x) = .ok b) (htext : b.code.text = d.text)
    (h : e'.code.symbols = e.code.symbols ++ Code.symbols (lead ++ [.loop (d ++ close)]))
    (hcursor : e'.cursor = x.index) :
    Wraps cs x e₁ e e' b (lead.text ++ "[") (close.text ++ "]") := by
  refine ⟨hb, ?_, hcursor⟩
  rw [htext, ← Code.text_framed]
  exact Code.text_of_symbols h

/-- An execution of a body without fragments does what the commands of the body mean. -/
theorem Wraps.crosses {front back : String} {u : Workspace} {Q : Store → Prop}
    (h : Wraps cs x e₁ e e' b front back) (hinline : Command.areInline cs = true)
    (hu : u.tape.pointer = x.index) (hQ : Command.Ensures cs u.store Q) :
    ∃ u', u.Crosses b.code.text u' ∧ u'.tape.pointer = b.cursor ∧ Q u'.store := by
  obtain ⟨d, htext, hperf⟩ := exists_performs hinline h.body
  have hbody : b.code.text = d.text := htext.trans String.empty_append
  rw [hbody]
  exact hperf.crosses hu hQ

/-- Where a body adds one to another cell and one is taken from the counter behind it, the other cell gains
what the counter loses. -/
theorem Wraps.crosses_increment {front back : String} {y : Slot} {u : Workspace}
    (h : Wraps [.increment y] x e₁ e e' b front back) (hne : x ≠ y) (hu : u.tape.pointer = x.index)
    (hx : u.value x ≠ 0) (hsum : (u.store.get x).toNat + (u.store.get y).toNat < 0x10000000000000000) :
    ∃ u', u.Crosses b.code.text u' ∧ u'.value x = u.value x ∧
      let s := u'.store.put x (u'.store.get x - 1)
      (s.get x).toNat + (s.get y).toNat = (u.store.get x).toNat + (u.store.get y).toNat := by
  have hless := Cell.toNat_sub_one (mt Workspace.value_eq_zero_iff.mpr hx)
  have hmore : (u.store.get y + 1).toNat = (u.store.get y).toNat + 1 :=
    Cell.toNat_add_of_lt (by rw [UInt64.toNat_one]; omega)
  have hensures : Command.Ensures ((Routine.increment y).commands e.depth) u.store
      (· = u.store.put y (u.store.get y + 1)) :=
    (Routine.ensures_increment (by omega)).mpr rfl
  obtain ⟨u', hcrosses, -, hstore⟩ := h.crosses rfl hu hensures
  have hkept : u'.store.get x = u.store.get x := by rw [hstore, Store.get_put_of_ne hne]
  have hgained : u'.store.get y = u.store.get y + 1 := by rw [hstore, Store.get_put_self]
  refine ⟨u', hcrosses, congrArg UInt64.toNat hkept, ?_⟩
  simp only [Store.get_put_self, Store.get_put_of_ne hne.symm, hkept, hgained]
  omega

/-- A counted loop runs its body as often as its counter says. -/
theorem countdown_runs (hcs : Paired cs)
    (h : loop x (fun e => emitAll cs e >>= onCell x (.add .negOne)) e = .ok e') :
    ∃ b front back, Wraps cs x e e e' b front back ∧
      ∀ w : Workspace, w.tape.pointer = e.cursor → w.RunsByCounter front b.code.text back x := by
  obtain ⟨b, lead, d, close, hb, htext, hsymbols, hlead, hmoves, hclose⟩ :=
    exists_frame hcs (realizes_decrement x) h
  refine ⟨b, lead.text ++ "[", close.text ++ "]",
    wraps_of_symbols hb htext hsymbols (cursor_of_loop h), fun w hw P hP hround => ?_⟩
  rw [htext] at hround ⊢
  obtain ⟨n, w₀, hn, hpointer, hstore⟩ := hlead.exists_done (n := 0) hw rfl
  obtain ⟨starts, w', hlength, hrounds, hcounts, hends, hend⟩ :=
    Code.exists_countsDown hmoves hclose hround (hstore ▸ hP) hpointer
  have hvalue := Workspace.value_of_store hstore x
  refine ⟨w₀, starts, w', hpointer, hstore, hlength.trans hvalue, Code.enters_of_rounds hn hrounds,
    hcounts, ?_, hend⟩
  rw [← Code.text_framed]
  exact Code.crosses_iff_ends.mpr ((Code.ends_done_iff.mpr ⟨n, hn⟩).append hends)

/-- A branch runs its body once if its condition is not zero, and not at all if it is. -/
theorem branch_runs (hcs : Paired cs) (h : branch x (emitAll cs) e = .ok e') :
    ∃ b front back, Wraps cs x e e e' b front back ∧
      ∀ w : Workspace, w.tape.pointer = e.cursor → ∃ w₀ : Workspace, w₀.tape.pointer = x.index ∧
        w₀.store = w.store ∧ w.RunsOnce front b.code.text back x (w.value x) w₀ := by
  obtain ⟨b, lead, d, close, hb, htext, hsymbols, hlead, hmoves, hclose⟩ :=
    exists_frame hcs (realizes_reset x) h
  refine ⟨b, lead.text ++ "[", close.text ++ "]",
    wraps_of_symbols hb htext hsymbols (cursor_of_loop h), fun w hw => ?_⟩
  obtain ⟨n, w₀, hn, hpointer, hstore⟩ := hlead.exists_done (n := 0) hw rfl
  have hvalue := Workspace.value_of_store hstore x
  rw [htext, ← hvalue]
  exact ⟨w₀, hpointer, hstore, Code.runsOnce (Code.ends_done_iff.mpr ⟨n, hn⟩) hpointer hmoves hclose⟩

/-- A guarded body is run once if the condition is not zero, and not at all if it is. It starts with a copy
of the condition in the first cell above the live ones, and that cell is what the branch looks at. -/
theorem guarded_runs (hcs : Paired cs) (hx : x.index < e.depth)
    (h : scope (emitAll ((Routine.copy ⟨e.depth⟩ x).commands (e.depth + 1) ++
      [.branch ⟨e.depth⟩ cs])) e = .ok e') :
    ∃ e₁ b front back,
      emitAll ((Routine.copy ⟨e.depth⟩ x).commands (e.depth + 1)) e.allocate = .ok e₁ ∧
      Wraps cs ⟨e.depth⟩ e₁ e e' b front back ∧
      ∀ w : Workspace, w.tape.pointer = e.cursor → ∃ w₀ : Workspace, w₀.tape.pointer = e.depth ∧
        w₀.store = (w.store.put ⟨e.depth⟩ (w.store.get x)).put ⟨e.depth + 1⟩ 0 ∧
        w.RunsOnce front b.code.text back ⟨e.depth⟩ (w.value x) w₀ := by
  obtain ⟨e₁, b, lead, d, close, h₁, hb, htext, hsymbols, hcursor, hlead, hmoves, hclose⟩ :=
    exists_guarded_frame hcs h
  refine ⟨e₁, b, lead.text ++ "[", close.text ++ "]", h₁, wraps_of_symbols hb htext hsymbols hcursor,
    fun w hw => ?_⟩
  have hspare : (⟨e.depth⟩ : Slot) ≠ ⟨e.depth + 1⟩ := (Slot.mk_ne_of_lt (Nat.lt_succ_self _)).symm
  -- the copy is one between two slots, so the store behind it is known in all cells
  obtain ⟨k, t, ht, rfl⟩ := Routine.ensures_copy_of_ne (s := w.store) (Slot.mk_ne_of_lt hx) hspare
    (Slot.mk_ne_of_lt (Nat.lt_succ_of_lt hx)).symm
  obtain ⟨n, w₀, hn, hpointer, hstore⟩ := hlead.exists_done (n := k) hw ht
  have hvalue : w₀.value ⟨e.depth⟩ = w.value x := by
    refine congrArg UInt64.toNat (?_ : w₀.store.get ⟨e.depth⟩ = w.store.get x)
    rw [hstore, Store.get_put_of_ne hspare, Store.get_put_self]
  rw [htext, ← hvalue]
  exact ⟨w₀, hpointer, hstore, Code.runsOnce (Code.ends_done_iff.mpr ⟨n, hn⟩) hpointer hmoves hclose⟩

end Emitter

namespace Routine

open Emitter

/-- The body of a counted loop is run as often as the counter says, and the bodies of both kinds of
branches are run once if the condition is not zero and not at all if it is. A guarded body finds the
condition as it was, and leaves it as it likes: what is zero behind the branch is the copy. -/
theorem executions_of_body {cs : List Command} (hcs : Paired cs) (x : Slot) (e e' : Emitter) :
    (emitAll ((countdown x (.ofCommands cs)).commands e.depth) e = .ok e' →
      ∃ b front back, Wraps cs x e e e' b front back ∧ ∀ w : Workspace,
        w.tape.pointer = e.cursor → w.RunsByCounter front b.code.text back x) ∧
    (emitAll ((branch x (.ofCommands cs)).commands e.depth) e = .ok e' →
      ∃ b front back, Wraps cs x e e e' b front back ∧ ∀ w : Workspace,
        w.tape.pointer = e.cursor → ∃ w₀ : Workspace, w₀.tape.pointer = x.index ∧
          w₀.store = w.store ∧ w.RunsOnce front b.code.text back x (w.value x) w₀) ∧
    (x.index < e.depth →
      emitAll ((guarded x (.ofCommands cs)).commands e.depth) e = .ok e' →
      ∃ e₁ b front back,
        emitAll ((copy ⟨e.depth⟩ x).commands (e.depth + 1)) e.allocate = .ok e₁ ∧
        Wraps cs ⟨e.depth⟩ e₁ e e' b front back ∧ ∀ w : Workspace,
          w.tape.pointer = e.cursor → ∃ w₀ : Workspace, w₀.tape.pointer = e.depth ∧
            w₀.store = (w.store.put ⟨e.depth⟩ (w.store.get x)).put ⟨e.depth + 1⟩ 0 ∧
            w.RunsOnce front b.code.text back ⟨e.depth⟩ (w.value x) w₀) := by
  have hcountdown : emitAll ((countdown x (.ofCommands cs)).commands e.depth)
      = Emitter.loop x fun e => emitAll cs e >>= onCell x (.add .negOne) := by
    have hbody : emitAll (cs ++ [.decrement x]) = fun e => emitAll cs e >>= onCell x (.add .negOne) := by
      funext e
      rw [emitAll_append, emitAll_singleton]
      rfl
    rw [← hbody]
    exact emitAll_singleton _
  refine ⟨fun h => ?_, fun h => ?_, fun hx h => ?_⟩
  · rw [hcountdown] at h
    exact countdown_runs hcs h
  · exact branch_runs hcs ((congrFun (emitAll_singleton _) e).symm.trans h)
  · exact guarded_runs hcs hx ((congrFun (emitAll_singleton _) e).symm.trans h)

/-- The counter is three, and the body adds one to a cell that holds two. -/
theorem executions_of_body_increment :
    let cs : List Command := [.increment ⟨1⟩]
    let e : Emitter := Emitter.allocate (Emitter.allocate {})
    let w : Workspace := { tape := ⟨[], 3, [2]⟩ }
    (∃ e' front inner back starts w',
      emitAll ((countdown ⟨0⟩ (.ofCommands cs)).commands e.depth) e = .ok e' ∧
      starts.length = 3 ∧ w.Enters front inner back starts ∧
      w.Crosses (front ++ inner ++ back) w' ∧ w'.value ⟨0⟩ = 0) ∧
    (∃ e' front inner back w₀,
      emitAll ((branch ⟨0⟩ (.ofCommands cs)).commands e.depth) e = .ok e' ∧
      w.Enters front inner back [w₀] ∧ w₀.store = w.store) ∧
    (∃ e' front inner back w₀,
      emitAll ((guarded ⟨0⟩ (.ofCommands cs)).commands e.depth) e = .ok e' ∧
      w.Enters front inner back [w₀] ∧ w₀.value ⟨0⟩ = 3 ∧ w₀.value ⟨2⟩ = 3) := by
  intro cs e w
  have hcs : Paired cs := .plain rfl .nil
  have hvalue : w.value ⟨0⟩ = 3 := by decide
  have hne : w.value ⟨0⟩ ≠ 0 := by simp [hvalue]
  refine ⟨?_, ?_, ?_⟩
  · obtain ⟨e', he'⟩ : ∃ e', emitAll ((countdown ⟨0⟩ (.ofCommands cs)).commands e.depth) e = .ok e' :=
      Violation.exists_of_isOk (by decide +kernel)
    obtain ⟨b, front, back, hwraps, hruns⟩ := (executions_of_body hcs ⟨0⟩ e e').1 he'
    -- A round moves one from the counter to the second cell, so their sum stays.
    let P : Store → Prop := fun s => (s.get ⟨0⟩).toNat + (s.get ⟨1⟩).toNat = 5
    have hround : ∀ u : Workspace, P u.store → u.tape.pointer = 0 → u.value ⟨0⟩ ≠ 0 →
        ∃ u', u.Crosses b.code.text u' ∧ u'.value ⟨0⟩ = u.value ⟨0⟩ ∧
          P (u'.store.put ⟨0⟩ (u'.store.get ⟨0⟩ - 1)) := by
      intro u hP hu hne
      have hsum : (u.store.get ⟨0⟩).toNat + (u.store.get ⟨1⟩).toNat = 5 := hP
      obtain ⟨u', hcrosses, hkept, hround⟩ := hwraps.crosses_increment (by decide) hu hne (by omega)
      exact ⟨u', hcrosses, hkept, hround.trans hsum⟩
    obtain ⟨w₀, starts, w', -, -, hlength, henters, -, hcrosses, -, hzero⟩ :=
      hruns w rfl P (by decide) hround
    exact ⟨e', front, b.code.text, back, starts, w', he', hlength.trans hvalue, henters, hcrosses, hzero⟩
  · obtain ⟨e', he'⟩ : ∃ e', emitAll ((branch ⟨0⟩ (.ofCommands cs)).commands e.depth) e = .ok e' :=
      Violation.exists_of_isOk (by decide +kernel)
    obtain ⟨b, front, back, -, hruns⟩ := (executions_of_body hcs ⟨0⟩ e e').2.1 he'
    obtain ⟨w₀, -, hstore, honce⟩ := hruns w rfl
    exact ⟨e', front, b.code.text, back, w₀, he', honce.enters_of_ne hne, hstore⟩
  · obtain ⟨e', he'⟩ : ∃ e', emitAll ((guarded ⟨0⟩ (.ofCommands cs)).commands e.depth) e = .ok e' :=
      Violation.exists_of_isOk (by decide +kernel)
    obtain ⟨-, b, front, back, -, -, hruns⟩ :=
      (executions_of_body hcs ⟨0⟩ e e').2.2 (by decide) he'
    obtain ⟨w₀, -, hstore, honce⟩ := hruns w rfl
    have hcells := congrArg Store.cells hstore
    exact ⟨e', front, b.code.text, back, w₀, he', honce.enters_of_ne hne,
      congrArg UInt64.toNat (congrFun hcells 0), congrArg UInt64.toNat (congrFun hcells 2)⟩

end Routine

end TapeLowering
