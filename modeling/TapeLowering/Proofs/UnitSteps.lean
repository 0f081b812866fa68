import TapeLowering.Command.Meaning
import TapeLowering.Proofs.Refinement

/-!
# Commands as unit steps

A reset, a move from one cell to another one and a branch happen at once in the meaning of a command,
and are loops in its code. The loops here take one step after the other on a store, without a pointer,
and refine what happens at once.

A move that fails does so halfway, so its two cells are not what they were: only the inputs and the
outputs are the same then.
-/

namespace TapeLowering

open Outcome

namespace Store

variable {x y : Slot} {s t u : Store}

/-- The same inputs are left, and the same outputs were written. -/
def SameStreams (s t : Store) : Prop := s.inputs = t.inputs ∧ s.written = t.written

theorem SameStreams.trans (h : s.SameStreams t) (h' : t.SameStreams u) : s.SameStreams u :=
  ⟨h.1.trans h'.1, h.2.trans h'.2⟩

theorem put_get (s : Store) (x : Slot) : s.put x (s.get x) = s := by
  have h : (fun i => if i = x.index then s.cells x.index else s.cells i) = s.cells := by
    funext i
    split <;> simp_all
  simp [put, get, h]

theorem put_put (s : Store) (x : Slot) (a b : Cell) : (s.put x a).put x b = s.put x b := by
  simp only [put, mk.injEq, and_true]
  funext i
  split <;> rfl

theorem put_comm (h : x ≠ y) (s : Store) (a b : Cell) :
    (s.put x a).put y b = (s.put y b).put x a := by
  have hi : x.index ≠ y.index := mt Slot.ext h
  simp only [put, mk.injEq, and_true]
  funext i
  split <;> split <;> simp_all

/-! ## Steps of one cell -/

/-- A change of one cell that is made several times comes to what the cell holds then, if none of them
fails. -/
theorem times_change {step : Cell → Option Cell} {fault : Fault} {n : Nat} {v : Cell}
    (h : Cell.iterate? step n (s.get x) = some v) :
    times (fun s => s.change x (step (s.get x)) fault) n s = .done (s.put x v) := by
  induction n generalizing s with
  | zero =>
    obtain rfl := Option.some.inj h
    rw [times, put_get]
  | succ n ih =>
    obtain ⟨c, hc, hv⟩ := Option.bind_eq_some_iff.mp h
    have hrest := ih (s := s.put x c) (by rwa [get_put_self])
    rw [times, hc, change, andThen_done, hrest, put_put]

/-- Setting a cell that holds zero is an addition of ones. -/
theorem times_increment_zero (s : Store) (x : Slot) (v : Cell) :
    times (increment x) v.toNat (s.put x 0) = .done (s.put x v) := by
  have hv : Cell.iterate? Cell.succ? v.toNat ((s.put x 0).get x) = some v := by
    rw [Cell.iterate?_succ?, get_put_self, if_pos (by simpa using v.toNat_lt)]
    simp
  rw [show increment x = fun s => s.change x (s.get x).succ? (.cellOverflow x.index) from rfl,
    times_change hv, put_put]

/-- A cell is taken down to zero in as many rounds as it holds. -/
theorem repeatWhile_decrement {n : Nat} (hn : (s.get x).toNat = n) :
    repeatWhile (fun s => s.get x != 0) (decrement x) n s = .done (s.put x 0) := by
  induction n generalizing s with
  | zero =>
    have hz : s.get x = 0 := UInt64.toNat_inj.mp hn
    rw [repeatWhile_of_not (by simp [hz]), ← hz, put_get]
  | succ n ih =>
    have hz : s.get x ≠ 0 := fun hz => by simp [hz] at hn
    cases hp : (s.get x).pred? with
    | none => exact absurd (Cell.pred?_eq_none_iff.mp hp) (by omega)
    | some c =>
      have hc := Cell.toNat_of_pred? hp
      rw [repeatWhile_succ_of_test (by simp [hz]), decrement, hp, change, andThen_done,
        ih (by rw [get_put_self]; omega), put_put]

/-- Taking one from a cell until it is zero is a reset. -/
theorem refines_reset (s : Store) (x : Slot) : Refines Eq SameStreams (fun _ => .done (s.put x 0))
    fun n => .repeatWhile (fun s => s.get x != 0) (decrement x) n s where
  known _ _ := ⟨_, matches_done_iff.mpr ⟨_, repeatWhile_decrement rfl, rfl⟩⟩
  unfinished _ h := by cases h

/-! ## Steps from one cell to another one -/

/-- Takes one from the source and a step with the destination. -/
def drainOnce (source destination : Slot) (step : Cell → Option Cell) (fault : Fault) (s : Store) :
    Outcome Store :=
  (s.decrement source).andThen fun s => s.change destination (step (s.get destination)) fault

/-- Takes as many steps with the destination as the source says, and sets the source to zero. -/
def drain (source destination : Slot) (step : Cell → Option Cell) (fault : Fault) (s : Store) :
    Outcome Store :=
  match Cell.iterate? step (s.get source).toNat (s.get destination) with
  | some value => .done ((s.put destination value).put source 0)
  | none => .failed fault s

/-- A transfer is a drain that increments. -/
theorem transfer_eq_drain (x y : Slot) :
    transfer x y = drain x y Cell.succ? (.cellOverflow y.index) := by
  funext s
  rw [drain, Cell.iterate?_succ?, transfer, Nat.add_comm]
  split <;> simp

/-- A deduction is a drain that decrements. -/
theorem deduct_eq_drain (x y : Slot) :
    deduct x y = drain x y Cell.pred? (.decrementOfZero y.index) := by
  funext s
  simp only [drain, Cell.iterate?_pred?, deduct, UInt64.le_iff_toNat_le]
  split <;> simp

/-- Draining a cell one by one comes to what draining it at once comes to. -/
theorem matches_repeatWhile_drainOnce (h : x ≠ y) (step : Cell → Option Cell) (fault : Fault)
    {n : Nat} (hn : (s.get x).toNat = n) : Matches Eq SameStreams (s.drain x y step fault)
      (.repeatWhile (fun s => s.get x != 0) (drainOnce x y step fault) n s) := by
  induction n generalizing s with
  | zero =>
    have hz : s.get x = 0 := UInt64.toNat_inj.mp hn
    have hdrain : s.drain x y step fault = .done s := by
      rw [drain, hn, Cell.iterate?]
      simp only [put_get, ← hz]
    rw [repeatWhile_of_not (by simp [hz]), hdrain]
    exact rfl
  | succ n ih =>
    have hz : s.get x ≠ 0 := fun hz => by simp [hz] at hn
    rw [repeatWhile_succ_of_test (by simp [hz])]
    cases hp : (s.get x).pred? with
    | none => exact absurd (Cell.pred?_eq_none_iff.mp hp) (by omega)
    | some c =>
      have hc := Cell.toNat_of_pred? hp
      have hy : (s.put x c).get y = s.get y := get_put_of_ne h.symm s c
      rw [drainOnce, decrement, hp, change, andThen_done, hy]
      cases hd : step (s.get y) with
      | none =>
        -- the first step that has no result fails the move as a whole
        rw [drain, hn, Cell.iterate?, hd]
        exact ⟨rfl, rfl, rfl⟩
      | some d =>
        -- the source is one less, and the destination one step further
        have hrest := ih (s := (s.put x c).put y d) (by rw [get_put_of_ne h, get_put_self]; omega)
        rw [change, andThen_done]
        have hiter : Cell.iterate? step (n + 1) (s.get y) = Cell.iterate? step n d := by
          rw [Cell.iterate?, hd, Option.bind_some]
        rw [drain, get_put_of_ne h, get_put_self, get_put_self, show c.toNat = n by omega] at hrest
        rw [drain, hn, hiter]
        cases hv : Cell.iterate? step n d with
        | none =>
          rw [hv] at hrest
          obtain ⟨t, ht, hsame⟩ := matches_failed_iff.mp hrest
          rw [ht]
          exact ⟨rfl, hsame⟩
        | some v =>
          rw [hv] at hrest
          obtain ⟨t, ht, rfl⟩ := matches_done_iff.mp hrest
          rw [ht, put_put, put_comm h, put_put]
          exact rfl

/-- A drain at once is refined by its rounds, also where one of them fails. -/
theorem refines_drain (h : x ≠ y) (step : Cell → Option Cell) (fault : Fault) (s : Store) :
    Refines Eq SameStreams (fun _ => s.drain x y step fault)
      fun n => .repeatWhile (fun s => s.get x != 0) (drainOnce x y step fault) n s where
  known _ _ := ⟨_, matches_repeatWhile_drainOnce h step fault rfl⟩
  unfinished _ hd := by
    unfold drain at hd
    split at hd <;> cases hd

/-! ## Branches -/

/-- A loop whose body ends with a reset of its condition runs at most once. -/
theorem refines_branch {body : Nat → Store → Outcome Store} (hbody : ∀ s, Growing fun n => body n s)
    (x : Slot) (s : Store) : Refines Eq SameStreams
      (fun n => if s.get x = 0 then .done s else (body n s).andThen fun s => .done (s.put x 0))
      fun n => .repeatWhile (fun s => s.get x != 0)
        (fun s => (body n s).andThen fun s => .done (s.put x 0)) n s where
  known n hne := by
    by_cases hz : s.get x = 0
    · rw [if_pos hz]
      exact ⟨0, by rw [repeatWhile_of_not (by simp [hz])]; exact rfl⟩
    -- one round, and the condition is zero behind it
    · refine ⟨n + 1, ?_⟩
      rw [if_neg hz] at hne ⊢
      rw [repeatWhile_succ_of_test (by simp [hz])]
      cases hb : body n s with
      | done t =>
        rw [(hbody s).done hb (Nat.le_succ n), andThen_done, andThen_done,
          repeatWhile_of_not (by simp)]
        exact rfl
      | failed fault t =>
        rw [(hbody s).failed hb (Nat.le_succ n)]
        exact ⟨rfl, rfl, rfl⟩
      | unfinished => simp [hb] at hne
  unfinished n hs := by
    by_cases hz : s.get x = 0
    · simp [hz] at hs
    · rw [if_neg hz] at hs
      exact repeatWhile_of_unfinished (by simp [hz]) hs n

end Store

/-! ## Fuel -/

mutual

/-- With more fuel, a command does the same unless it was unfinished. By induction on the command,
together with the list of its body. -/
theorem Command.growing_run (c : Command) (s : Store) : Growing fun fuel => c.run fuel s := by
  cases c with
  | loop x body => exact growing_repeatWhile _ (Command.growing_runAll body) s
  | branch x body =>
    simp only [Command.run]
    split
    · exact growing_const _
    · exact (Command.growing_runAll body s).andThen fun _ => growing_const _
  | scope body => exact Command.growing_runAll body s
  | allocate | release | increment | decrement | reset | set | read | write | transfer | deduct
  | detach | append | unknown => exact growing_const _

/-- With more fuel, commands that have ended end in the same way. -/
theorem Command.growing_runAll (cs : List Command) (s : Store) :
    Growing fun fuel => Command.runAll fuel cs s := by
  match cs with
  | [] => exact growing_const _
  | c :: rest => exact (Command.growing_run c s).andThen (Command.growing_runAll rest)

end

end TapeLowering
