import Mathlib.Data.List.SplitBy
import TapeLowering.Proofs.Joining

/-!
# Code does not depend on how it is put together

Instructions can be put together in many ways: they are pushed one after the other, or parts of them
are built first and extended by each other. A `Plan` is such a way. All plans for the same
instructions have the same result, code or overflow (`Plan.build_eq`), so `Code.extend`, which lets
one instruction fuse and appends the others unchecked, does what pushing all of them does.

Whether there is an overflow can be told from the instructions alone. What does not fuse is built
apart (`ofInstructions_append`), so the instructions fall into maximal runs, and the sums within a run
go in one direction: if some of its instructions are too much together, all of them are. Hence code
is built unless some maximal run comes to more than an amount holds (`exists_ofInstructions_iff`).
-/

namespace TapeLowering

/-- Two results that are the same whenever they are code, and overflow otherwise, are equal. -/
theorem Violation.eq_of_eq_ok_iff {α : Type} {x y : Except Violation α}
    (hx : ∀ v, x = .error v → v = .overflow) (hy : ∀ v, y = .error v → v = .overflow)
    (h : ∀ r, x = .ok r ↔ y = .ok r) : x = y := by
  cases x with
  | ok r => exact ((h r).mp rfl).symm
  | error v =>
    cases y with
    | ok r => exact (h r).mpr rfl
    | error w => rw [hx v rfl, hy w rfl]

namespace Code

variable {c d f r : Code} {i j : Instruction} {is js run : List Instruction}

/-! ## Instructions pushed in order -/

/-- Three codes are put together in either order, with the same code or the same overflow. -/
theorem extend_extend (hc : c.isNormal = true) (hd : d.isNormal = true) (hf : f.isNormal = true) :
    (c.extend d >>= fun x => x.extend f) = d.extend f >>= c.extend := by
  apply Violation.eq_of_eq_ok_iff
  · intro v hv
    rcases Violation.bind_eq_error_iff.mp hv with h | ⟨_, _, h⟩ <;> exact eq_overflow_of_extend h
  · intro v hv
    rcases Violation.bind_eq_error_iff.mp hv with h | ⟨_, _, h⟩ <;> exact eq_overflow_of_extend h
  · intro r
    rw [Violation.bind_eq_ok_iff, Violation.bind_eq_ok_iff]
    exact extend_extend_eq_ok_iff hc hd hf

/-- Nothing but an overflow keeps code from being built. -/
theorem eq_overflow_of_foldlM_push {v : Violation} (h : is.foldlM push c = .error v) :
    v = .overflow := by
  induction is generalizing c with
  | nil => cases h
  | cons i is ih =>
    rw [List.foldlM_cons] at h
    rcases Violation.bind_eq_error_iff.mp h with h | ⟨_, _, h⟩
    · exact eq_overflow_of_push h
    · exact ih h

/-- Instructions pushed onto code in normal form leave it in normal form. -/
theorem isNormal_of_foldlM_push (hc : c.isNormal = true)
    (his : ∀ i ∈ is, i.isIdle = true ∨ i.isNormal = true) (h : is.foldlM push c = .ok r) :
    r.isNormal = true := by
  induction is generalizing c with
  | nil =>
    cases h
    exact hc
  | cons i is ih =>
    rw [List.foldlM_cons] at h
    obtain ⟨x, hx, h⟩ := Violation.bind_eq_ok_iff.mp h
    obtain ⟨hi, his⟩ := List.forall_mem_cons.mp his
    exact ih (isNormal_of_push hc hi hx) his h

/-- Instructions are pushed on the whole code, or on a part of it that is put in its place
afterwards. -/
theorem extend_bind_foldlM_push (hc : c.isNormal = true) (hd : d.isNormal = true)
    (his : ∀ i ∈ is, i.isIdle = true ∨ i.isNormal = true) :
    (c.extend d >>= fun x => is.foldlM push x) = is.foldlM push d >>= c.extend := by
  induction is generalizing d with
  | nil => simp
  | cons i is ih =>
    obtain ⟨hi, his⟩ := List.forall_mem_cons.mp his
    have hstep : (c.extend d >>= fun x => x.push i) = d.push i >>= c.extend := by
      simp only [← extend_ofInstruction]
      exact extend_extend hc hd (isNormal_ofInstruction hi)
    calc (c.extend d >>= fun x => (i :: is).foldlM push x)
        = (c.extend d >>= fun x => x.push i) >>= fun x => is.foldlM push x := by
          simp only [List.foldlM_cons, bind_assoc]
      _ = d.push i >>= fun x => c.extend x >>= fun y => is.foldlM push y := by
          rw [hstep, bind_assoc]
      _ = d.push i >>= fun x => is.foldlM push x >>= c.extend := by
          cases hx : d.push i with
          | error v => rfl
          | ok x => exact ih (isNormal_of_push hd hi hx) his
      _ = (i :: is).foldlM push d >>= c.extend := by rw [List.foldlM_cons, bind_assoc]

/-- Pushing instructions in order extends code by what they build on their own. -/
theorem foldlM_push (hc : c.isNormal = true)
    (his : ∀ i ∈ is, i.isIdle = true ∨ i.isNormal = true) :
    is.foldlM push c = ofInstructions is >>= c.extend :=
  extend_bind_foldlM_push hc isNormal_nil his

theorem isIdle_or_isNormal_of_isNormal (hc : c.isNormal = true) :
    ∀ i ∈ c, i.isIdle = true ∨ i.isNormal = true := fun i hi => .inr ((isNormal_iff.mp hc).1 i hi)

/-- Code in normal form is what its own instructions build. -/
theorem ofInstructions_of_isNormal (hc : c.isNormal = true) : ofInstructions c = .ok c := by
  induction c using List.reverseRecOn with
  | nil => rfl
  | append_singleton init last ih =>
    obtain ⟨hinit, hlast, hseam⟩ := isNormal_append.mp hc
    rw [isNormal_singleton] at hlast
    have hpush : push init last = .ok (init ++ [last]) := by
      rw [push_of_isNormal hlast]
      exact joinLast_of_not_fuses fun k hk => hseam k hk last rfl
    rw [ofInstructions, List.foldlM_append, ← ofInstructions, ih hinit]
    exact (bind_pure (push init last)).trans hpush

/-- To extend code is to push the instructions of the other code one by one. -/
theorem extend_eq_foldlM_push (hc : c.isNormal = true) (hd : d.isNormal = true) :
    c.extend d = d.foldlM push c := by
  rw [foldlM_push hc (isIdle_or_isNormal_of_isNormal hd), ofInstructions_of_isNormal hd]
  rfl

/-! ## Plans -/

/-- A way to put code together. -/
inductive Plan where
  /-- Takes code that is there already. -/
  | code (c : Code)
  /-- Pushes one more instruction. -/
  | push (front : Plan) (i : Instruction)
  /-- Builds two parts, and extends the first one by the second one. -/
  | extend (front back : Plan)

namespace Plan

/-- The instructions that a plan puts together, in order. -/
def instructions : Plan → List Instruction
  | code c => c
  | push front i => front.instructions ++ [i]
  | extend front back => front.instructions ++ back.instructions

/-- What a plan results in. -/
def build : Plan → Except Violation Code
  | code c => .ok c
  | push front i => do (← front.build).push i
  | extend front back => do (← front.build).extend (← back.build)

/-- Whether all code in a plan, also in the body of a loop, is built from nothing. -/
def IsBuilt : Plan → Prop
  | code c => Built c
  | push front i => front.IsBuilt ∧ ∀ body, i = .loop body → Built body
  | extend front back => front.IsBuilt ∧ back.IsBuilt

/-- The instructions of a plan whose loops are built are idle or in normal form. -/
theorem isIdle_or_isNormal {plan : Plan} (h : plan.IsBuilt) :
    ∀ i ∈ plan.instructions, i.isIdle = true ∨ i.isNormal = true := by
  induction plan with
  | code c => exact isIdle_or_isNormal_of_isNormal h.isNormal
  | push front i ih =>
    have hi := Instruction.isIdle_or_isNormal fun body hbody => (h.2 body hbody).isNormal
    exact List.forall_mem_append.mpr ⟨ih h.1, List.forall_mem_singleton.mpr hi⟩
  | extend front back ihfront ihback =>
    exact List.forall_mem_append.mpr ⟨ihfront h.1, ihback h.2⟩

/-- Every plan for some instructions has the result of pushing them in order. -/
theorem build_eq {plan : Plan} (h : plan.IsBuilt) :
    plan.build = ofInstructions plan.instructions := by
  induction plan with
  | code c => exact (ofInstructions_of_isNormal h.isNormal).symm
  | push front i ih =>
    rw [build, ih h.1, instructions, ofInstructions, ofInstructions, List.foldlM_append]
    simp
  | extend front back ihfront ihback =>
    calc (extend front back).build
        = ofInstructions front.instructions >>= fun c =>
            ofInstructions back.instructions >>= c.extend := by
          rw [build, ihfront h.1, ihback h.2]
      _ = ofInstructions front.instructions >>= fun c => back.instructions.foldlM Code.push c := by
          cases hfront : ofInstructions front.instructions with
          | error v => rfl
          | ok c =>
            have hc := isNormal_of_foldlM_push isNormal_nil (isIdle_or_isNormal h.1) hfront
            exact (foldlM_push hc (isIdle_or_isNormal h.2)).symm
      _ = ofInstructions (extend front back).instructions := List.foldlM_append.symm

end Plan

end Code

/-! ## Runs -/

/-- Whether an integer is the value of an amount. -/
def Amount.Fits (n : Int) : Prop := -0x8000000000000000 ≤ n ∧ n < 0x8000000000000000

/-- An amount holds just the integers in range. -/
theorem Amount.exists_ofInt_iff {n : Int} : (∃ a, ofInt n = .ok a) ↔ Fits n := by
  unfold ofInt Fits
  split <;> simp_all

/-- How far a move or an addition goes; any other instruction goes nowhere. -/
def Instruction.distance : Instruction → Int
  | right a | add a => a.val
  | read | write | loop _ => 0

namespace Instruction

variable {i j k : Instruction} {c : Code}

/-- What an instruction comes to is in range, since an amount holds it. -/
theorem fits_distance (i : Instruction) : Amount.Fits i.distance := by
  cases i with
  | right a | add a => exact ⟨a.neg_bound_le, a.lt_bound⟩
  | read | write | loop => simp [Amount.Fits, distance]

/-- Instructions that fuse go in one direction. -/
theorem distance_of_fuses (h : i.fuses j = true) : i.distance < 0 ∧ j.distance < 0 ∨
    i.distance = 0 ∧ j.distance = 0 ∨ 0 < i.distance ∧ 0 < j.distance := by
  cases i <;> cases j <;> first | cases h | exact Amount.sameSign_iff.mp h

theorem fuses_trans (hij : i.fuses j = true) (hjk : j.fuses k = true) : i.fuses k = true := by
  rw [fuses_iff] at hij hjk ⊢
  exact ⟨hij.1.trans hjk.1, hij.2⟩

instance : Trans (fun i j : Instruction => i.fuses j = true) (fun i j => i.fuses j = true)
    (fun i j => i.fuses j = true) := ⟨fuses_trans⟩

/-- Instructions that fuse are of one kind, and their amounts are added. -/
theorem exists_join_eq (h : i.fuses j = true) :
    ∃ (make : Amount → Instruction) (a b : Amount), i = make a ∧ j = make b ∧
      (∀ c, (make c).distance = c.val) ∧ i.join j = (a.add b).map ([make ·]) := by
  unfold fuses at h
  split at h
  · rename_i a b
    exact ⟨right, a, b, rfl, rfl, fun _ => rfl, by rw [join, if_pos h]⟩
  · rename_i a b
    exact ⟨add, a, b, rfl, rfl, fun _ => rfl, by rw [join, if_pos h]⟩
  · cases h

/-- Two instructions that fuse have a join if their sum is in range. -/
theorem exists_join_iff (h : i.fuses j = true) :
    (∃ c, i.join j = .ok c) ↔ Amount.Fits (i.distance + j.distance) := by
  obtain ⟨make, a, b, rfl, rfl, hdistance, hjoin⟩ := exists_join_eq h
  rw [hjoin, hdistance, hdistance, ← Amount.exists_ofInt_iff]
  simp [Violation.map_eq_ok_iff, Amount.add]

/-- The join of two instructions comes to their sum. -/
theorem distance_of_join (h : i.fuses j = true) (hk : i.join j = .ok [k]) :
    k.distance = i.distance + j.distance := by
  obtain ⟨make, a, b, rfl, rfl, hdistance, hjoin⟩ := exists_join_eq h
  rw [hjoin] at hk
  obtain ⟨s, hs, hk⟩ := Violation.map_eq_ok_iff.mp hk
  rw [← (List.cons.inj hk).1, hdistance, hdistance, hdistance]
  exact Amount.ofInt_eq_ok_iff.mp hs

end Instruction

namespace Code

variable {c d f r : Code} {i j : Instruction} {is js run : List Instruction}

/-- How far a run of moves, or of additions, goes: the sum of its amounts. -/
def total : List Instruction → Int
  | [] => 0
  | i :: run => i.distance + total run

@[simp] theorem total_nil : total [] = 0 := rfl

@[simp] theorem total_cons (i : Instruction) (run : List Instruction) :
    total (i :: run) = i.distance + total run := rfl

/-- The maximal runs of moves, or of additions, in one direction. Instructions that stand for no
symbol do not count, and any other instruction is a run of its own. -/
def maximalRuns (is : List Instruction) : List (List Instruction) :=
  (is.filter (!·.isIdle)).splitBy Instruction.fuses

/-- Instructions that all fuse with one have the direction of that one, and so has their sum. -/
theorem total_of_fuses (h : ∀ j ∈ run, i.fuses j = true) :
    (0 ≤ i.distance → 0 ≤ total run) ∧ (i.distance ≤ 0 → total run ≤ 0) := by
  induction run with
  | nil => simp
  | cons j run ih =>
    obtain ⟨hj, hrun⟩ := List.forall_mem_cons.mp h
    have hdir := Instruction.distance_of_fuses hj
    have hrest := ih hrun
    rw [total_cons]
    omega

/-- Pushing all of a run on its first instruction gives code exactly if the whole run comes to an
amount: once a part of it is too much, the rest goes further in the same direction. -/
theorem exists_foldlM_push_run (hi : i.isNormal = true) (hrun : ∀ j ∈ run, i.fuses j = true) :
    (∃ r, run.foldlM push [i] = .ok r) ↔ Amount.Fits (i.distance + total run) := by
  induction run generalizing i with
  | nil => simpa [pure, Except.pure] using i.fits_distance
  | cons j run ih =>
    obtain ⟨hj, hrun⟩ := List.forall_mem_cons.mp hrun
    obtain ⟨hcourse, hsome⟩ := Instruction.fuses_iff.mp hj
    have hnormal : j.isNormal = true := by
      rw [Instruction.isNormal_congr hcourse.symm hsome, hi]
    rw [List.foldlM_cons, push_of_isNormal hnormal, joinLast, total_cons, ← Int.add_assoc]
    cases hjoin : i.join j with
    | ok c =>
      obtain ⟨k, rfl, hk⟩ := Instruction.join_of_fuses hj hjoin
      rw [← Instruction.distance_of_join hj hjoin]
      refine ih ?_ fun l hl => ?_
      · rw [Instruction.isNormal_congr hk hsome, hi]
      · rw [Instruction.fuses_congr_left hk]
        exact hrun l hl
    | error v =>
      have hover : ¬ Amount.Fits (i.distance + j.distance) := by
        rw [← Instruction.exists_join_iff hj, hjoin]
        simp
      -- what is still to be added has the same direction, so it does not help
      have hdir := Instruction.distance_of_fuses hj
      have hrest := total_of_fuses hrun
      unfold Amount.Fits at hover ⊢
      simp only [bind, Except.bind, reduceCtorEq, exists_false, false_iff]
      omega

/-- A run is built if its sum is in range. The sums of its parts are no further from zero, as they have
one direction. -/
theorem exists_ofInstructions_run (hnormal : ∀ i ∈ run, i.isNormal = true)
    (hrun : run.IsChain fun i j => i.fuses j = true) :
    (∃ r, ofInstructions run = .ok r) ↔ Amount.Fits (total run) := by
  cases run with
  | nil => simp [ofInstructions, Amount.Fits, pure, Except.pure]
  | cons i run =>
    have hi := hnormal i (List.mem_cons_self ..)
    have hfuses := (List.pairwise_cons.mp (List.isChain_iff_pairwise.mp hrun)).1
    rw [ofInstructions, List.foldlM_cons, push_of_isNormal hi, total_cons,
      ← exists_foldlM_push_run hi hfuses]
    rfl

/-! ## Seams between runs -/

/-- What is pushed on code does not reach what stands before its last instructions. -/
theorem foldlM_push_append (his : ∀ i ∈ is, i.isNormal = true) (c : Code) (hd : d.isNormal = true)
    (hne : d ≠ []) : is.foldlM push (c ++ d) = (is.foldlM push d).map (c ++ ·) := by
  induction is generalizing d with
  | nil => rfl
  | cons i is ih =>
    obtain ⟨hi, his⟩ := List.forall_mem_cons.mp his
    rw [List.foldlM_cons, List.foldlM_cons, push_of_isNormal hi, push_of_isNormal hi,
      joinLast_append i c hne]
    cases hx : joinLast i d with
    | error v => rfl
    | ok x =>
      obtain ⟨hnormal, k, hk, _⟩ := isNormal_of_joinLast hd hi hx
      exact ih his hnormal (List.ne_nil_of_mem (List.mem_of_getLast? hk))

/-- Code ends in the direction of the last instruction pushed. -/
theorem course_getLast_of_ofInstructions (his : ∀ i ∈ is, i.isNormal = true)
    (h : ofInstructions is = .ok c) :
    c.getLast?.map Instruction.course = is.getLast?.map Instruction.course := by
  rcases List.eq_nil_or_concat is with rfl | ⟨init, last, rfl⟩
  · cases h
    rfl
  · rw [List.concat_eq_append] at his h ⊢
    obtain ⟨hinit, hlast⟩ := List.forall_mem_append.mp his
    rw [List.forall_mem_singleton] at hlast
    rw [ofInstructions, List.foldlM_append] at h
    obtain ⟨x, hx, hpush⟩ := Violation.bind_eq_ok_iff.mp h
    have hnormal := isNormal_of_foldlM_push isNormal_nil (fun i hi => .inr (hinit i hi)) hx
    rw [List.foldlM_cons, push_of_isNormal hlast] at hpush
    obtain ⟨r, hr, hc⟩ := Violation.bind_eq_ok_iff.mp hpush
    obtain rfl := Except.ok.inj hc
    obtain ⟨_, k, hk, hcourse⟩ := isNormal_of_joinLast hnormal hlast hr
    rw [hk, List.getLast?_concat, Option.map_some, Option.map_some, hcourse]

/-- What does not fuse is built apart. -/
theorem ofInstructions_append (his : ∀ i ∈ is, i.isNormal = true)
    (hjs : ∀ j ∈ js, j.isNormal = true)
    (hseam : ∀ i ∈ is.getLast?, ∀ j ∈ js.head?, i.fuses j = false) :
    ofInstructions (is ++ js) =
      ofInstructions is >>= fun c => (ofInstructions js).map (c ++ ·) := by
  rw [ofInstructions, List.foldlM_append, ← ofInstructions]
  cases hc : ofInstructions is with
  | error v => rfl
  | ok c =>
    cases js with
    | nil => simp [ofInstructions, bind, Except.bind, pure, Except.pure, Except.map]
    | cons j js =>
      obtain ⟨hj, hjs⟩ := List.forall_mem_cons.mp hjs
      -- the code of the first part ends with the course of its last instruction
      have hlast : ∀ k ∈ c.getLast?, k.fuses j = false := fun k hk => by
        have hcourse := course_getLast_of_ofInstructions his hc
        rw [hk, Option.map_some, eq_comm, Option.map_eq_some_iff] at hcourse
        obtain ⟨i, hi, hcourse⟩ := hcourse
        rw [← Instruction.fuses_congr_left hcourse, hseam i hi j rfl]
      have hpush : c.push j = .ok (c ++ [j]) := by
        rw [push_of_isNormal hj, joinLast_of_not_fuses hlast]
      have hj' : isNormal [j] = true := by rw [isNormal_singleton, hj]
      calc (j :: js).foldlM push c
          = js.foldlM push (c ++ [j]) := by
            rw [List.foldlM_cons, hpush]
            rfl
        _ = (js.foldlM push [j]).map (c ++ ·) := foldlM_push_append hjs c hj' (by simp)
        _ = (ofInstructions (j :: js)).map (c ++ ·) := by
            rw [ofInstructions, List.foldlM_cons, push_of_isNormal hj]
            rfl

/-- Instructions that fall into runs are built unless one of these is too long. -/
theorem exists_ofInstructions_flatten {runs : List (List Instruction)}
    (hnormal : ∀ run ∈ runs, ∀ i ∈ run, i.isNormal = true) (hne : [] ∉ runs)
    (hrun : ∀ run ∈ runs, run.IsChain fun i j => i.fuses j = true)
    (hseam : runs.IsChain fun front back =>
      ∃ hfront hback, (front.getLast hfront).fuses (back.head hback) = false) :
    (∃ c, ofInstructions runs.flatten = .ok c) ↔ ∀ run ∈ runs, Amount.Fits (total run) := by
  induction runs with
  | nil => simp [ofInstructions, pure, Except.pure]
  | cons run runs ih =>
    obtain ⟨hi, hnormal⟩ := List.forall_mem_cons.mp hnormal
    obtain ⟨hchain, hrun⟩ := List.forall_mem_cons.mp hrun
    obtain ⟨hnext, hseam⟩ := List.isChain_cons.mp hseam
    have hrest := ih hnormal (fun h => hne (List.mem_cons_of_mem _ h)) hrun hseam
    -- where two runs meet, nothing fuses
    have happend : ofInstructions (run ++ runs.flatten) =
        ofInstructions run >>= fun c => (ofInstructions runs.flatten).map (c ++ ·) := by
      refine ofInstructions_append hi (List.forall_mem_flatten.mpr hnormal) fun i hi j hj => ?_
      cases runs with
      | nil => cases hj
      | cons back runs =>
        obtain ⟨hfront, hback, hends⟩ := hnext back rfl
        rw [List.flatten_cons, List.head?_append_of_ne_nil _ hback, List.head?_eq_some_head hback] at hj
        rw [List.getLast?_eq_some_getLast hfront] at hi
        cases hi
        cases hj
        exact hends
    rw [List.flatten_cons, happend, List.forall_mem_cons, ← exists_ofInstructions_run hi hchain,
      ← hrest]
    simp only [Violation.bind_eq_ok_iff, Violation.map_eq_ok_iff]
    constructor
    · rintro ⟨_, c, hc, d, hd, rfl⟩
      exact ⟨⟨c, hc⟩, d, hd⟩
    · rintro ⟨⟨c, hc⟩, d, hd⟩
      exact ⟨_, c, hc, d, hd, rfl⟩

/-- Idle instructions leave no code. -/
theorem ofInstructions_filter (is : List Instruction) :
    ofInstructions (is.filter (!·.isIdle)) = ofInstructions is := by
  rw [ofInstructions, List.foldlM_filter, ofInstructions]
  congr 1
  funext c i
  cases hi : i.isIdle <;> simp [push, hi]
  rfl

/-- Instructions are built unless one of their maximal runs is too long. -/
theorem exists_ofInstructions_iff (his : ∀ i ∈ is, i.isIdle = true ∨ i.isNormal = true) :
    (∃ c, ofInstructions is = .ok c) ↔ ∀ run ∈ maximalRuns is, Amount.Fits (total run) := by
  have hflatten : (maximalRuns is).flatten = is.filter (!·.isIdle) := List.flatten_splitBy _ _
  have hnormal : ∀ run ∈ maximalRuns is, ∀ i ∈ run, i.isNormal = true := by
    rw [← List.forall_mem_flatten, hflatten]
    intro i hi
    obtain ⟨hi, hidle⟩ := List.mem_filter.mp hi
    exact (his i hi).resolve_left (by simpa using hidle)
  rw [← ofInstructions_filter, ← hflatten]
  exact exists_ofInstructions_flatten hnormal (List.nil_notMem_splitBy _ _)
    (fun _ => List.isChain_of_mem_splitBy) (List.isChain_getLast_head_splitBy _ _)

/-- To extend code is to push the other code's instructions, it is associative, and empty code leaves
the other one as it is. Every plan for some instructions results in the code or in the overflow of
pushing them in order, and there is an overflow exactly if one of their maximal runs goes further than
an amount. -/
theorem extend_concatenates :
    (∀ a b, Built a → Built b → a.extend b = b.foldlM push a) ∧
    (∀ a, Built a → a.extend [] = .ok a ∧ extend [] a = .ok a) ∧
    (∀ a b c, Built a → Built b → Built c →
      (a.extend b >>= fun ab => ab.extend c) = b.extend c >>= fun bc => a.extend bc) ∧
    ∀ plan : Plan, plan.IsBuilt →
      plan.build = ofInstructions plan.instructions ∧
      (plan.build = .error .overflow ↔
        ∃ run ∈ maximalRuns plan.instructions,
          total run < -0x8000000000000000 ∨ 0x7FFFFFFFFFFFFFFF < total run) ∧
      ∀ v, plan.build = .error v → v = .overflow := by
  refine ⟨fun a b ha hb => extend_eq_foldlM_push ha.isNormal hb.isNormal,
    fun a ha => ⟨extend_nil a, nil_extend ha.isNormal⟩,
    fun a b c ha hb hc => extend_extend ha.isNormal hb.isNormal hc.isNormal, fun plan hplan => ?_⟩
  have hbuild := Plan.build_eq hplan
  have hover : ∀ v, plan.build = .error v → v = .overflow := fun v hv =>
    eq_overflow_of_foldlM_push (hbuild.symm.trans hv)
  have hfails : plan.build = .error .overflow ↔ ¬ ∃ c, plan.build = .ok c := by
    cases h : plan.build with
    | ok c => simp
    | error v => simp [hover v h]
  refine ⟨hbuild, ?_, hover⟩
  rw [hfails, hbuild, exists_ofInstructions_iff (Plan.isIdle_or_isNormal hplan)]
  simp only [Amount.Fits, not_forall, exists_prop]
  refine exists_congr fun run => and_congr_right fun _ => ?_
  omega

/-- A move by nothing does not part a run: the additions before and behind it are too much together,
whichever of them are put together first. -/
theorem extend_concatenates_overflow :
    let most : Amount := { val := 0x7FFFFFFFFFFFFFFF }
    let a : Code := [.add most]
    let b : Code := [.add .one]
    let plan : Plan := .extend (.push (.code a) (.right { val := 0 })) (.code b)
    Built a ∧ Built b ∧ plan.IsBuilt ∧
    a.extend b = b.foldlM push a ∧ extend [] a = .ok a ∧
    (a.extend b >>= fun ab => ab.extend b) = (b.extend b >>= fun bb => a.extend bb) ∧
    plan.build = .error .overflow := by
  intro most a b plan
  have ha : Built a := .ofInstruction (i := .add most) (by simp)
  have hb : Built b := .ofInstruction (i := .add .one) (by simp)
  have hplan : plan.IsBuilt := ⟨⟨ha, by simp⟩, hb⟩
  have hlong : ∃ run ∈ maximalRuns plan.instructions,
      total run < -0x8000000000000000 ∨ 0x7FFFFFFFFFFFFFFF < total run :=
    ⟨[.add most, .add .one], by decide +kernel, by decide⟩
  obtain ⟨hpush, hempty, hassoc, hbuild⟩ := extend_concatenates
  exact ⟨ha, hb, hplan, hpush a b ha hb, (hempty a ha).2, hassoc a b b ha hb hb,
    (hbuild plan hplan).2.1.mpr hlong⟩

end Code

end TapeLowering
