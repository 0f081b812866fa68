import Mathlib.Data.List.Chain
import TapeLowering.Code.Text

/-!
# Code in normal form

Code that is built from nothing by pushing, extending and wrapping is in normal form: at every
nesting level, no instruction stands for no symbol, and no two adjacent ones go in the same
direction.

`Code.extend` looks at the first instruction of the code it appends, and at no other. The normal
form is kept nevertheless (`isNormal_of_extend`): two instructions fuse into one that goes in the
same direction as both, so the instruction before them fuses with the result no more than with the
first of them, and the one behind no more than with the second.

In normal form every maximal run of equal symbols is one instruction, so the text says where each
instruction ends, and its brackets say where each body does. Hence the text determines the code
(`eq_of_symbols_append`).
-/

namespace TapeLowering

/-! ## Instructions that fuse -/

namespace Amount

variable {a b c : Amount}

/-- Steps in one direction add up to steps in that direction. -/
theorem sign_of_add (hsign : a.sameSign b = true) (hc : a.add b = .ok c) :
    c.val.sign = a.val.sign := by
  have hval : c.val = a.val + b.val := ofInt_eq_ok_iff.mp hc
  rcases sameSign_iff.mp hsign with ⟨ha, hb⟩ | ⟨ha, hb⟩ | ⟨ha, hb⟩
  · rw [Int.sign_eq_neg_one_of_neg ha, Int.sign_eq_neg_one_of_neg (by omega)]
  · rw [hval, ha, hb, Int.add_zero]
  · rw [Int.sign_eq_one_of_pos ha, Int.sign_eq_one_of_pos (by omega)]

/-- An amount is its sign and its magnitude. -/
theorem eq_of_magnitude (hsign : 0 ≤ a.val ↔ 0 ≤ b.val) (h : a.magnitude = b.magnitude) :
    a = b := by
  obtain ⟨a, _, _⟩ := a
  obtain ⟨b, _, _⟩ := b
  simp only [magnitude] at hsign h
  obtain rfl : a = b := by omega
  rfl

end Amount

namespace Instruction

variable {i j k : Instruction} {c : Code}

/-- Whether two instructions are of the same kind, a move or an addition, and go in the same
direction. -/
def fuses : Instruction → Instruction → Bool
  | right a, right b | add a, add b => a.sameSign b
  | _, _ => false

/-- The kind of a move or an addition, together with its direction. -/
def course : Instruction → Option (Bool × Int)
  | right a => some (true, a.val.sign)
  | add a => some (false, a.val.sign)
  | read | write | loop _ => none

theorem fuses_iff : i.fuses j = true ↔ i.course = j.course ∧ i.course ≠ none := by
  cases i <;> cases j <;> simp [fuses, course, Amount.sameSign]

/-- Instructions that do not fuse stay side by side. -/
theorem join_of_not_fuses (h : i.fuses j = false) : i.join j = .ok [i, j] := by
  unfold fuses at h
  unfold join
  split at h <;> simp_all

/-- Two instructions that fuse become one that goes the same way. -/
theorem join_of_fuses (h : i.fuses j = true) (hc : i.join j = .ok c) :
    ∃ k, c = [k] ∧ k.course = i.course := by
  unfold fuses at h
  split at h
  · rename_i a b
    rw [join, if_pos h] at hc
    obtain ⟨s, hs, rfl⟩ := Violation.map_eq_ok_iff.mp hc
    exact ⟨right s, rfl, by rw [course, course, Amount.sign_of_add h hs]⟩
  · rename_i a b
    rw [join, if_pos h] at hc
    obtain ⟨s, hs, rfl⟩ := Violation.map_eq_ok_iff.mp hc
    exact ⟨add s, rfl, by rw [course, course, Amount.sign_of_add h hs]⟩
  · cases h

/-- Whether two instructions fuse depends on their courses only. -/
theorem fuses_congr_left (h : k.course = i.course) (j : Instruction) : k.fuses j = i.fuses j := by
  rw [Bool.eq_iff_iff, fuses_iff, fuses_iff, h]

/-- Only the course of an instruction decides with what it fuses. -/
theorem fuses_congr_right (h : k.course = i.course) (j : Instruction) :
    j.fuses k = j.fuses i := by
  rw [Bool.eq_iff_iff, fuses_iff, fuses_iff, h]

end Instruction

/-! ## Normal form -/

mutual

/-- Whether an instruction stands for a symbol and holds nothing but code in normal form. -/
def Instruction.isNormal : Instruction → Bool
  | .right a | .add a => !a.isZero
  | .read | .write => true
  | .loop body => Code.isNormal body

/-- Whether code is in normal form: at no nesting level is there an instruction that stands for no
symbol, or two adjacent moves or two adjacent additions in the same direction. -/
def Code.isNormal : Code → Bool
  | [] => true
  | i :: rest => i.isNormal && !(rest.head?.any i.fuses) && Code.isNormal rest

end

namespace Instruction

variable {i j k : Instruction}

theorem not_isIdle_of_isNormal (h : i.isNormal = true) : i.isIdle = false := by
  cases i <;> simp_all [isNormal, isIdle]

/-- A move or an addition stands for a symbol unless it has no direction. -/
theorem isNormal_iff_of_course {s : Bool × Int} (h : i.course = some s) :
    i.isNormal = true ↔ s.2 ≠ 0 := by
  cases i with
  | right a | add a =>
    cases h
    simp [isNormal, Amount.isZero]
  | read | write | loop => cases h

/-- Only the course of an instruction decides about its normal form, if it has one. -/
theorem isNormal_congr (h : k.course = i.course) (hi : i.course ≠ none) :
    k.isNormal = i.isNormal := by
  obtain ⟨s, hs⟩ := Option.ne_none_iff_exists'.mp hi
  rw [Bool.eq_iff_iff, isNormal_iff_of_course hs, isNormal_iff_of_course (h.trans hs)]

end Instruction

namespace Code

variable {c d r : Code} {i : Instruction}

/-- Normal form of a whole code in terms of its own level. -/
theorem isNormal_iff : c.isNormal = true ↔
    (∀ i ∈ c, i.isNormal = true) ∧ c.IsChain fun i j => i.fuses j = false := by
  induction c with
  | nil => simp [isNormal]
  | cons i rest ih =>
    cases rest <;> simp_all [isNormal]
    grind

@[simp] theorem isNormal_nil : isNormal [] = true := rfl

@[simp] theorem isNormal_singleton (i : Instruction) : isNormal [i] = i.isNormal := by
  simp [isNormal]

/-- Two codes are in normal form together if each of them is and nothing fuses where they meet. -/
theorem isNormal_append : (c ++ d).isNormal = true ↔ c.isNormal = true ∧ d.isNormal = true ∧
    ∀ i ∈ c.getLast?, ∀ j ∈ d.head?, i.fuses j = false := by
  simp only [isNormal_iff, List.mem_append, List.isChain_append]
  grind

/-! ## Building keeps the normal form -/

@[simp] theorem joinLast_nil (i : Instruction) : joinLast i [] = .ok [i] := rfl

/-- Only the last instruction of some code is joined with another one. -/
theorem joinLast_append_singleton (i last : Instruction) (c : Code) :
    joinLast i (c ++ [last]) = (last.join i).map (c ++ ·) := by
  induction c with
  | nil => cases h : last.join i <;> simp [joinLast, h, Except.map]
  | cons first rest ih =>
    cases rest with
    | nil => simp [joinLast]
    | cons second rest =>
      rw [List.cons_append, List.cons_append, joinLast, ← List.cons_append, ih]
      · cases last.join i <;> rfl
      · simp

/-- Joining keeps the normal form, and the result ends in the direction of what was joined. -/
theorem isNormal_of_joinLast (hc : c.isNormal = true) (hi : i.isNormal = true)
    (h : joinLast i c = .ok r) :
    r.isNormal = true ∧ ∃ k ∈ r.getLast?, k.course = i.course := by
  rcases List.eq_nil_or_concat c with rfl | ⟨init, last, rfl⟩
  · cases h
    exact ⟨by rw [isNormal_singleton, hi], i, rfl, rfl⟩
  · rw [List.concat_eq_append] at hc h
    rw [joinLast_append_singleton] at h
    obtain ⟨tail, htail, rfl⟩ := Violation.map_eq_ok_iff.mp h
    obtain ⟨hinit, hlast, hseam⟩ := isNormal_append.mp hc
    cases hf : last.fuses i with
    | false =>
      rw [Instruction.join_of_not_fuses hf] at htail
      cases htail
      have hpair : isNormal [last, i] = true := by
        simpa [isNormal, hi, hf] using hlast
      exact ⟨isNormal_append.mpr ⟨hinit, hpair, hseam⟩, i, by simp, rfl⟩
    | true =>
      obtain ⟨k, rfl, hk⟩ := Instruction.join_of_fuses hf htail
      obtain ⟨hcourse, hrun⟩ := Instruction.fuses_iff.mp hf
      have hk' : isNormal [k] = true := by
        rw [isNormal_singleton, Instruction.isNormal_congr hk hrun, ← isNormal_singleton, hlast]
      refine ⟨isNormal_append.mpr ⟨hinit, hk', fun x hx y hy => ?_⟩, k, by simp, hk.trans hcourse⟩
      -- what stands before fuses with the sum no more than with the first summand
      obtain rfl : k = y := by simpa using hy
      rw [Instruction.fuses_congr_right hk]
      exact hseam x hx last rfl

/-- Code in normal form stays so if an instruction is pushed that is in normal form or idle. -/
theorem isNormal_of_push (hc : c.isNormal = true) (hi : i.isIdle = true ∨ i.isNormal = true)
    (h : c.push i = .ok r) : r.isNormal = true := by
  unfold push at h
  split at h
  · cases h
    exact hc
  · rename_i hidle
    exact (isNormal_of_joinLast hc (hi.resolve_left hidle) h).1

/-- Code in normal form stays so if it is extended by such code. -/
theorem isNormal_of_extend (hc : c.isNormal = true) (hd : d.isNormal = true)
    (h : c.extend d = .ok r) : r.isNormal = true := by
  cases d with
  | nil =>
    cases h
    exact hc
  | cons first rest =>
    obtain ⟨head, hhead, rfl⟩ := Violation.map_eq_ok_iff.mp h
    obtain ⟨hfirst, hrest, hseam⟩ := isNormal_append (c := [first]).mp hd
    rw [isNormal_singleton] at hfirst
    rw [push, if_neg (by simp [Instruction.not_isIdle_of_isNormal hfirst])] at hhead
    obtain ⟨hnormal, k, hk, hcourse⟩ := isNormal_of_joinLast hc hfirst hhead
    refine isNormal_append.mpr ⟨hnormal, hrest, fun x hx y hy => ?_⟩
    -- the result fuses with what comes behind no more than the first instruction did
    obtain rfl : k = x := Option.some.inj (hk.symm.trans hx)
    rw [Instruction.fuses_congr_left hcourse]
    exact hseam first rfl y hy

end Code

/-- An instruction is idle or in normal form, if the body of a loop is in normal form. -/
theorem Instruction.isIdle_or_isNormal {i : Instruction}
    (h : ∀ body, i = .loop body → Code.isNormal body = true) :
    i.isIdle = true ∨ i.isNormal = true := by
  cases i with
  | right a | add a => cases hz : a.isZero <;> simp [isIdle, isNormal, hz]
  | read | write => exact .inr rfl
  | loop body => exact .inr (h body rfl)

/-- Code that is built from nothing, where the body of every loop is built before. -/
inductive Code.Built : Code → Prop where
  | empty : Built []
  | push {c r : Code} {i : Instruction} : Built c → (∀ body, i = .loop body → Built body) →
      c.push i = .ok r → Built r
  | extend {c d r : Code} : Built c → Built d → c.extend d = .ok r → Built r
  | ofInstruction {i : Instruction} : (∀ body, i = .loop body → Built body) →
      Built (.ofInstruction i)

/-- Whatever is built is in normal form. -/
theorem Code.Built.isNormal {c : Code} (h : Built c) : c.isNormal = true := by
  induction h with
  | empty => rfl
  | push _ _ hpush ihc ihbody =>
    exact isNormal_of_push ihc (Instruction.isIdle_or_isNormal ihbody) hpush
  | extend _ _ hextend ihc ihd => exact isNormal_of_extend ihc ihd hextend
  | ofInstruction _ ihbody =>
    exact isNormal_of_push isNormal_nil (Instruction.isIdle_or_isNormal ihbody) (push_nil _)

/-! ## The text determines the code -/

/-- A run of equal symbols ends in front of the first other one. -/
theorem eq_of_replicate_append {s : Symbol} {m n : Nat} {u v : List Symbol}
    (hu : u.head? ≠ some s) (hv : v.head? ≠ some s)
    (h : List.replicate m s ++ u = List.replicate n s ++ v) : m = n ∧ u = v := by
  induction m generalizing n with
  | zero =>
    cases n with
    | zero => exact ⟨rfl, h⟩
    | succ n => exact absurd (congrArg List.head? h) hu
  | succ m ih =>
    cases n with
    | zero => exact absurd (congrArg List.head? h.symm) hv
    | succ n =>
      obtain ⟨hmn, huv⟩ := ih (List.cons.inj h).2
      exact ⟨congrArg (· + 1) hmn, huv⟩

theorem Symbol.toChar_injective : Function.Injective toChar := by
  intro s t h
  have hbyte : ofByte? s.toByte = ofByte? t.toByte := by rw [toByte, toByte, h]
  simpa [ofByte?_toByte] using hbyte

namespace Instruction

variable {i j : Instruction}

/-- The first symbol of an instruction that stands for any. -/
def lead : Instruction → Symbol
  | right a => .act (a.direction .right .left)
  | add a => .act (a.direction .increment .decrement)
  | read => .act .read
  | write => .act .write
  | loop _ => .loopStart

/-- A move or an addition is a run of its first symbol. -/
theorem symbols_of_course (h : i.course ≠ none) : i.symbols = List.replicate i.size i.lead := by
  cases i with
  | right a | add a => rfl
  | read | write | loop => cases h rfl

/-- An instruction in normal form starts with its lead. -/
theorem exists_symbols_eq_cons (h : i.isNormal = true) : ∃ t, i.symbols = i.lead :: t := by
  cases i with
  | right a | add a =>
    have hpos : a.magnitude ≠ 0 := by simpa [isNormal, Amount.isZero, Amount.magnitude] using h
    obtain ⟨n, hn⟩ := Nat.exists_eq_succ_of_ne_zero hpos
    exact ⟨_, by rw [symbols, hn, List.replicate_succ, lead]⟩
  | read | write => exact ⟨[], rfl⟩
  | loop body => exact ⟨_, rfl⟩

theorem lead_ne_loopEnd (i : Instruction) : i.lead ≠ .loopEnd := by
  cases i <;> simp [lead]

/-- The first symbol says what kind an instruction is of, and which direction it goes in. -/
theorem course_eq_of_lead (hi : i.isNormal = true) (hj : j.isNormal = true)
    (h : i.lead = j.lead) : i.course = j.course := by
  cases i <;> cases j <;>
    grind [lead, course, Amount.direction, isNormal, Amount.isZero, Int.sign_eq_one_of_pos,
      Int.sign_eq_neg_one_of_neg]

/-- A run is known from its symbol and its length. -/
theorem eq_of_lead_of_size (hi : i.course ≠ none) (hlead : i.lead = j.lead)
    (hsize : i.size = j.size) : i = j := by
  cases i with
  | right a => cases j <;> grind [lead, size, Amount.direction, Amount.eq_of_magnitude]
  | add a => cases j <;> grind [lead, size, Amount.direction, Amount.eq_of_magnitude]
  | read | write | loop => exact absurd rfl hi

end Instruction

/-- What may stand behind the code in a body, or at the end of a program: nothing, or something that
starts with the end of a loop. -/
def Closes (u : List Symbol) : Prop := ∀ s ∈ u.head?, s = .loopEnd

/-- In normal form, an instruction that is a run is not continued by what stands behind it. -/
theorem Code.head?_ne_lead {i : Instruction} {rest : Code} {u : List Symbol}
    (h : Code.isNormal (i :: rest) = true) (hrun : i.course ≠ none) (hu : Closes u) :
    (rest.symbols ++ u).head? ≠ some i.lead := by
  obtain ⟨hi, hrest, hseam⟩ := isNormal_append (c := [i]).mp h
  rw [isNormal_singleton] at hi
  cases rest with
  | nil => exact fun hlead => i.lead_ne_loopEnd (hu _ hlead)
  | cons j rest =>
    have hj : j.isNormal = true := (isNormal_iff.mp hrest).1 j (List.mem_cons_self ..)
    obtain ⟨t, ht⟩ := Instruction.exists_symbols_eq_cons hj
    intro hlead
    have hlead : j.lead = i.lead := by simpa [symbols, ht] using hlead
    have hfuses : i.fuses j = true :=
      Instruction.fuses_iff.mpr ⟨Instruction.course_eq_of_lead hi hj hlead.symm, hrun⟩
    rw [hseam i rfl j rfl] at hfuses
    cases hfuses

/-- A text that starts with an instruction is not one that ends at once. -/
theorem Code.symbols_append_ne {i : Instruction} {rest : Code} {u v : List Symbol}
    (h : Code.isNormal (i :: rest) = true) (hv : Closes v) :
    Code.symbols (i :: rest) ++ u ≠ Code.symbols [] ++ v := by
  intro heq
  obtain ⟨t, ht⟩ := Instruction.exists_symbols_eq_cons
    ((isNormal_iff.mp h).1 i (List.mem_cons_self ..))
  have hhead : v.head? = some i.lead := by
    rw [show v = Code.symbols [] ++ v from rfl, ← heq]
    simp [symbols, ht]
  exact i.lead_ne_loopEnd (hv _ hhead)

mutual

/-- An instruction can be read off the text that starts with it. -/
theorem Instruction.eq_of_symbols_append (i : Instruction) {j : Instruction} {u v : List Symbol}
    (hi : i.isNormal = true) (hj : j.isNormal = true)
    (hu : i.course ≠ none → u.head? ≠ some i.lead) (hv : j.course ≠ none → v.head? ≠ some j.lead)
    (h : i.symbols ++ u = j.symbols ++ v) : i = j ∧ u = v := by
  have hlead : i.lead = j.lead := by
    obtain ⟨t, ht⟩ := Instruction.exists_symbols_eq_cons hi
    obtain ⟨t', ht'⟩ := Instruction.exists_symbols_eq_cons hj
    rw [ht, ht'] at h
    exact (List.cons.inj h).1
  have hcourse := Instruction.course_eq_of_lead hi hj hlead
  by_cases hrun : i.course = none
  · cases i with
    | right | add => cases hrun
    | read =>
      cases j with
      | read => exact ⟨rfl, (List.cons.inj h).2⟩
      | right | add => cases hcourse
      | write | loop => cases hlead
    | write =>
      cases j with
      | write => exact ⟨rfl, (List.cons.inj h).2⟩
      | right | add => cases hcourse
      | read | loop => cases hlead
    | loop body =>
      cases j with
      | loop body' =>
        have h : Code.symbols body ++ [.loopEnd] ++ u = Code.symbols body' ++ [.loopEnd] ++ v :=
          (List.cons.inj h).2
        rw [List.append_assoc, List.append_assoc] at h
        have hend : ∀ w, Closes ([.loopEnd] ++ w) := fun w s hs => (Option.some.inj hs).symm
        -- the text of the body ends at the bracket that no other one of it opens
        obtain ⟨hbody, hrest⟩ := Code.eq_of_symbols_append body hi hj (hend u) (hend v) h
        exact ⟨congrArg Instruction.loop hbody, (List.cons.inj hrest).2⟩
      | right | add => cases hcourse
      | read | write => cases hlead
  · rw [Instruction.symbols_of_course hrun, Instruction.symbols_of_course (hcourse ▸ hrun), ← hlead]
      at h
    obtain ⟨hsize, huv⟩ := eq_of_replicate_append (hu hrun) (hlead ▸ hv (hcourse ▸ hrun)) h
    exact ⟨Instruction.eq_of_lead_of_size hrun hlead hsize, huv⟩

/-- Code in normal form can be read off the text that starts with it. -/
theorem Code.eq_of_symbols_append (c : Code) {d : Code} {u v : List Symbol}
    (hc : c.isNormal = true) (hd : d.isNormal = true) (hu : Closes u) (hv : Closes v)
    (h : c.symbols ++ u = d.symbols ++ v) : c = d ∧ u = v := by
  match c, d with
  | [], [] => exact ⟨rfl, h⟩
  | [], j :: d => exact absurd h.symm (Code.symbols_append_ne hd hu)
  | i :: c, [] => exact absurd h (Code.symbols_append_ne hc hv)
  | i :: c, j :: d =>
    obtain ⟨hi, hrest, _⟩ := Code.isNormal_append (c := [i]).mp hc
    obtain ⟨hj, hrest', _⟩ := Code.isNormal_append (c := [j]).mp hd
    rw [Code.isNormal_singleton] at hi hj
    rw [Code.symbols, Code.symbols, List.append_assoc, List.append_assoc] at h
    obtain ⟨rfl, hbehind⟩ := Instruction.eq_of_symbols_append i hi hj
      (fun hrun => Code.head?_ne_lead hc hrun hu) (fun hrun => Code.head?_ne_lead hd hrun hv) h
    obtain ⟨rfl, huv⟩ := Code.eq_of_symbols_append c hrest hrest' hu hv hbehind
    exact ⟨rfl, huv⟩

end

namespace Code

/-- In normal form, different codes have different texts. -/
theorem text_eq_iff {c d : Code} (hc : c.isNormal = true) (hd : d.isNormal = true) :
    c = d ↔ c.text = d.text := by
  constructor
  · rintro rfl
    rfl
  · intro h
    have hsymbols : c.symbols = d.symbols :=
      List.map_injective_iff.mpr Symbol.toChar_injective (String.ofList_injective h)
    exact (eq_of_symbols_append c hc hd (u := []) (v := []) (by simp [Closes]) (by simp [Closes])
      (congrArg (· ++ []) hsymbols)).1

/-- All code that is built is in normal form, and two codes that are built are the same if and only
if their texts are. -/
theorem built_isNormal_and_eq_iff : (∀ c, Built c → c.isNormal = true) ∧
    ∀ a b, Built a → Built b → (a = b ↔ a.text = b.text) :=
  ⟨fun _ hc => hc.isNormal, fun _ _ ha hb => text_eq_iff ha.isNormal hb.isNormal⟩

/-- Additions are fused both when they are pushed and where code is extended, and opposite moves are
not. -/
theorem built_isNormal_and_eq_iff_reset :
    let double : Amount := { val := 2 }
    let a : Code := [.add double, .clear]
    let b : Code := [.add double, .clear, .right .one, .right .negOne]
    Built a ∧ Built b ∧ a.isNormal = true ∧ b.isNormal = true ∧ (a = b ↔ a.text = b.text) := by
  intro double a b
  have hone : Built [.add .one] := .ofInstruction (i := .add .one) (by simp)
  have hclear : Built [.clear] :=
    .ofInstruction (i := .clear) fun body hbody => by
      cases hbody
      exact .ofInstruction (i := .add .negOne) (by simp)
  have hsum : Built [.add double] := .push hone (i := .add .one) (by simp) (by decide +kernel)
  have ha : Built a := .extend hsum hclear (by decide +kernel)
  have hmoved : Built (a ++ [.right .one]) :=
    .push ha (i := .right .one) (by simp) (by decide +kernel)
  have hb : Built b := .push hmoved (i := .right .negOne) (by simp) (by decide +kernel)
  exact ⟨ha, hb, built_isNormal_and_eq_iff.1 a ha, built_isNormal_and_eq_iff.1 b hb,
    built_isNormal_and_eq_iff.2 a b ha hb⟩

end Code

end TapeLowering
