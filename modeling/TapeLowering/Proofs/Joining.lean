import TapeLowering.Proofs.NormalForm

/-!
# Code is put together in any order

`Code.extend` appends code whose own instructions were put together before. It does not matter which
two of three codes are put together first (`extend_extend_eq_ok_iff`): either way the result is the
same, and either way there is none if some amount does not fit. Amounts that are added in turn go in
one direction, so the greatest of them is the last one, whatever the order.
-/

namespace TapeLowering

namespace Amount

variable {a b c r : Amount}

/-- The sum of two amounts of one sign has that sign. -/
theorem sameSign_of_add_left (hab : a.sameSign b = true) (hbc : b.sameSign c = true)
    (hr : a.add b = .ok r) : r.sameSign c = true := by
  have hval : r.val = a.val + b.val := ofInt_eq_ok_iff.mp hr
  rw [sameSign_iff] at hab hbc ⊢
  omega

/-- An amount that has the sign of another one has the sign of its sum with a third one of that sign. -/
theorem sameSign_of_add_right (hab : a.sameSign b = true) (hbc : b.sameSign c = true)
    (hr : b.add c = .ok r) : a.sameSign r = true := by
  have hval : r.val = b.val + c.val := ofInt_eq_ok_iff.mp hr
  rw [sameSign_iff] at hab hbc ⊢
  omega

/-- Of three amounts in one direction, the sum of any two fits if the sum of all does. -/
theorem add_add_eq_ok_iff (hab : a.sameSign b = true) (hbc : b.sameSign c = true) :
    (∃ s, a.add b = .ok s ∧ s.add c = .ok r) ↔ ∃ t, b.add c = .ok t ∧ a.add t = .ok r := by
  rw [sameSign_iff] at hab hbc
  have hlo := r.neg_bound_le
  have hhi := r.lt_bound
  simp only [add, ofInt_eq_ok_iff]
  constructor
  · rintro ⟨s, hs, hsum⟩
    exact ⟨⟨b.val + c.val, by omega, by omega⟩, rfl, by simp only; omega⟩
  · rintro ⟨t, ht, hsum⟩
    exact ⟨⟨a.val + b.val, by omega, by omega⟩, rfl, by simp only; omega⟩

end Amount

/-- Amounts of one kind are joined in any order, whichever kind it is. -/
theorem Instruction.join_join_of_sameSign {make : Amount → Instruction}
    (hmake : ∀ {a b}, a.sameSign b = true → (make a).join (make b) = (a.add b).map ([make ·]))
    {a b c : Amount} (hab : a.sameSign b = true) (hbc : b.sameSign c = true) {r : Code} :
    (∃ s, (make a).join (make b) = .ok [s] ∧ s.join (make c) = .ok r) ↔
      ∃ t, (make b).join (make c) = .ok [t] ∧ (make a).join t = .ok r := by
  have hjoin : ∀ {a b x}, a.sameSign b = true →
      ((make a).join (make b) = .ok x ↔ ∃ s, a.add b = .ok s ∧ [make s] = x) :=
    fun h => by rw [hmake h, Violation.map_eq_ok_iff]
  constructor
  · rintro ⟨_, hs, hr⟩
    obtain ⟨s, hadd, ⟨⟩⟩ := (hjoin hab).mp hs
    obtain ⟨q, hq, rfl⟩ := (hjoin (Amount.sameSign_of_add_left hab hbc hadd)).mp hr
    obtain ⟨t, ht, hq⟩ := (Amount.add_add_eq_ok_iff hab hbc).mp ⟨s, hadd, hq⟩
    exact ⟨make t, (hjoin hbc).mpr ⟨t, ht, rfl⟩,
      (hjoin (Amount.sameSign_of_add_right hab hbc ht)).mpr ⟨q, hq, rfl⟩⟩
  · rintro ⟨_, ht, hr⟩
    obtain ⟨t, hadd, ⟨⟩⟩ := (hjoin hbc).mp ht
    obtain ⟨q, hq, rfl⟩ := (hjoin (Amount.sameSign_of_add_right hab hbc hadd)).mp hr
    obtain ⟨s, hs, hq⟩ := (Amount.add_add_eq_ok_iff hab hbc).mpr ⟨t, hadd, hq⟩
    exact ⟨make s, (hjoin hab).mpr ⟨s, hs, rfl⟩,
      (hjoin (Amount.sameSign_of_add_left hab hbc hs)).mpr ⟨q, hq, rfl⟩⟩

/-- Three instructions that fuse do so in any order. -/
theorem Instruction.join_join_eq_ok_iff {i j k : Instruction} {r : Code}
    (hij : i.fuses j = true) (hjk : j.fuses k = true) :
    (∃ s, i.join j = .ok [s] ∧ s.join k = .ok r) ↔ ∃ t, j.join k = .ok [t] ∧ i.join t = .ok r := by
  cases i with
  | right a =>
    cases j with
    | right b =>
      cases k with
      | right c => exact join_join_of_sameSign (fun h => by rw [join, if_pos h]) hij hjk
      | add | read | write | loop => cases hjk
    | add | read | write | loop => cases hij
  | add a =>
    cases j with
    | add b =>
      cases k with
      | add c => exact join_join_of_sameSign (fun h => by rw [join, if_pos h]) hij hjk
      | right | read | write | loop => cases hjk
    | right | read | write | loop => cases hij
  | read | write | loop => cases hij

/-- Joining two instructions leaves one or both of them. -/
theorem Instruction.join_ne_nil {i j : Instruction} {c : Code} (h : i.join j = .ok c) :
    c ≠ [] := by
  cases hf : i.fuses j with
  | false =>
    obtain rfl := Except.ok.inj ((join_of_not_fuses hf).symm.trans h)
    simp
  | true =>
    obtain ⟨k, rfl, _⟩ := join_of_fuses hf h
    simp

namespace Code

variable {c d f r : Code} {i j : Instruction}

theorem push_of_isNormal (hi : i.isNormal = true) (c : Code) : c.push i = joinLast i c := by
  rw [push, if_neg (by simp [Instruction.not_isIdle_of_isNormal hi])]

@[simp] theorem extend_nil (c : Code) : c.extend [] = .ok c := rfl

/-- One instruction in normal form is joined to the last one. -/
theorem extend_singleton (hi : i.isNormal = true) (c : Code) : c.extend [i] = joinLast i c := by
  rw [extend, push_of_isNormal hi]
  cases joinLast i c <;> simp [Except.map]

/-- Only the first instruction of an extension meets the code before it. -/
theorem extend_cons (hi : i.isNormal = true) (c rest : Code) :
    c.extend (i :: rest) = (joinLast i c).map (· ++ rest) := by
  rw [extend, push_of_isNormal hi]

/-- Code in normal form is what it is behind no code. -/
theorem nil_extend (hd : d.isNormal = true) : extend [] d = .ok d := by
  cases d with
  | nil => rfl
  | cons i rest => exact extend_cons ((isNormal_iff.mp hd).1 i (List.mem_cons_self ..)) [] rest

theorem extend_ofInstruction (c : Code) (i : Instruction) :
    c.extend (ofInstruction i) = c.push i := by
  cases hi : i.isIdle with
  | true => simp [ofInstruction, push, hi]
  | false =>
    rw [ofInstruction, if_neg (by simp [hi]), extend]
    cases c.push i <;> simp [Except.map]

theorem isNormal_ofInstruction (h : i.isIdle = true ∨ i.isNormal = true) :
    (ofInstruction i).isNormal = true :=
  isNormal_of_push isNormal_nil h (push_nil i)

/-- What is joined to the last instruction leaves the code before that alone. -/
theorem joinLast_append (i : Instruction) (c : Code) (hd : d ≠ []) :
    joinLast i (c ++ d) = (joinLast i d).map (c ++ ·) := by
  rcases List.eq_nil_or_concat d with rfl | ⟨init, last, rfl⟩
  · exact absurd rfl hd
  · rw [List.concat_eq_append, joinLast_append_singleton, ← List.append_assoc,
      joinLast_append_singleton]
    cases last.join i with
    | error v => rfl
    | ok z => simp [Except.map]

/-- An instruction that does not fuse with the last one of some code, if there is any, stays as it
is. -/
theorem joinLast_of_not_fuses (h : ∀ k ∈ c.getLast?, k.fuses i = false) :
    joinLast i c = .ok (c ++ [i]) := by
  rcases List.eq_nil_or_concat c with rfl | ⟨init, last, rfl⟩
  · rfl
  · rw [List.concat_eq_append] at h ⊢
    rw [joinLast_append_singleton, Instruction.join_of_not_fuses (h last (by simp))]
    simp [Except.map]

/-- What is appended to an extension has no part in how it meets the code before it. -/
theorem extend_append (c : Code) (hd : d ≠ []) (f : Code) :
    c.extend (d ++ f) = (c.extend d).map (· ++ f) := by
  cases d with
  | nil => exact absurd rfl hd
  | cons i rest =>
    rw [List.cons_append, extend, extend]
    cases c.push i with
    | error v => rfl
    | ok x => simp [Except.map]

/-- Two instructions that do not fuse are joined to some code one behind the other. -/
theorem joinLast_joinLast_of_not_fuses (hc : c.isNormal = true) (hi : i.isNormal = true)
    (hf : i.fuses j = false) :
    (∃ x, joinLast i c = .ok x ∧ joinLast j x = .ok r) ↔ c.extend [i, j] = .ok r := by
  -- the second one stays as it is, whatever becomes of the first one
  have hkeep : ∀ x, joinLast i c = .ok x → joinLast j x = .ok (x ++ [j]) := by
    intro x hx
    obtain ⟨_, k, hk, hcourse⟩ := isNormal_of_joinLast hc hi hx
    refine joinLast_of_not_fuses fun k' hk' => ?_
    obtain rfl : k = k' := Option.some.inj (hk.symm.trans hk')
    rw [Instruction.fuses_congr_left hcourse, hf]
  rw [extend_cons hi, Violation.map_eq_ok_iff]
  constructor
  · rintro ⟨x, hx, hr⟩
    exact ⟨x, hx, Except.ok.inj ((hkeep x hx).symm.trans hr)⟩
  · rintro ⟨x, hx, rfl⟩
    exact ⟨x, hx, hkeep x hx⟩

/-- Two instructions that fuse may do so before they are joined to some code. -/
theorem joinLast_joinLast_of_fuses (hf : i.fuses j = true) :
    (∃ x, joinLast i c = .ok x ∧ joinLast j x = .ok r) ↔
      ∃ t, i.join j = .ok [t] ∧ joinLast t c = .ok r := by
  by_cases hseam : ∀ k ∈ c.getLast?, k.fuses i = false
  · -- the sum stays as it is, since the first summand does
    have hsum : ∀ {t}, t.course = i.course → joinLast t c = .ok (c ++ [t]) := fun hcourse =>
      joinLast_of_not_fuses fun k hk => by
        rw [Instruction.fuses_congr_right hcourse, hseam k hk]
    simp only [joinLast_of_not_fuses hseam, Except.ok.injEq, exists_eq_left',
      joinLast_append_singleton, Violation.map_eq_ok_iff]
    constructor
    · rintro ⟨y, hy, rfl⟩
      obtain ⟨t, rfl, hcourse⟩ := Instruction.join_of_fuses hf hy
      exact ⟨t, hy, hsum hcourse⟩
    · rintro ⟨t, ht, hr⟩
      obtain ⟨_, ⟨⟩, hcourse⟩ := Instruction.join_of_fuses hf ht
      exact ⟨[t], ht, Except.ok.inj ((hsum hcourse).symm.trans hr)⟩
  · obtain ⟨last, hlast, hl⟩ : ∃ last ∈ c.getLast?, last.fuses i = true := by simpa using hseam
    obtain ⟨init, rfl⟩ := List.getLast?_eq_some_iff.mp hlast
    simp only [joinLast_append_singleton, Violation.map_eq_ok_iff]
    constructor
    · rintro ⟨_, ⟨z, hz, rfl⟩, hr⟩
      obtain ⟨s, rfl, _⟩ := Instruction.join_of_fuses hl hz
      rw [joinLast_append_singleton] at hr
      obtain ⟨y, hy, rfl⟩ := Violation.map_eq_ok_iff.mp hr
      obtain ⟨t, ht, hy⟩ := (Instruction.join_join_eq_ok_iff hl hf).mp ⟨s, hz, hy⟩
      exact ⟨t, ht, y, hy, rfl⟩
    · rintro ⟨t, ht, y, hy, rfl⟩
      obtain ⟨s, hs, hy⟩ := (Instruction.join_join_eq_ok_iff hl hf).mpr ⟨t, ht, hy⟩
      refine ⟨_, ⟨[s], hs, rfl⟩, ?_⟩
      rw [joinLast_append_singleton, hy]
      rfl

/-- Joining two instructions in turn is extending by the two joined to each other. -/
theorem joinLast_joinLast_eq_ok_iff (hc : c.isNormal = true) (hi : i.isNormal = true)
    (hj : j.isNormal = true) : (∃ x, joinLast i c = .ok x ∧ joinLast j x = .ok r) ↔
      ∃ y, i.join j = .ok y ∧ c.extend y = .ok r := by
  cases hf : i.fuses j with
  | false =>
    rw [joinLast_joinLast_of_not_fuses hc hi hf, Instruction.join_of_not_fuses hf]
    simp
  | true =>
    have hnormal : ∀ t, i.join j = .ok [t] → t.isNormal = true := fun t ht => by
      have hi' : Code.isNormal [i] = true := by rwa [isNormal_singleton]
      simpa using (isNormal_of_joinLast hi' hj ht).1
    rw [joinLast_joinLast_of_fuses hf]
    constructor
    · rintro ⟨t, ht, hr⟩
      exact ⟨[t], ht, by rwa [extend_singleton (hnormal t ht)]⟩
    · rintro ⟨y, hy, hr⟩
      obtain ⟨t, rfl, _⟩ := Instruction.join_of_fuses hf hy
      exact ⟨t, hy, by rwa [extend_singleton (hnormal t hy)] at hr⟩

/-- Code behind code of one instruction: both seams are at that instruction. -/
theorem extend_singleton_extend (hc : c.isNormal = true) (hi : i.isNormal = true)
    (hj : j.isNormal = true) (tail : Code) :
    (∃ x, c.extend [i] = .ok x ∧ x.extend (j :: tail) = .ok r) ↔
      ∃ y, extend [i] (j :: tail) = .ok y ∧ c.extend y = .ok r := by
  simp only [extend_singleton hi, extend_cons hj, joinLast, Violation.map_eq_ok_iff]
  constructor
  · rintro ⟨x, hx, z, hz, rfl⟩
    obtain ⟨y, hy, hz⟩ := (joinLast_joinLast_eq_ok_iff hc hi hj).mp ⟨x, hx, hz⟩
    refine ⟨y ++ tail, ⟨y, hy, rfl⟩, ?_⟩
    rw [extend_append c (Instruction.join_ne_nil hy), hz]
    rfl
  · rintro ⟨_, ⟨y, hy, rfl⟩, hr⟩
    rw [extend_append c (Instruction.join_ne_nil hy)] at hr
    obtain ⟨z, hz, rfl⟩ := Violation.map_eq_ok_iff.mp hr
    obtain ⟨x, hx, hz⟩ := (joinLast_joinLast_eq_ok_iff hc hi hj).mpr ⟨y, hy, hz⟩
    exact ⟨x, hx, z, hz, rfl⟩

/-- Code behind code of more instructions: what happens at one seam does not touch the other. -/
theorem extend_cons_extend (hi : i.isNormal = true) (hj : j.isNormal = true) {rest : Code}
    (hrest : rest ≠ []) (tail : Code) :
    (∃ x, c.extend (i :: rest) = .ok x ∧ x.extend (j :: tail) = .ok r) ↔
      ∃ y, extend (i :: rest) (j :: tail) = .ok y ∧ c.extend y = .ok r := by
  -- the two seams are apart, since there is something between them
  have hfar : ∀ x, joinLast j (x ++ rest) = (joinLast j rest).map (x ++ ·) :=
    fun x => joinLast_append j x hrest
  have hnear : ∀ rest', c.extend (i :: rest') = (joinLast i c).map (· ++ rest') := extend_cons hi c
  simp only [hnear, extend_cons hj, Violation.map_eq_ok_iff]
  constructor
  · rintro ⟨_, ⟨x, hx, rfl⟩, z, hz, rfl⟩
    rw [hfar] at hz
    obtain ⟨y, hy, rfl⟩ := Violation.map_eq_ok_iff.mp hz
    refine ⟨i :: (y ++ tail), ⟨i :: y, ?_, rfl⟩, ?_⟩
    · rw [← List.singleton_append, hfar, hy]
      rfl
    · rw [hnear, hx, List.append_assoc]
      rfl
  · rintro ⟨_, ⟨z, hz, rfl⟩, hr⟩
    rw [← List.singleton_append, hfar] at hz
    obtain ⟨y, hy, rfl⟩ := Violation.map_eq_ok_iff.mp hz
    rw [List.singleton_append, List.cons_append, hnear] at hr
    obtain ⟨x, hx, rfl⟩ := Violation.map_eq_ok_iff.mp hr
    refine ⟨_, ⟨x, hx, rfl⟩, x ++ y, ?_, List.append_assoc ..⟩
    rw [hfar, hy]
    rfl

/-- Of three codes, the last two may be put together first. -/
theorem extend_extend_eq_ok_iff (hc : c.isNormal = true) (hd : d.isNormal = true)
    (hf : f.isNormal = true) : (∃ x, c.extend d = .ok x ∧ x.extend f = .ok r) ↔
      ∃ y, d.extend f = .ok y ∧ c.extend y = .ok r := by
  have hhead : ∀ {k : Instruction} {rest : Code}, isNormal (k :: rest) = true → k.isNormal = true :=
    fun h => (isNormal_iff.mp h).1 _ (List.mem_cons_self ..)
  cases f with
  | nil => simp
  | cons j tail =>
    cases d with
    | nil => simp [nil_extend hf]
    | cons i rest =>
      cases rest with
      | nil => exact extend_singleton_extend hc (hhead hd) (hhead hf) tail
      | cons second rest => exact extend_cons_extend (hhead hd) (hhead hf) (by simp) tail

end Code

end TapeLowering
