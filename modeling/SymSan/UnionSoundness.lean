import SymSan.TaintUnion

/-!
# Soundness of label construction

A call of `__taint_union` on labels of the table, with operands of the widths
its opcode takes, is compared with the opcode applied to the operand values.
The operand order, the recorded concretes, the simplifications, the hash table
and the probes all keep the value. The one exception is the shortcut for a
truncated extension: it compares the *size field* of the extended label, and
for a comparison (operand width) and a memory comparison (byte length) that
field is not the width of the value.
-/

namespace UnionSoundness

open LabelTable Denotation TableGrowth TaintUnion
open Nat (mod_eq_of_lt mod_lt pow_pos)

def request (op : Operator) (size : Nat) (o : Operands) : LabelInfo :=
  ⟨o.l1, o.l2, o.op1, o.op2, op, size, 0⟩

variable (info : Nat → LabelInfo)

/-- The opcode applied to the values of the operands. Not has one symbolic
operand, on either side. -/
def applied (inp : Input) (op : Operator) (size : Nat) (o : Operands) : Nat :=
  let r := request op size o
  let left := operand1 info (den info inp) r
  let right := operand2 info (den info inp) r
  applyOp op size (width1 info r) o.op2 left (if op = .not ∧ o.l2 = 0 then left else right)

/-- A constant fits in `w` bits; a label has a value of `w` bits. -/
def Side (l const w : Nat) : Prop :=
  if l = 0 then const < 2 ^ w else width (info l) = w

/-- The operand widths an opcode takes at result width `size`. -/
def Matching (op : Operator) (size : Nat) (o : Operands) : Prop :=
  match op with
  | .not => Side info o.l1 o.op1 size ∧ Side info o.l2 o.op2 size ∧ (o.l1 = 0 ∨ o.l2 = 0)
  | .trunc => o.l2 = 0 ∧ (o.l1 ≠ 0 → size ≤ width (info o.l1))
  | .zext | .sext => o.l2 = 0 ∧ (o.l1 ≠ 0 → width (info o.l1) ≤ size)
  | .extract => o.l2 = 0 ∧ (o.l1 ≠ 0 → o.op2 + size ≤ width (info o.l1))
  | .concat => ∃ w1 w2, w1 + w2 = size ∧ Side info o.l1 o.op1 w1 ∧ Side info o.l2 o.op2 w2
  | _ => Side info o.l1 o.op1 size ∧ Side info o.l2 o.op2 size

/-- What the returned label must mean. Zero stands for a value that no input
changes, unless an operand is a pointer with bounds. -/
def Sound (s s' : Runtime) (op : Operator) (size : Nat) (o : Operands) (l : Nat) : Prop :=
  if l = 0 then
    o.l1 ≠ 0 ∨ o.l2 ≠ 0 → (s.info o.l1).op ≠ .alloca → (s.info o.l2).op ≠ .alloca →
      ∃ v, ∀ inp, applied s.info inp op size o = v
  else
    l ≤ s'.last ∧ width (s'.info l) = width (request op size o) ∧
      ∀ inp, den s'.info inp l = applied s.info inp op size o

/-- The shortcut fires on a label whose size field is not the width of its value. -/
def ShortcutMismatch (op : Operator) (size : Nat) (o : Operands) : Prop :=
  op = .trunc ∧ ((info o.l1).op = .zext ∨ (info o.l1).op = .sext) ∧
    (info (info o.l1).l1).size = size ∧ width (info (info o.l1).l1) ≠ size

/-! ## Values -/

section Values

variable {info : Nat → LabelInfo} {inp : Input} {op : Operator} {size : Nat} {o : Operands}

lemma ofNat_ones (w : Nat) : BitVec.ofNat w (2 ^ w - 1) = BitVec.allOnes w := by
  apply BitVec.eq_of_toNat_eq
  have : 0 < 2 ^ w := pow_pos (by decide)
  rw [BitVec.toNat_ofNat, BitVec.toNat_allOnes, mod_eq_of_lt (by omega)]

section

variable (int : isInteger op = true)

include int

lemma commutative_integer (comm : isCommutative op = true) :
    op = .not ∨ op = .and ∨ op = .or ∨ op = .xor ∨ op = .add ∨ op = .mul := by
  cases op with
  | icmp p => rw [isCommutative_icmp] at comm; cases comm
  | _ =>
    first
    | (simp; done)
    | (simp [isInteger] at int; done)
    | (simp [isCommutative, Operator.low, Operator.code] at comm)

lemma applyOp_comm (comm : isCommutative op = true) (notNot : op ≠ .not)
    (w1 w1' off off' a b : Nat) :
    applyOp op size w1 off a b = applyOp op size w1' off' b a := by
  rcases commutative_integer int comm with rfl | rfl | rfl | rfl | rfl | rfl
  · exact absurd rfl notNot
  · simp only [applyOp]; rw [BitVec.and_comm]
  · simp only [applyOp]; rw [BitVec.or_comm]
  · simp only [applyOp]; rw [BitVec.xor_comm]
  · simp only [applyOp]; rw [BitVec.add_comm]
  · simp only [applyOp]; rw [BitVec.mul_comm]

/-- The value of a call does not depend on the order the runtime puts its operands in. -/
lemma applied_orderOperands (m : Matching info op size o) :
    applied info inp op size (orderOperands op o) = applied info inp op size o := by
  by_cases h : o.l2 < o.l1 ∧ isCommutative op
  · rw [orderOperands, if_pos h]
    by_cases hnot : op = .not
    · subst hnot
      have hl2 : o.l2 = 0 := by
        rcases m.2.2 with h0 | h0
        · omega
        · exact h0
      have hl1 : o.l1 ≠ 0 := by omega
      unfold applied
      simp only []
      rw [if_neg (by simp [hl1]), if_pos (by simp [hl2])]
      rfl
    · simp only [applied, hnot]
      exact applyOp_comm int h.2 hnot _ _ _ _ _ _
  · rw [orderOperands, if_neg h]

lemma matching_orderOperands (m : Matching info op size o) :
    Matching info op size (orderOperands op o) := by
  rcases orderOperands_cases op o with same | ⟨comm, swapped⟩
  · rw [same]; exact m
  · rw [swapped]
    rcases commutative_integer int comm with rfl | rfl | rfl | rfl | rfl | rfl
    · exact ⟨m.2.1, m.1, m.2.2.symm⟩
    all_goals exact ⟨m.2, m.1⟩

end

lemma side_lt (inp : Input) {l const w : Nat} (h : Side info l const w) :
    (if l = 0 then const % 2 ^ w else den info inp l) < 2 ^ w := by
  by_cases hl : l = 0
  · rw [if_pos hl]
    exact mod_lt _ (pow_pos (by decide))
  · rw [if_neg hl]
    simp only [Side, if_neg hl] at h
    exact h ▸ den_lt info inp l

lemma operands_of_ne_concat (info : Nat → LabelInfo) (inp : Input) (size : Nat) (o : Operands)
    (h : op ≠ .concat) :
    operand1 info (den info inp) (request op size o) =
        (if o.l1 = 0 then o.op1 % 2 ^ size else den info inp o.l1) ∧
      operand2 info (den info inp) (request op size o) =
        (if o.l2 = 0 then o.op2 % 2 ^ size else den info inp o.l2) :=
  operands_plain info (den info inp) h

lemma operands_concat (inp : Input) {w1 w2 : Nat} (sum : w1 + w2 = size)
    (side1 : Side info o.l1 o.op1 w1) (side2 : Side info o.l2 o.op2 w2)
    (symbolic : o.l1 ≠ 0 ∨ o.l2 ≠ 0) :
    width1 info (request .concat size o) = w1 ∧
      operand1 info (den info inp) (request .concat size o) < 2 ^ w1 ∧
      operand2 info (den info inp) (request .concat size o) < 2 ^ w2 := by
  have h1 : width1 info (request .concat size o) = w1 := by
    by_cases hl1 : o.l1 = 0
    · have hl2 : o.l2 ≠ 0 := by omega
      simp only [Side, if_neg hl2] at side2
      simp only [width1, request, constWidth, hl1, if_true]
      omega
    · simp only [Side, if_neg hl1] at side1
      simp [width1, request, hl1, side1]
  have h2 : width2 info (request .concat size o) = w2 := by
    by_cases hl2 : o.l2 = 0
    · have hl1 : o.l1 ≠ 0 := by omega
      simp only [Side, if_neg hl1] at side1
      simp only [width2, request, constWidth, hl2, if_true]
      omega
    · simp only [Side, if_neg hl2] at side2
      simp [width2, request, hl2, side2]
  refine ⟨h1, ?_, ?_⟩
  · rw [operand1, h1]
    exact side_lt inp side1
  · rw [operand2, h2]
    exact side_lt inp side2

lemma applied_lt (int : isInteger op = true) (m : Matching info op size o)
    (symbolic : o.l1 ≠ 0 ∨ o.l2 ≠ 0) :
    applied info inp op size o < 2 ^ width (request op size o) := by
  cases op with
  | concat =>
    obtain ⟨w1, w2, sum, side1, side2⟩ := m
    obtain ⟨hw1, lt1, lt2⟩ := operands_concat inp sum side1 side2 symbolic
    simp only [applied, hw1, request, reduceCtorEq, false_and, if_false] at *
    have hsplit : 2 ^ size = 2 ^ w1 * 2 ^ w2 := by rw [← sum, Nat.pow_add]
    calc
      _ < 2 ^ w1 + _ * 2 ^ w1 := Nat.add_lt_add_right lt1 _
      _ = 2 ^ w1 * (_ + 1) := by ring
      _ ≤ 2 ^ w1 * 2 ^ w2 := Nat.mul_le_mul_left _ lt2
      _ = 2 ^ size := hsplit.symm
  | icmp p =>
    simp only [width, request]
    exact Nat.lt_of_le_of_lt (Bool.toNat_le _) (by decide)
  | trunc | zext | extract => exact mod_lt _ (pow_pos (by decide))
  | _ =>
    first
    | exact BitVec.isLt _
    | (simp [isInteger] at int)

end Values

/-! ## Simplifications -/

/-- The label stands for the value of the call. -/
def Means (info : Nat → LabelInfo) (op : Operator) (size : Nat) (o : Operands) (l : Nat) : Prop :=
  width (info l) = width (request op size o) ∧ ∀ inp, den info inp l = applied info inp op size o

/-- What a simplification may answer. -/
def Answers (info : Nat → LabelInfo) (op : Operator) (size : Nat) (o : Operands) (l : Nat) : Prop :=
  l = 0 ∧ (∃ v, ∀ inp, applied info inp op size o = v) ∨
    l ≠ 0 ∧ (l = o.l1 ∨ l = o.l2) ∧ Means info op size o l

section Simplifications

variable {info : Nat → LabelInfo} {op : Operator} {size : Nat} {o : Operands} {l : Nat}
  {s : Runtime}

lemma applied_left_const (inp : Input) (ne : op ≠ .concat ∧ op ≠ .not) (h1 : o.l1 = 0)
    (h2 : o.l2 ≠ 0) :
    applied info inp op size o =
      applyOp op size (width1 info (request op size o)) o.op2 (o.op1 % 2 ^ size)
        (den info inp o.l2) := by
  obtain ⟨left, right⟩ := operands_of_ne_concat info inp size o ne.1
  simp [applied, left, right, h1, h2]

lemma applied_right_zero (inp : Input) (ne : op ≠ .concat ∧ op ≠ .not) (h1 : o.l1 ≠ 0)
    (h2 : o.l2 = 0) (zero : o.op2 = 0) :
    applied info inp op size o =
      applyOp op size (width1 info (request op size o)) 0 (den info inp o.l1) 0 := by
  obtain ⟨left, right⟩ := operands_of_ne_concat info inp size o ne.1
  simp [applied, left, right, h1, h2, zero, ne.2]

section

variable (ne : op ≠ .concat ∧ op ≠ .not)

include ne

/-- Returning the right operand: its width is the record's, so only the value is left to show. -/
lemma answers_right (hop : width (request op size o) = size) (h1 : o.l1 = 0) (h2 : o.l2 ≠ 0)
    (side : Side info o.l2 o.op2 size)
    (value : ∀ w off b, b < 2 ^ size → applyOp op size w off (o.op1 % 2 ^ size) b = b) :
    Answers info op size o o.l2 := by
  simp only [Side, if_neg h2] at side
  refine .inr ⟨h2, .inr rfl, by rw [side, hop], ?_⟩
  intro inp
  rw [applied_left_const inp ne h1 h2, value _ _ _ (side ▸ den_lt info inp o.l2)]

lemma answers_const (h1 : o.l1 = 0) (h2 : o.l2 ≠ 0) {v : Nat}
    (value : ∀ w off b, applyOp op size w off (o.op1 % 2 ^ size) b = v) :
    Answers info op size o 0 := by
  refine .inl ⟨rfl, v, ?_⟩
  intro inp
  rw [applied_left_const inp ne h1 h2, value]

lemma answers_left (hop : width (request op size o) = size) (h1 : o.l1 ≠ 0) (h2 : o.l2 = 0)
    (zero : o.op2 = 0) (side : Side info o.l1 o.op1 size)
    (value : ∀ w a, a < 2 ^ size → applyOp op size w 0 a 0 = a) : Answers info op size o o.l1 := by
  simp only [Side, if_neg h1] at side
  refine .inr ⟨h1, .inl rfl, by rw [side, hop], ?_⟩
  intro inp
  rw [applied_right_zero inp ne h1 h2 zero, value _ _ (side ▸ den_lt info inp o.l1)]

end

lemma simplifyLeft_answers (m : Matching info op size o) (symbolic : o.l1 ≠ 0 ∨ o.l2 ≠ 0)
    (positive : 1 ≤ size) (bound : size ≤ 64) (h : simplifyLeft op size o = .ret l) :
    Answers info op size o l := by
  unfold simplifyLeft at h
  split at h
  next zero =>
    obtain ⟨h1, zero⟩ := zero
    have h2 : o.l2 ≠ 0 := by omega
    split at h
    iterate 3
      · cases h
        refine answers_const ⟨by decide, by decide⟩ h1 h2 (v := 0) fun w off b => ?_
        simp [applyOp, zero]
    iterate 3
      · cases h
        refine answers_right ⟨by decide, by decide⟩ rfl h1 h2 m.2 fun w off b hb => ?_
        simp [applyOp, zero, mod_eq_of_lt hb]
    · cases h
  next notZero =>
    split at h
    next ones =>
      obtain ⟨h1, ones⟩ := ones
      have h2 : o.l2 ≠ 0 := by omega
      -- at width 64 the shift wraps and the pattern is zero, which was handled before
      have small : size < 64 := by
        by_contra wide
        have : size = 64 := by omega
        subst this
        exact notZero ⟨h1, by rw [ones]; rfl⟩
      have ones : o.op1 % 2 ^ size = 2 ^ size - 1 := by
        have pos : 0 < 2 ^ size := pow_pos (by decide)
        rw [ones, oneShl, mod_eq_of_lt small, mod_eq_of_lt (by omega)]
      split at h
      next hand =>
        subst hand
        cases h
        refine answers_right ⟨by decide, by decide⟩ rfl h1 h2 m.2 fun w off b hb => ?_
        simp [applyOp, ones, ofNat_ones, mod_eq_of_lt hb]
      · split at h
        next hor =>
          subst hor
          cases h
          refine answers_const ⟨by decide, by decide⟩ h1 h2 (v := 2 ^ size - 1) fun w off b => ?_
          simp [applyOp, ones, ofNat_ones]
        · split at h <;> cases h
    · cases h

lemma simplifyRight_answers (m : Matching info op size o) (symbolic : o.l1 ≠ 0 ∨ o.l2 ≠ 0)
    (h : simplifyRight op o = .ret l) : Answers info op size o l := by
  unfold simplifyRight at h
  split at h
  next zero =>
    obtain ⟨h2, zero⟩ := zero
    have h1 : o.l1 ≠ 0 := by omega
    split at h <;> cases h
    all_goals
      refine answers_left ⟨by decide, by decide⟩ rfl h1 h2 zero m.1 fun w a ha => ?_
      simp [applyOp, mod_eq_of_lt ha]
  · cases h

lemma signExtend_setWidth {w v : Nat} (x : BitVec w) (h : w ≤ v) :
    (x.signExtend v).toNat % 2 ^ w = x.toNat := by
  have trunc : (x.signExtend v).setWidth w = x := by
    ext i hi
    have : i < v := by omega
    simp [BitVec.getElem_signExtend, this, hi]
  have := congrArg BitVec.toNat trunc
  rwa [BitVec.toNat_setWidth] at this

lemma trunc_extension (wf : WellFormed s) (h1 : 1 ≤ o.l1) (le : o.l1 ≤ s.last)
    (hext : (s.info o.l1).op = .zext ∨ (s.info o.l1).op = .sext)
    (narrow : size ≤ width (s.info o.l1)) (same : width (s.info (s.info o.l1).l1) = size)
    (inp : Input) : den s.info inp (s.info o.l1).l1 = den s.info inp o.l1 % 2 ^ size := by
  obtain ⟨_, before, _⟩ := wf.base o.l1 h1 le hext
  have ordered : Ordered s.info o.l1 := ⟨before, fun _ => by omega⟩
  have ne : (s.info o.l1).l1 ≠ 0 := by omega
  have value := den_lt s.info inp (s.info o.l1).l1
  rw [same] at value
  rw [den_eq s.info inp (by omega) ordered]
  rcases hext with hext | hext
  · simp only [width, hext] at narrow
    have wide : 2 ^ size ≤ 2 ^ (s.info o.l1).size := Nat.pow_le_pow_right (by decide) narrow
    simp only [evalRecord, hext, isInteger, applyOp, operand1, width, ne, reduceCtorEq,
      if_false, if_true]
    rw [mod_eq_of_lt (mod_lt _ (by omega)),
      mod_eq_of_lt (Nat.lt_of_lt_of_le value wide), mod_eq_of_lt value]
  · simp only [width, hext] at narrow
    have baseWidth : width1 s.info (s.info o.l1) = size := by simp [width1, ne, same]
    simp only [evalRecord, hext, isInteger, operand1, baseWidth, ne, reduceCtorEq, if_false,
      if_true]
    simp only [applyOp]
    rw [show width (s.info o.l1) = (s.info o.l1).size by simp only [width, hext],
      mod_eq_of_lt (BitVec.isLt _), signExtend_setWidth _ narrow, BitVec.toNat_ofNat,
      mod_eq_of_lt value]

section

variable (wf : op = .trunc → WellFormed s) (m : Matching s.info op size o)
  (symbolic : o.l1 ≠ 0 ∨ o.l2 ≠ 0)

include wf m symbolic

lemma simplifyShape_answers (le : o.l1 ≤ s.last) (fits : ¬ ShortcutMismatch s.info op size o)
    (h : simplifyShape s op size o = .ret l) :
    l = 0 ∧ (∃ v, ∀ inp, applied s.info inp op size o = v) ∨
      l ≠ 0 ∧ l ≤ s.last ∧ Means s.info op size o l := by
  unfold simplifyShape at h
  split at h
  next htrunc =>
    subst htrunc
    have h1 : 1 ≤ o.l1 := by
      have := m.1
      omega
    split at h
    next hext =>
      split at h
      next hsize =>
        cases h
        obtain ⟨_, _, _⟩ := (wf rfl).base o.l1 h1 le hext
        have same : width (s.info (s.info o.l1).l1) = size := by
          by_contra differs
          exact fits ⟨rfl, hext, hsize.symm, differs⟩
        refine .inr ⟨by omega, by omega, same, ?_⟩
        intro inp
        rw [trunc_extension (wf rfl) h1 le hext (m.2 (by omega)) same inp]
        have ne : o.l1 ≠ 0 := by omega
        simp [applied, applyOp, operand1, request, ne]
      · cases h
    · cases h
  · split at h
    next hxor =>
      obtain ⟨rfl, same⟩ := hxor
      cases h
      refine .inl ⟨rfl, 0, ?_⟩
      intro inp
      obtain ⟨left, right⟩ := operands_of_ne_concat s.info inp size o
        (show Operator.xor ≠ .concat by decide)
      have h2 : o.l2 ≠ 0 := by omega
      simp [applied, applyOp, left, right, same, h2]
    · cases h

/-- The simplifier answers soundly unless the shortcut misreads a size. -/
lemma simplify_answers (positive : 1 ≤ size) (bound : size ≤ 64) (h1 : o.l1 ≤ s.last)
    (h2 : o.l2 ≤ s.last) (fits : ¬ ShortcutMismatch s.info op size o)
    (h : simplify s op size o = .ret l) :
    l = 0 ∧ (∃ v, ∀ inp, applied s.info inp op size o = v) ∨
      l ≠ 0 ∧ l ≤ s.last ∧ Means s.info op size o l := by
  rcases simplify_cases s op size o with ⟨l', hleft, hret⟩ | ⟨op', hleft, later⟩
  · rw [hret, Simplified.ret.injEq] at h
    subst h
    exact (simplifyLeft_answers m symbolic positive bound hleft).imp_right
      fun ⟨ne, side, means⟩ => ⟨ne, by omega, means⟩
  -- only the left stage rewrites an opcode, and nothing is left to do for a Not
  have kept : op' = op ∨ op' = .not := (simplifyLeft_keep hleft).imp_right fun hxor => hxor.2.1
  rcases later with ⟨l', hright, hret⟩ | ⟨_, hshape⟩
  · rw [hret, Simplified.ret.injEq] at h
    subst h
    rcases kept with rfl | rfl
    · exact (simplifyRight_answers m symbolic hright).imp_right
        fun ⟨ne, side, means⟩ => ⟨ne, by omega, means⟩
    · unfold simplifyRight at hright
      split at hright <;> cases hright
  · rw [hshape] at h
    rcases kept with rfl | rfl
    · exact simplifyShape_answers wf m symbolic h1 fits h
    · simp [simplifyShape] at h

end

lemma simplify_keep_applied {op' : Operator} (m : Matching s.info op size o)
    (symbolic : o.l1 ≠ 0 ∨ o.l2 ≠ 0) (int : isInteger op = true)
    (h : simplify s op size o = .keep op') :
    Matching s.info op' size o ∧ isInteger op' = true ∧
      width (request op' size o) = width (request op size o) ∧
      ∀ inp, applied s.info inp op' size o = applied s.info inp op size o := by
  rcases simplify_keep h with rfl | ⟨rfl, rfl, rfl, h1, one⟩
  · exact ⟨m, int, rfl, fun _ => rfl⟩
  have h2 : o.l2 ≠ 0 := by omega
  refine ⟨⟨m.1, m.2, .inl h1⟩, rfl, rfl, ?_⟩
  intro inp
  have xor : applied s.info inp .xor 1 o = _ := applied_left_const inp ⟨by decide, by decide⟩ h1 h2
  rw [xor]
  obtain ⟨_, right⟩ := operands_of_ne_concat s.info inp 1 o (show Operator.not ≠ .concat by decide)
  simp only [applied, applyOp, right, h2, and_false, if_false, one]
  rw [show BitVec.ofNat 1 (1 % 2 ^ 1) = BitVec.allOnes 1 by rfl, BitVec.allOnes_xor]

end Simplifications

/-! ## Records -/

/-- Operands that differ only in the concretes of symbolic sides. -/
structure SameCall (o o' : Operands) : Prop where
  l1 : o'.l1 = o.l1
  l2 : o'.l2 = o.l2
  op1 : o.l1 = 0 → o'.op1 = o.op1
  op2 : o.l2 = 0 → o'.op2 = o.op2

section Records

variable {s s' : Runtime} {mem : Nat → Nat} {op : Operator} {size : Nat} {o o' : Operands} {l : Nat}
  {info : Nat → LabelInfo}

lemma recordOperands_sameCall (mem : Nat → Nat) (size : Nat) (o : Operands)
    (int : isInteger op = true) : SameCall o (recordOperands mem op size o) := by
  obtain ⟨h1, h2⟩ := recordOperands_labels mem op size o
  have notMemcmp : op ≠ .fmemcmp := by
    rintro rfl
    cases int
  refine ⟨h1, h2, ?_, ?_⟩
  all_goals
    intro zero
    unfold recordOperands
    rw [if_neg notMemcmp]
    split
    · simp [zero]
    · rfl

lemma side_sameCall {c c' w : Nat} (h : l = 0 → c' = c) : Side info l c' w ↔ Side info l c w := by
  by_cases hl : l = 0
  · simp only [h hl]
  · simp only [Side, if_neg hl]

lemma matching_sameCall (h : SameCall o o') (m : Matching info op size o) :
    Matching info op size o' := by
  have side1 : ∀ w, Side info o'.l1 o'.op1 w ↔ Side info o.l1 o.op1 w := fun w => by
    rw [h.l1]; exact side_sameCall h.op1
  have side2 : ∀ w, Side info o'.l2 o'.op2 w ↔ Side info o.l2 o.op2 w := fun w => by
    rw [h.l2]; exact side_sameCall h.op2
  cases op with
  | extract => exact ⟨h.l2.trans m.1, by rw [h.l1, h.op2 m.1]; exact m.2⟩
  | trunc | zext | sext => exact ⟨h.l2.trans m.1, by rw [h.l1]; exact m.2⟩
  | not => exact ⟨(side1 _).mpr m.1, (side2 _).mpr m.2.1, by rw [h.l1, h.l2]; exact m.2.2⟩
  | concat =>
    obtain ⟨w1, w2, sum, m1, m2⟩ := m
    exact ⟨w1, w2, sum, (side1 _).mpr m1, (side2 _).mpr m2⟩
  | _ => exact ⟨(side1 _).mpr m.1, (side2 _).mpr m.2⟩

lemma applied_sameCall (inp : Input) (h : SameCall o o') (m : Matching info op size o) :
    applied info inp op size o' = applied info inp op size o := by
  obtain ⟨_, _, c1, c2⟩ := o
  obtain ⟨l1', l2', c1', c2'⟩ := o'
  obtain ⟨rfl, rfl, h1, h2⟩ := h
  have left : operand1 info (den info inp) (request op size ⟨l1', l2', c1', c2'⟩) =
      operand1 info (den info inp) (request op size ⟨l1', l2', c1, c2⟩) := by
    by_cases zero : l1' = 0
    · rw [show c1' = c1 from h1 zero]
      rfl
    · simp [operand1, request, zero]
  have right : operand2 info (den info inp) (request op size ⟨l1', l2', c1', c2'⟩) =
      operand2 info (den info inp) (request op size ⟨l1', l2', c1, c2⟩) := by
    by_cases zero : l2' = 0
    · rw [show c2' = c2 from h2 zero]
      rfl
    · simp [operand2, request, zero]
  simp only [applied, left, right]
  by_cases hextract : op = .extract
  · subst hextract
    rw [show c2' = c2 from h2 m.1]
    rfl
  · cases op with
    | extract => exact absurd rfl hextract
    | _ => rfl

lemma evalRecord_request {inp : Input} (int : isInteger op = true) (hnot : op = .not → o.l2 ≠ 0) :
    evalRecord info (den info inp) inp l (request op size o) = applied info inp op size o := by
  have notInput : op ≠ .input := by rintro rfl; cases int
  have notLoad : op ≠ .load := by rintro rfl; cases int
  have side : ¬ (op = .not ∧ o.l2 = 0) := fun h => hnot h.1 h.2
  simp [evalRecord, applied, request, notInput, notLoad, int, side]

end Records

/-! ## Calls -/

section Calls

variable {fl : Flags} {mem : Nat → Nat} {s s' : Runtime} {op : Operator} {size : Nat}
  {o orig : Operands} {l : Nat}

/-- An early return is zero and gives up on nothing but constants and bounds. -/
lemma earlyReturn_sound (topo : Topological s) (int : isInteger op = true)
    (h1 : o.l1 ≤ s.last) (h2 : o.l2 ≤ s.last) (h : earlyReturn s op o = some l) :
    l = 0 ∧ ((o.l1 = 0 ∧ o.l2 = 0) ∨ (s.info o.l1).op = .alloca ∨ (s.info o.l2).op = .alloca) := by
  have room := topo.room
  have top := topo.top
  rcases earlyReturn_cases h with ⟨zero, both⟩ | ⟨-, init⟩ | ⟨bounds, zero | ⟨rfl, -⟩⟩
  · exact ⟨zero, .inl both⟩
  · omega
  · exact ⟨zero, .inr bounds⟩
  · cases int

lemma earlyReturn_none (int : isInteger op = true) (h : earlyReturn s op o = none) :
    o.l1 ≠ 0 ∨ o.l2 ≠ 0 := by
  by_contra both
  have notSize : op ≠ .fsize := by rintro rfl; cases int
  have notAlloca : op ≠ .alloca := by rintro rfl; cases int
  unfold earlyReturn at h
  rw [if_pos ⟨by omega, by omega, notSize, notAlloca⟩] at h
  cases h

lemma isValidOp_of_integer (int : isInteger op = true) : isValidOp op = true := by
  cases op with
  | icmp p => simp [isValidOp]
  | _ => first | rfl | cases int

lemma orderOperands_le (op : Operator) (h1 : o.l1 ≤ s.last) (h2 : o.l2 ≤ s.last) :
    (orderOperands op o).l1 ≤ s.last ∧ (orderOperands op o).l2 ≤ s.last := by
  rcases orderOperands_cases op o with same | ⟨_, swapped⟩
  · rw [same]; exact ⟨h1, h2⟩
  · rw [swapped]; exact ⟨h2, h1⟩

lemma orderOperands_not
    (symbolic : (orderOperands .not o).l1 ≠ 0 ∨ (orderOperands .not o).l2 ≠ 0) :
    (orderOperands .not o).l2 ≠ 0 := by
  by_cases h : o.l2 < o.l1 ∧ isCommutative .not
  · simp only [orderOperands, if_pos h]
    omega
  · simp only [orderOperands, if_neg h] at symbolic ⊢
    have : ¬ o.l2 < o.l1 := fun lt => h ⟨lt, by decide⟩
    omega

lemma sound_of_recorded (mem : Nat → Nat) (int : isInteger op = true)
    (m : Matching s.info op size o)
    (h : let r := recordOperands mem op size (orderOperands op o)
      l = 0 ∧ (∃ v, ∀ inp, applied s.info inp op size r = v) ∨
        l ≠ 0 ∧ l ≤ s'.last ∧ width (s'.info l) = width (request op size r) ∧
          ∀ inp, den s'.info inp l = applied s.info inp op size r) : Sound s s' op size o l := by
  have value : ∀ inp, applied s.info inp op size
      (recordOperands mem op size (orderOperands op o)) = applied s.info inp op size o :=
    fun inp => (applied_sameCall inp (recordOperands_sameCall mem size _ int)
      (matching_orderOperands int m)).trans (applied_orderOperands int m)
  simp only [value] at h
  unfold Sound
  rcases h with ⟨zero, const⟩ | ⟨ne, le, hwidth, hden⟩
  · rw [if_pos zero]
    exact fun _ _ _ => const
  · rw [if_neg ne]
    exact ⟨le, hwidth, hden⟩

lemma prepare_ret_sound (topo : Topological s) (wf : op = .trunc → WellFormed s)
    (int : isInteger op = true) (positive : 1 ≤ size) (bound : size ≤ 64)
    (h1 : o.l1 ≤ s.last) (h2 : o.l2 ≤ s.last) (m : Matching s.info op size o)
    (fits : ¬ ShortcutMismatch s.info op size o)
    (h : prepare mem s op size o = .ret l) : Sound s s op size o l := by
  obtain ⟨le1, le2⟩ := orderOperands_le op h1 h2
  unfold prepare at h
  simp only [isValidOp_of_integer int, Bool.true_eq_false, if_false] at h
  cases hearly : earlyReturn s op (orderOperands op o) with
  | some l' =>
    simp only [hearly, Prepared.ret.injEq] at h
    subst h
    obtain ⟨rfl, gave⟩ := earlyReturn_sound topo int le1 le2 hearly
    intro symbolic left right
    exfalso
    rcases orderOperands_cases op o with same | ⟨_, swapped⟩
    · rw [same] at gave
      rcases gave with ⟨z1, z2⟩ | bounds | bounds
      · omega
      · exact left bounds
      · exact right bounds
    · rw [swapped] at gave
      rcases gave with ⟨z1, z2⟩ | bounds | bounds
      · simp only at z1 z2
        omega
      · exact right bounds
      · exact left bounds
  | none =>
    have symbolic := earlyReturn_none int hearly
    obtain ⟨k1, k2⟩ := recordOperands_labels mem op size (orderOperands op o)
    have recorded := matching_sameCall (recordOperands_sameCall mem size _ int)
      (matching_orderOperands int m)
    cases hsimp : simplify s op size (recordOperands mem op size (orderOperands op o)) with
    | keep op' => simp only [hearly, hsimp, reduceCtorEq] at h
    | ret l' =>
      simp only [hearly, hsimp, Prepared.ret.injEq] at h
      subst h
      refine sound_of_recorded mem int m ?_
      refine simplify_answers wf recorded (by rwa [k1, k2]) positive bound (by rwa [k1])
        (by rwa [k2]) (fun bad => fits ?_) hsimp
      obtain ⟨rfl, bad⟩ := bad
      rw [orderOperands_of_not_commutative (by decide)] at bad
      exact ⟨rfl, bad⟩

lemma prepare_key_sound (topo : Topological s') (ext : Extends s s') (int : isInteger op = true)
    (h1 : o.l1 ≤ s.last) (h2 : o.l2 ≤ s.last) (m : Matching s.info op size o) {key : LabelInfo}
    (h : prepare mem s op size o = .key key orig) (pos : 1 ≤ l) (le : l ≤ s'.last)
    (same : sameKey (s'.info l) key = true) : Sound s s' op size o l := by
  obtain ⟨le1, le2⟩ := orderOperands_le op h1 h2
  obtain ⟨rfl, hearly, op', hsimp, rfl⟩ := prepare_key h
  have symbolic := earlyReturn_none int hearly
  obtain ⟨k1, k2⟩ := recordOperands_labels mem op size (orderOperands op o)
  have symbolic' := symbolic
  rw [← k1, ← k2] at symbolic'
  have recorded := matching_sameCall (recordOperands_sameCall mem size _ int)
    (matching_orderOperands int m)
  obtain ⟨m', int', hwidth, hvalue⟩ := simplify_keep_applied recorded symbolic' int hsimp
  have hnot : op' = .not → (recordOperands mem op size (orderOperands op o)).l2 ≠ 0 := by
    rintro rfl
    rcases simplify_keep hsimp with rfl | ⟨_, _, _, zero, _⟩
    · exact orderOperands_not symbolic
    · omega
  obtain ⟨wide, value⟩ := topo.den_of_fields ext pos le (sameKey_trans same
    ((sameKey_iff _ (request op' size _)).mpr ⟨rfl, rfl, rfl, rfl, rfl, rfl⟩)) (k1.le.trans le1)
    fun _ => k2.le.trans le2
  refine sound_of_recorded mem int m (.inr ⟨by omega, le, wide.trans hwidth, fun inp => ?_⟩)
  rw [value inp, evalRecord_request int' hnot, mod_eq_of_lt (applied_lt int' m' symbolic'), hvalue]

/-- Outside the misread shortcut, the returned label stands for the value of the call. -/
lemma taintUnion_sound (topo : Topological s) (wf : op = .trunc → WellFormed s)
    (int : isInteger op = true)
    (positive : 1 ≤ size) (bound : size ≤ 64) (h1 : o.l1 ≤ s.last) (h2 : o.l2 ≤ s.last)
    (m : Matching s.info op size o) (fits : ¬ ShortcutMismatch s.info op size o)
    (h : taintUnion fl mem s op size o = some (l, s')) : Sound s s' op size o l := by
  have grows : Grows Legal s s' := taintUnion_legal (.inl h1) (fun _ => .inl h2) h
  have topo' := topo.grows grows
  rcases taintUnion_cases h with ⟨hret, rfl⟩ | ⟨key, orig, hprep, ⟨hit, rfl⟩ | hbuild⟩
  · exact prepare_ret_sound topo wf int positive bound h1 h2 m fits hret
  · obtain ⟨pos, le, same⟩ := topo.lookup_some hit
    exact prepare_key_sound topo' (.refl s') int h1 h2 m hprep pos le same
  obtain ⟨_, _, le, hinfo⟩ := buildLabel_some (P := fun _ _ => True)
    (fun _ _ _ _ _ _ _ => trivial) (fun _ _ _ => trivial) hbuild
  refine prepare_key_sound topo' grows.toExtends int h1 h2 m hprep (by omega) le ?_
  rw [hinfo]
  exact (sameKey_iff _ _).mpr ⟨rfl, rfl, rfl, rfl, rfl, rfl⟩

lemma shortcutMismatch_prepare (mem : Nat → Nat) (wf : WellFormed s) (h1 : o.l1 ≤ s.last)
    (m : Matching s.info op size o) (bad : ShortcutMismatch s.info op size o) :
    prepare mem s op size o = .ret (s.info o.l1).l1 ∧ (s.info o.l1).l1 ≠ 0 := by
  obtain ⟨rfl, hext, hsize, _⟩ := bad
  have room := wf.room
  have top := wf.top
  have ne : o.l1 ≠ 0 := by
    intro zero
    rw [zero, wf.const] at hext
    rcases hext with hext | hext <;> cases hext
  have h2 : o.l2 = 0 := m.1
  have notBounds : (s.info o.l1).op ≠ .alloca := by
    rcases hext with hext | hext <;> simp [hext]
  have const : (s.info 0).op = .input := by rw [wf.const]; rfl
  have early : earlyReturn s .trunc o = none := by
    unfold earlyReturn
    rw [if_neg (by omega), if_neg (by omega), if_neg (by simp [notBounds, h2, const])]
  obtain ⟨k1, _⟩ := recordOperands_labels mem .trunc size o
  have shape : simplify s .trunc size (recordOperands mem .trunc size o) =
      .ret (s.info o.l1).l1 := by
    unfold simplify simplifyLeft simplifyRight simplifyShape
    simp [k1, hext, hsize]
  refine ⟨?_, ?_⟩
  · unfold prepare
    rw [orderOperands_of_not_commutative (by decide)]
    have valid : isValidOp .trunc = true := by decide
    simp [early, shape, valid]
  · have := wf.base o.l1 (by omega) h1 hext
    omega

/-- Soundness of `__taint_union` on well-formed tables: a call on labels of the
table with operands of matching widths returns when labels are left, and the
label it returns stands for the opcode applied to the operand values exactly
when the truncation shortcut does not read a size field as the width of a
comparison or memory-comparison result. The concretes of symbolic operands are
arbitrary, in particular those of the current input. -/
theorem taintUnion_sound_iff (fl : Flags) (mem : Nat → Nat) (s : Runtime) (op : Operator)
    (size : Nat) (o : Operands) (wf : WellFormed s) (int : isInteger op = true)
    (positive : 1 ≤ size) (bound : size ≤ 64) (h1 : o.l1 ≤ s.last) (h2 : o.l2 ≤ s.last)
    (m : Matching s.info op size o) :
    (s.last + 7 < s.stackTop → (taintUnion fl mem s op size o).isSome = true) ∧
      ∀ l s', taintUnion fl mem s op size o = some (l, s') →
        (Sound s s' op size o l ↔ ¬ ShortcutMismatch s.info op size o) := by
  refine ⟨fun room => taintUnion_of_room wf.toTopological room h1 h2, ?_⟩
  intro l s' h
  constructor
  · rintro sound bad
    obtain ⟨hprep, ne⟩ := shortcutMismatch_prepare mem wf h1 m bad
    obtain ⟨rfl, _, _, differs⟩ := bad
    simp only [taintUnion, hprep] at h
    obtain ⟨rfl, rfl⟩ := h
    rw [Sound, if_neg ne] at sound
    exact differs sound.2.1
  · intro fits
    exact taintUnion_sound wf.toTopological (fun _ => wf) int positive bound h1 h2 m fits h

/-- A byte, its zero extension, and the truncation of that back to a byte. -/
theorem taintUnion_sound_iff_extended_byte :
    let t := tableOf [⟨0, 0, 0, 0, .input, 8, 0⟩, ⟨1, 0, 0, 0, .zext, 32, 0⟩] 1000
    let o : Operands := ⟨2, 0, 7, 0⟩
    (taintUnion ⟨true, true, false, true⟩ (fun _ => 0) t .trunc 8 o).isSome = true ∧
      ∀ l s', taintUnion ⟨true, true, false, true⟩ (fun _ => 0) t .trunc 8 o = some (l, s') →
        Sound t s' .trunc 8 o l := by
  intro t o
  have sound := taintUnion_sound_iff ⟨true, true, false, true⟩ (fun _ => 0) t .trunc 8 o
    (tableOf_wellFormed (by decide) (by decide) (by decide)) rfl (by decide) (by decide)
    (by decide) (by decide) ⟨rfl, fun _ => by decide⟩
  refine ⟨sound.1 (by decide), fun l s' h => (sound.2 l s' h).mpr ?_⟩
  rintro ⟨_, _, _, differs⟩
  exact differs rfl

/-- A byte compared with 'A', the comparison sign-extended to 64 bits, and that
truncated to 8 bits: the comparison is returned, whose size field is 8. On the
input 'A' the truncation is 255 and the returned one-bit label is 1. -/
theorem taintUnion_truncated_comparison :
    let t := tableOf [⟨0, 0, 0, 0, .input, 8, 0⟩, ⟨1, 0, 65, 65, .icmp .bveq, 8, 0⟩,
      ⟨2, 0, 0, 0, .sext, 64, 0⟩] 1000
    let o : Operands := ⟨3, 0, 2 ^ 64 - 1, 0⟩
    let inp : Input := ⟨fun _ _ => 65, fun _ => 0⟩
    WellFormed t ∧ Matching t.info .trunc 8 o ∧ den t.info inp o.l1 = o.op1 ∧
      taintUnion ⟨false, false, false, false⟩ (fun _ => 0) t .trunc 8 o = some (2, t) ∧
      den t.info inp 2 = 1 ∧ applied t.info inp .trunc 8 o = 255 ∧
      ¬ Sound t t .trunc 8 o 2 := by
  intro t o inp
  have returned : den t.info inp 2 = 1 := by decide
  have expected : applied t.info inp .trunc 8 o = 255 := by decide
  refine ⟨tableOf_wellFormed (by decide) (by decide) (by decide), ⟨rfl, fun _ => by decide⟩,
    by decide, rfl, returned, expected, ?_⟩
  intro sound
  have value := sound.2.2 inp
  rw [expected] at value
  cases value

end Calls

end UnionSoundness
