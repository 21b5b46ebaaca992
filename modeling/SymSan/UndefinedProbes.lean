import Mathlib.Data.List.Forall2
import SymSan.PinnedLabels

/-!
# Probes for undefined behaviour

With `solve_ub` on, a new division, shift or truncation comes with conditions under which it
would be undefined or lose data. Each behaviour is stated here by the operand values on which
it occurs, apart from the tests and comparisons that the code makes. The conditions of a call
are then compared with the behaviours of its opcode: what they are true of, when they are
reported, and whether they are false on the operands at hand.
-/

namespace UndefinedProbes

open LabelTable Denotation TableGrowth TaintUnion PinnedLabels

variable {size v w x : Nat} {l : Nat}

/-! ## Behaviours -/

/-- Something that happens on some values of one operand, whose label and present value are
given. `signTest` says that it is about the sign of the operand. -/
structure Behaviour where
  label : Nat
  current : Nat
  bits : Nat
  check : UndefinedCheck
  signTest : Bool
  Occurs : Nat → Prop

def divisorZero (size : Nat) (o : Operands) : Behaviour :=
  ⟨o.l2, o.op2, size, .divisionByZero, false, fun v => v = 0⟩

def exponentTooLarge (size : Nat) (o : Operands) : Behaviour :=
  ⟨o.l2, o.op2, size, .shiftExponent, false, fun v => size ≤ v⟩

def exponentNegative (size : Nat) (o : Operands) : Behaviour :=
  ⟨o.l2, o.op2, size, .shiftExponent, true, fun v => (BitVec.ofNat size v).toInt < 0⟩

/-- The present left operand loses bits when it is shifted. -/
def shiftedOut (size : Nat) (o : Operands) : Behaviour :=
  ⟨o.l2, o.op2, size, .shiftOverflow, false, fun v => 2 ^ size ≤ o.op1 * 2 ^ v⟩

def baseNegative (size : Nat) (o : Operands) : Behaviour :=
  ⟨o.l1, o.op1, size, .shiftBase, true, fun v => (BitVec.ofNat size v).toInt < 0⟩

def unsignedLoss (bits size : Nat) (o : Operands) : Behaviour :=
  ⟨o.l1, o.op1, bits, .unsignedIntegerTruncation, false, fun v => 2 ^ size ≤ v⟩

/-- The old value is below the least number of the new size. -/
def signedLoss (bits size : Nat) (o : Operands) : Behaviour :=
  ⟨o.l1, o.op1, bits, .signedIntegerTruncation, true,
    fun v => (BitVec.ofNat bits v).toInt < -2 ^ (size - 1)⟩

def IsDivision (op : Operator) : Prop := op ∈ [.udiv, .sdiv, .urem, .srem]

def IsShift (op : Operator) : Prop := op ∈ [.shl, .lshr, .ashr]

instance (op : Operator) : Decidable (IsDivision op) := by
  unfold IsDivision
  infer_instance

instance (op : Operator) : Decidable (IsShift op) := by
  unfold IsShift
  infer_instance

/-- The behaviours of a call with a symbolic right operand; of a truncation, with a symbolic
operand. -/
def behaviours (s : Runtime) (op : Operator) (size : Nat) (o : Operands) : List Behaviour :=
  if IsDivision op then
    if o.l2 = 0 then [] else [divisorZero size o]
  else if IsShift op then
    if o.l2 = 0 then []
    else [exponentTooLarge size o, exponentNegative size o] ++
      (if op = .shl ∧ o.op1 ≠ 0 then [shiftedOut size o] else []) ++
      (if o.l1 = 0 then [] else [baseNegative size o])
  else if op = .trunc then
    if o.l1 = 0 then []
    else [unsignedLoss (s.info o.l1).size size o, signedLoss (s.info o.l1).size size o]
  else []

/-- Operands have the width of the operation, truncations a wider one, and labels are recorded
with that width. -/
structure Fits (s : Runtime) (op : Operator) (size : Nat) (o : Operands) : Prop where
  positive : 1 ≤ size
  bound : size ≤ 64
  binary : IsDivision op ∨ IsShift op → o.op1 < 2 ^ size ∧ o.op2 < 2 ^ size ∧
    (o.l1 ≠ 0 → (s.info o.l1).size = size) ∧ (o.l2 ≠ 0 → (s.info o.l2).size = size)
  truncation : op = .trunc → o.l1 ≠ 0 →
    size < (s.info o.l1).size ∧ (s.info o.l1).size ≤ 64 ∧ o.op1 < 2 ^ (s.info o.l1).size

/-! ## Conditions -/

/-- A reported condition is true of exactly the values on which the behaviour occurs. -/
structure Exact (s : Runtime) (b : Behaviour) (c : TraceCond) : Prop where
  check : c.check = b.check
  le : c.label ≤ s.last
  value : ∀ inp v, v < 2 ^ b.bits → (denAt s.info inp b.label v c.label = 1 ↔ b.Occurs v)

lemma Exact.mono {s s' : Runtime} {b : Behaviour} {c : TraceCond} (exact : Exact s b c)
    (ext : Extends s s') : Exact s' b c := by
  have last := ext.last
  have le := exact.le
  refine ⟨exact.check, by omega, fun inp v bound => ?_⟩
  rw [denAt_extends inp ext le]
  exact exact.value inp v bound

/-- The table has grown and the behaviours that were asked for have been reported, in order. -/
structure Emits (s s' : Runtime) (asked : List (Bool × Behaviour)) : Prop where
  table : Topological s'
  ext : Extends s s'
  conds : ∃ cs, s'.conds = s.conds ++ cs ∧
    List.Forall₂ (fun a c => Exact s' a.2 c) (asked.filter (·.1)) cs

lemma Emits.append {s s' s'' : Runtime} {first second : List (Bool × Behaviour)}
    (one : Emits s s' first) (two : Emits s' s'' second) : Emits s s'' (first ++ second) := by
  obtain ⟨cs, conds, exact⟩ := one.conds
  obtain ⟨cs', conds', exact'⟩ := two.conds
  refine ⟨two.table, one.ext.trans two.ext, cs ++ cs', ?_, ?_⟩
  · rw [conds', conds, List.append_assoc]
  · rw [List.filter_append]
    exact List.rel_append (exact.imp fun _ _ here => here.mono two.ext) exact'

section Probes

variable {fl : Flags} {mem : Nat → Nat} {s s' : Runtime}

lemma probe_emits {b : Behaviour} {asked : Bool} {p : Predicate} {a k : Nat}
    (topo : Topological s) (plain : asked = true → Plain s b.label)
    (same : asked = true → ∀ v < 2 ^ b.bits,
      ((compare p (BitVec.ofNat size v) (BitVec.ofNat size k)).toNat = 1 ↔ b.Occurs v))
    (run : probe fl mem asked b.label p size a k b.check s = some s') :
    Emits s s' [(asked, b)] := by
  cases asked with
  | false =>
    simp only [probe, Bool.false_eq_true, if_false, Option.some.injEq] at run
    subst run
    exact ⟨topo, .refl s, [], by simp, by simp⟩
  | true =>
    simp only [probe, if_true] at run
    cases union : plainUnion fl mem s (.icmp p) size ⟨b.label, 0, a, k⟩ with
    | none => simp [union] at run
    | some answered =>
      obtain ⟨l, t⟩ := answered
      simp only [union, Option.some.injEq] at run
      subst run
      have plain := plain rfl
      have answer := plainUnion_answer topo (plain.prepare_icmp topo p) union
      refine ⟨(answer.topological topo plain.le (Nat.zero_le _)).traceCond _ _,
        answer.ext.trans (.traceCond _ _ _), [⟨l, b.check⟩], ?_, ?_⟩
      · simp [Runtime.traceCond, answer.conds]
      refine List.Forall₂.cons ⟨rfl, answer.le, fun inp v bound => ?_⟩ List.Forall₂.nil
      have value : denAt t.info inp b.label v l = _ :=
        plain.comparison_denAt topo answer inp (Nat.le_refl b.label)
      rw [denAt_self] at value
      rw [← same rfl v bound]
      exact Eq.congr_left value

end Probes

/-! ## What the comparisons say -/

lemma sign_one (size v : Nat) :
    (compare .bvslt (BitVec.ofNat size v) (BitVec.ofNat size 0)).toNat = 1 ↔
      (BitVec.ofNat size v).toInt < 0 := by
  rw [slt_one]
  simp

lemma shiftSlack_eq (nonzero : x ≠ 0) (fits : x < 2 ^ size) (bound : size ≤ 64) :
    shiftSlack x size + Nat.log2 x + 1 = size := by
  have log : Nat.log2 x < size := (Nat.log2_lt nonzero).mpr fits
  unfold shiftSlack
  omega

lemma shifted_out_iff (nonzero : x ≠ 0) (fits : x < 2 ^ size) (bound : size ≤ 64) :
    2 ^ size ≤ x * 2 ^ v ↔ shiftSlack x size < v := by
  have slack := shiftSlack_eq nonzero fits bound
  by_cases far : size ≤ v
  · have grown : 2 ^ size ≤ x * 2 ^ v :=
      calc 2 ^ size ≤ 2 ^ v := Nat.pow_le_pow_right (by decide) far
        _ ≤ x * 2 ^ v := Nat.le_mul_of_pos_left _ (Nat.pos_of_ne_zero nonzero)
    exact ⟨fun _ => by omega, fun _ => grown⟩
  have split : 2 ^ size = 2 ^ (size - v) * 2 ^ v := by
    rw [← Nat.pow_add, Nat.sub_add_cancel (by omega)]
  have log := Nat.log2_lt (n := x) (k := size - v) nonzero
  rw [split, Nat.mul_le_mul_right_iff (Nat.pow_pos (by decide))]
  omega

lemma truncTarget_eq (positive : 1 ≤ size) (bound : size ≤ 64) :
    truncTarget size = 2 ^ 64 - 2 ^ (size - 1) := by
  have count : (size + 63) % 64 = size - 1 := by omega
  have split : 2 ^ 64 = 2 ^ (64 - (size - 1)) * 2 ^ (size - 1) := by
    rw [← Nat.pow_add, Nat.sub_add_cancel (by omega)]
  have pos : 0 < 2 ^ (size - 1) := Nat.pow_pos (by decide)
  have some : 1 ≤ 2 ^ (64 - (size - 1)) := Nat.pow_pos (by decide)
  have less : (2 ^ (64 - (size - 1)) - 1) * 2 ^ (size - 1) = 2 ^ 64 - 2 ^ (size - 1) := by
    rw [Nat.sub_mul, ← split, Nat.one_mul]
  have quotient : (2 ^ 64 - 1) / 2 ^ (size - 1) = 2 ^ (64 - (size - 1)) - 1 := by
    apply Nat.div_eq_of_lt_le
    · omega
    · rw [Nat.sub_add_cancel some, ← split]
      decide
  rw [truncTarget, count, quotient, less]

lemma masked_toInt {old : Nat} (positive : 1 ≤ size) (narrower : size < old) (bound : old ≤ 64) :
    (BitVec.ofNat old (if old < 64 ∧ (truncTarget size).testBit old then
      truncTarget size - 2 ^ old else truncTarget size)).toInt = -2 ^ (size - 1) := by
  have target := truncTarget_eq positive (by omega)
  have some : 0 < 2 ^ (size - 1) := Nat.pow_pos (by decide)
  have half : 2 * 2 ^ (size - 1) ≤ 2 ^ (old - 1) := by
    rw [← Nat.pow_succ']
    exact Nat.pow_le_pow_right (by decide) (by omega)
  have width : 2 ^ old = 2 * 2 ^ (old - 1) := by
    rw [← Nat.pow_succ', Nat.succ_eq_add_one, Nat.sub_add_cancel (by omega)]
  have split : 2 ^ 64 = 2 ^ (64 - old) * 2 ^ old := by
    rw [← Nat.pow_add, Nat.sub_add_cancel bound]
  generalize masked : (if old < 64 ∧ (truncTarget size).testBit old then
    truncTarget size - 2 ^ old else truncTarget size) = constant
  have congruent : ∃ m : Int, (constant : Int) = -((2 ^ (size - 1) : Nat) : Int) +
      m * ((2 ^ old : Nat) : Int) := by
    have whole : (2 : Int) ^ 64 = ((2 ^ (64 - old) : Nat) : Int) * ((2 ^ old : Nat) : Int) := by
      rw [← Int.natCast_mul, ← split]
      rfl
    by_cases cleared : old < 64 ∧ (truncTarget size).testBit old
    · have less : 2 ^ old ≤ 2 ^ 63 := Nat.pow_le_pow_right (by decide) (by omega)
      rw [if_pos cleared] at masked
      refine ⟨((2 ^ (64 - old) : Nat) : Int) - 1, ?_⟩
      rw [Int.sub_mul]
      omega
    · have less : 2 ^ old ≤ 2 ^ 64 := Nat.pow_le_pow_right (by decide) bound
      rw [if_neg cleared] at masked
      refine ⟨((2 ^ (64 - old) : Nat) : Int), ?_⟩
      omega
  obtain ⟨m, equal⟩ := congruent
  rw [BitVec.toInt_eq_toNat_bmod, BitVec.toNat_ofNat, Int.natCast_emod, Int.emod_bmod, equal,
    Int.add_mul_bmod_self_right, Int.bmod_eq_of_le]
  · rfl
  · omega
  · omega

/-! ## Calls -/

/-- A call with a probe whose record is about to be written. -/
structure Ready (s : Runtime) (op : Operator) (size : Nat) (o : Operands) (key : LabelInfo) :
    Prop where
  left : key.l1 = o.l1
  right : key.l2 = o.l2
  size : key.size = size
  op : key.op = op
  first : o.l1 ≠ 0 → Plain s o.l1
  second : o.l2 ≠ 0 → Plain s o.l2

section Calls

variable {fl : Flags} {mem : Nat → Nat} {s s' : Runtime} {op : Operator} {size : Nat}
  {o orig : Operands} {key : LabelInfo}

lemma Ready.mono (ready : Ready s op size o key) (ext : Extends s s') : Ready s' op size o key :=
  ⟨ready.left, ready.right, ready.size, ready.op, fun ne => (ready.first ne).mono ext,
    fun ne => (ready.second ne).mono ext⟩

lemma plain_of_existing {k : Nat} (held : Existing s k) (init : k ≠ kInitializingLabel)
    (notBounds : (s.info k).op ≠ .alloca) (nonzero : k ≠ 0) : Plain s k := by
  rcases held with le | special | stack
  · exact ⟨Nat.pos_of_ne_zero nonzero, le, notBounds⟩
  · exact absurd special init
  · exact absurd stack.2 notBounds

lemma ready_of_prepare (probing : IsDivision op ∨ IsShift op ∨ op = .trunc) (h1 : Existing s o.l1)
    (h2 : Existing s o.l2) (prepared : prepare mem s op size o = .key key orig) :
    orig = o ∧ Ready s op size o key := by
  have kind : isCommutative op = false ∧ op ≠ .xor ∧ op ≠ .load ∧ op ≠ .extract ∧
      op ≠ .bitCast ∧ op ≠ .ptrToInt ∧ op.low ≠ 53 := by
    unfold IsDivision IsShift at probing
    simp only [List.mem_cons, List.not_mem_nil, or_false] at probing
    rcases probing with (rfl | rfl | rfl | rfl) | (rfl | rfl | rfl) | rfl
    all_goals decide
  obtain ⟨commutes, notXor, notLoad, _, _, _, _⟩ := kind
  obtain ⟨rfl, early, -⟩ := prepare_key prepared
  obtain ⟨left, right, size, hop⟩ := prepare_key_fields prepared
  rw [orderOperands_of_not_commutative commutes] at left right early ⊢
  obtain ⟨init1, init2⟩ := earlyReturn_none_init early
  have bounds : ¬ ((s.info o.l1).op = .alloca ∨ (s.info o.l2).op = .alloca) := by
    intro bounds
    simp only [earlyReturn, init1, init2, notLoad, ne_eq, not_false_eq_true, true_and] at early
    split at early
    · cases early
    · cases early
  refine ⟨rfl, left, right, size, ?_, ?_, ?_⟩
  · rcases hop with same | ⟨xor, -⟩
    · exact same
    · exact absurd xor notXor
  · exact plain_of_existing h1 init1 fun first => bounds (.inl first)
  · exact plain_of_existing h2 init2 fun second => bounds (.inr second)

/-- What the code asks for before a record is written. -/
def askedOperands (op : Operator) (size : Nat) (o : Operands) : List (Bool × Behaviour) :=
  if o.l2 = 0 then []
  else if IsDivision op then [(o.op2 ≠ 0, divisorZero size o)]
  else if IsShift op then
    [(o.op2 < size, exponentTooLarge size o), (o.op2 < 2 ^ 63, exponentNegative size o),
      (op = .shl ∧ o.op1 ≠ 0 ∧ o.op2 ≤ shiftSlack o.op1 size, shiftedOut size o),
      (1 ≤ o.l1 ∧ o.op1 < 2 ^ 63, baseNegative size o)]
  else []

/-- What it asks for after a truncation is written. -/
def askedTrunc (s : Runtime) (op : Operator) (size : Nat) (o : Operands) :
    List (Bool × Behaviour) :=
  if o.l1 ≠ 0 ∧ op = .trunc then
    [(o.op1 < 2 ^ size, unsignedLoss (s.info o.l1).size size o),
      (signed64 (truncTarget size) ≤ signed64 o.op1, signedLoss (s.info o.l1).size size o)]
  else []

lemma Emits.none (topo : Topological s) : Emits s s [] :=
  ⟨topo, .refl s, [], by simp, by simp⟩

lemma shift_emits (topo : Topological s) (ready : Ready s op size o key)
    (fits : Fits s op size o) (shift : IsShift op) (symbolic : o.l2 ≠ 0) {slack : Nat}
    (hslack : slack = shiftSlack o.op1 size)
    (run : ((probe fl mem (o.op2 < size) o.l2 .bvuge size o.op2 size .shiftExponent s).bind
        fun s => (probe fl mem (o.op2 < 2 ^ 63) o.l2 .bvslt size o.op2 0 .shiftExponent s).bind
        fun s => (probe fl mem (op = .shl ∧ o.op1 ≠ 0 ∧ o.op2 ≤ slack) o.l2 .bvugt size o.op2
          slack .shiftOverflow s).bind
        fun s => probe fl mem (1 ≤ o.l1 ∧ o.op1 < 2 ^ 63) o.l1 .bvslt (s.info o.l1).size o.op1 0
          .shiftBase s) = some s') :
    Emits s s' [(o.op2 < size, exponentTooLarge size o),
      (o.op2 < 2 ^ 63, exponentNegative size o),
      (op = .shl ∧ o.op1 ≠ 0 ∧ o.op2 ≤ slack, shiftedOut size o),
      (1 ≤ o.l1 ∧ o.op1 < 2 ^ 63, baseNegative size o)] := by
  obtain ⟨_, run1, run⟩ := Option.bind_eq_some_iff.mp run
  obtain ⟨_, run2, run⟩ := Option.bind_eq_some_iff.mp run
  obtain ⟨s3, run3, run4⟩ := Option.bind_eq_some_iff.mp run
  obtain ⟨small, -, leftSize, -⟩ := fits.binary (.inr shift)
  have one := probe_emits (b := exponentTooLarge size o) topo (fun _ => ready.second symbolic)
    (fun _ _ bound => uge_one bound Nat.lt_two_pow_self) run1
  have ready1 := ready.mono one.ext
  have two := probe_emits (b := exponentNegative size o) one.table
    (fun _ => ready1.second symbolic) (fun _ v _ => sign_one size v) run2
  have ready2 := ready1.mono two.ext
  have three := probe_emits (b := shiftedOut size o) two.table (fun _ => ready2.second symbolic)
    (fun asked v bound => by
      have nonzero : o.op1 ≠ 0 := (of_decide_eq_true asked).2.1
      have slackEq := shiftSlack_eq nonzero small fits.bound
      have room : size < 2 ^ size := Nat.lt_two_pow_self
      have compared := ugt_one (b := slack) (show v < 2 ^ size from bound) (by omega)
      rw [compared, hslack]
      exact (shifted_out_iff nonzero small fits.bound).symm) run3
  have ready3 := ready2.mono three.ext
  have four := probe_emits (b := baseNegative size o) three.table
    (fun asked => ready3.first (Nat.ne_of_gt (of_decide_eq_true asked).1))
    (fun asked v _ => by
      have nonzero : o.l1 ≠ 0 := Nat.ne_of_gt (of_decide_eq_true asked).1
      have old : s3.info o.l1 = s.info o.l1 :=
        ((one.ext.trans two.ext).trans three.ext).same _ (.inl (ready.first nonzero).le)
      rw [old, leftSize nonzero]
      exact sign_one size v) run4
  exact one.append (two.append (three.append four))

lemma low_division (known : ∀ code, op ≠ .other code) :
    op.low ∈ [19, 20, 22, 23] ↔ IsDivision op := by
  cases op with
  | other code => exact absurd rfl (known code)
  | icmp p => simp [IsDivision]
  | _ => decide

lemma low_shift (known : ∀ code, op ≠ .other code) : op.low ∈ [25, 26, 27] ↔ IsShift op := by
  cases op with
  | other code => exact absurd rfl (known code)
  | icmp p => simp [IsShift]
  | _ => decide

section

variable (on : fl.solveUb = true) (topo : Topological s) (fits : Fits s op size o)
  (ready : Ready s op size o key)

include on topo fits ready

lemma operandProbes_emits (known : ∀ code, op ≠ .other code)
    (run : operandProbes fl mem key o s = some s') : Emits s s' (askedOperands op size o) := by
  simp only [operandProbes, ready.left, ready.right, ready.size, ready.op, on,
    low_division known, low_shift known, Bool.true_eq_false, or_false] at run
  unfold askedOperands
  by_cases concrete : o.l2 = 0
  · rw [if_pos concrete] at run ⊢
    cases run
    exact .none topo
  rw [if_neg concrete] at run ⊢
  by_cases division : IsDivision op
  · rw [if_pos division] at run ⊢
    exact probe_emits (b := divisorZero size o) topo (fun _ => ready.second concrete)
      (fun _ _ bound => eq_zero_one bound) run
  rw [if_neg division] at run ⊢
  by_cases shift : IsShift op
  · rw [if_pos shift] at run ⊢
    rw [(fits.binary (.inr shift)).2.2.2 concrete] at run
    exact shift_emits topo ready fits shift concrete rfl run
  · rw [if_neg shift] at run ⊢
    cases run
    exact .none topo

lemma truncProbes_emits (run : truncProbes fl mem key o s = some s') :
    Emits s s' (askedTrunc s op size o) := by
  simp only [truncProbes, ready.left, ready.size, ready.op, on, and_true] at run
  unfold askedTrunc
  by_cases symbolic : o.l1 ≠ 0 ∧ op = .trunc
  · have positive : 1 ≤ o.l1 ∧ op = .trunc := ⟨Nat.pos_of_ne_zero symbolic.1, symbolic.2⟩
    obtain ⟨narrower, bound, -⟩ := fits.truncation symbolic.2 symbolic.1
    have power : oneShl size = 2 ^ size := by
      rw [oneShl, Nat.mod_eq_of_lt (by omega)]
    have wider : 2 ^ size < 2 ^ (s.info o.l1).size := Nat.pow_lt_pow_right (by decide) narrower
    rw [if_pos positive, power] at run
    rw [if_pos symbolic]
    obtain ⟨_, run1, run2⟩ := Option.bind_eq_some_iff.mp run
    have one := probe_emits (b := unsignedLoss (s.info o.l1).size size o) topo
      (fun _ => ready.first symbolic.1) (fun _ _ small => uge_one small wider) run1
    have two := probe_emits (b := signedLoss (s.info o.l1).size size o) one.table
      (fun _ => (ready.mono one.ext).first symbolic.1)
      (fun _ v _ => by
        rw [slt_one, masked_toInt fits.positive narrower bound]
        rfl) run2
    exact one.append two
  · have none : ¬ (1 ≤ o.l1 ∧ op = .trunc) := by
      rintro ⟨positive, trunc⟩
      exact symbolic ⟨Nat.ne_of_gt positive, trunc⟩
    rw [if_neg none] at run
    rw [if_neg symbolic]
    cases run
    exact .none topo

end

lemma Fits.mono (fits : Fits s op size o) (ready : Ready s op size o key)
    (ext : Extends s s') : Fits s' op size o := by
  have same : ∀ k, (k ≠ 0 → Plain s k) → k ≠ 0 → s'.info k = s.info k := fun k plain nonzero =>
    ext.same k (.inl (plain nonzero).le)
  refine ⟨fits.positive, fits.bound, fun kind => ?_, fun trunc nonzero => ?_⟩
  · obtain ⟨left, right, leftSize, rightSize⟩ := fits.binary kind
    refine ⟨left, right, fun nonzero => ?_, fun nonzero => ?_⟩
    · rw [same o.l1 ready.first nonzero]
      exact leftSize nonzero
    · rw [same o.l2 ready.second nonzero]
      exact rightSize nonzero
  · rw [same o.l1 ready.first nonzero]
    exact fits.truncation trunc nonzero

lemma create_emits (topo : Topological s) (ready : Ready s op size o key)
    (run : create fl s key = some (l, s')) : Emits s s' [] := by
  have first : key.l1 ≤ s.last := by
    rw [ready.left]
    by_cases zero : o.l1 = 0
    · omega
    · exact (ready.first zero).le
  have second : key.l2 ≤ s.last := by
    rw [ready.right]
    by_cases zero : o.l2 = 0
    · omega
    · exact (ready.second zero).le
  obtain ⟨-, room, rfl, -⟩ := create_some run
  have legal : Legal s key := ⟨.inl (by omega), fun _ => .inl (by omega)⟩
  refine ⟨(topo.push room legal).insert (Nat.le_add_left 1 _) (Nat.le_refl _), ?_, [], ?_, ?_⟩
  · exact (Extends.push room key).trans (Extends.insert _ _)
  · simp [Runtime.push, Runtime.insert]
  · exact List.Forall₂.nil

lemma buildLabel_emits (on : fl.solveUb = true) (topo : Topological s) (fits : Fits s op size o)
    (ready : Ready s op size o key) (known : ∀ code, op ≠ .other code)
    (run : buildLabel fl mem s key o = some (l, s')) :
    Emits s s' (askedOperands op size o ++ askedTrunc s op size o) := by
  obtain ⟨_, before, run⟩ := Option.bind_eq_some_iff.mp run
  obtain ⟨⟨_, s2⟩, created, run⟩ := Option.bind_eq_some_iff.mp run
  obtain ⟨_, after, same⟩ := Option.map_eq_some_iff.mp run
  cases same
  have one := operandProbes_emits on topo fits ready known before
  have two := create_emits one.table (ready.mono one.ext) created
  have both := one.append two
  have three := truncProbes_emits on two.table (fits.mono ready both.ext) (ready.mono both.ext)
    after
  have sizes : askedTrunc s2 op size o = askedTrunc s op size o := by
    unfold askedTrunc
    by_cases symbolic : o.l1 ≠ 0 ∧ op = .trunc
    · rw [if_pos symbolic, if_pos symbolic, both.ext.same o.l1 (.inl (ready.first symbolic.1).le)]
    · rw [if_neg symbolic, if_neg symbolic]
  rw [sizes] at three
  have all := both.append three
  rwa [List.append_nil] at all

end Calls

/-! ## The tests on the present operands -/

lemma toInt_cases (bound : v < 2 ^ w) :
    2 * v < 2 ^ w ∧ (BitVec.ofNat w v).toInt = v ∨
      2 ^ w ≤ 2 * v ∧ (BitVec.ofNat w v).toInt = (v : Int) - (2 ^ w : Nat) := by
  rw [BitVec.toInt_eq_toNat_cond, BitVec.toNat_ofNat, Nat.mod_eq_of_lt bound]
  by_cases low : 2 * v < 2 ^ w
  · exact .inl ⟨low, if_pos low⟩
  · exact .inr ⟨by omega, if_neg low⟩

/-- The test of the 64-bit sign is passed by every number that is not negative at its width. -/
lemma sign_asked (bound : v < 2 ^ w) (narrow : w ≤ 64) :
    (¬ (BitVec.ofNat w v).toInt < 0 → v < 2 ^ 63) ∧
      (w = 64 → v < 2 ^ 63 → ¬ (BitVec.ofNat w v).toInt < 0) := by
  have wide : 2 ^ w ≤ 2 ^ 64 := Nat.pow_le_pow_right (by decide) narrow
  rcases toInt_cases bound with ⟨low, value⟩ | ⟨high, value⟩
  · rw [value]
    omega
  · rw [value]
    refine ⟨fun sign => by omega, ?_⟩
    rintro rfl small
    omega

lemma signedLoss_asked (bound : v < 2 ^ w) (narrow : w ≤ 64) (positive : 1 ≤ size)
    (narrower : size < w) :
    (¬ (BitVec.ofNat w v).toInt < -2 ^ (size - 1) → signed64 (truncTarget size) ≤ signed64 v) ∧
    (w = 64 → signed64 (truncTarget size) ≤ signed64 v →
      ¬ (BitVec.ofNat w v).toInt < -2 ^ (size - 1)) := by
  have target := truncTarget_eq positive (by omega)
  have small : 2 ^ (size - 1) ≤ 2 ^ 62 := Nat.pow_le_pow_right (by decide) (by omega)
  have cast : (2 : Int) ^ (size - 1) = ((2 ^ (size - 1) : Nat) : Int) := by
    rfl
  have least : signed64 (truncTarget size) = -((2 ^ (size - 1) : Nat) : Int) := by
    rw [signed64, target]
    omega
  rw [cast, least]
  have wide : 2 ^ w ≤ 2 ^ 64 := Nat.pow_le_pow_right (by decide) narrow
  rcases toInt_cases bound with ⟨low, value⟩ | ⟨high, value⟩
  · rw [value, signed64]
    omega
  unfold signed64
  by_cases full : w = 64
  · subst full
    omega
  · have less : 2 ^ w ≤ 2 ^ 63 := Nat.pow_le_pow_right (by decide) (by omega)
    omega

section Tests

variable {s : Runtime} {op : Operator} {size : Nat} {o : Operands} {b : Behaviour}

lemma IsDivision.ne_trunc (division : IsDivision op) : op ≠ .trunc := by
  rintro rfl
  exact absurd division (by decide)

lemma IsShift.ne_trunc (shift : IsShift op) : op ≠ .trunc := by
  rintro rfl
  exact absurd shift (by decide)

lemma IsShift.not_division (shift : IsShift op) : ¬ IsDivision op := by
  simp only [IsShift, List.mem_cons, List.not_mem_nil, or_false] at shift
  rcases shift with rfl | rfl | rfl
  all_goals decide

lemma division_asked (s : Runtime) (size : Nat) (o : Operands) (b : Behaviour)
    (division : IsDivision op) :
    (b ∈ behaviours s op size o ∧ ¬ b.Occurs b.current → (true, b) ∈ askedOperands op size o) ∧
    ((true, b) ∈ askedOperands op size o → b ∈ behaviours s op size o ∧ ¬ b.Occurs b.current) := by
  rw [behaviours, askedOperands, if_pos division, if_pos division]
  by_cases concrete : o.l2 = 0
  · simp [concrete]
  rw [if_neg concrete, if_neg concrete]
  simp only [List.mem_singleton, Prod.mk.injEq]
  constructor
  · rintro ⟨rfl, occurs⟩
    have test : o.op2 ≠ 0 := occurs
    exact ⟨(decide_eq_true test).symm, rfl⟩
  · rintro ⟨asked, rfl⟩
    have test : o.op2 ≠ 0 := of_decide_eq_true asked.symm
    exact ⟨rfl, test⟩

lemma mem_shift : b ∈ [exponentTooLarge size o, exponentNegative size o] ++
      (if op = .shl ∧ o.op1 ≠ 0 then [shiftedOut size o] else []) ++
      (if o.l1 = 0 then [] else [baseNegative size o]) ↔
    b = exponentTooLarge size o ∨ b = exponentNegative size o ∨
      (op = .shl ∧ o.op1 ≠ 0 ∧ b = shiftedOut size o) ∨
      (o.l1 ≠ 0 ∧ b = baseNegative size o) := by
  by_cases overflow : op = .shl ∧ o.op1 ≠ 0
  · by_cases concrete : o.l1 = 0
    · simp [overflow]
    · simp [overflow]
  · by_cases concrete : o.l1 = 0
    · simp [← and_assoc]
    · simp [← and_assoc]

lemma shift_asked (fits : Fits s op size o) (shift : IsShift op) (b : Behaviour) :
    (b ∈ behaviours s op size o ∧ ¬ b.Occurs b.current → (true, b) ∈ askedOperands op size o) ∧
    ((true, b) ∈ askedOperands op size o → b ∈ behaviours s op size o ∧
      ((b.signTest = true → b.bits = 64) → ¬ b.Occurs b.current)) := by
  obtain ⟨left, right, -⟩ := fits.binary (.inr shift)
  rw [behaviours, askedOperands, if_neg shift.not_division, if_neg shift.not_division,
    if_pos shift, if_pos shift]
  by_cases concrete : o.l2 = 0
  · simp [concrete]
  rw [if_neg concrete, if_neg concrete, mem_shift]
  simp only [List.mem_cons, List.not_mem_nil, or_false, Prod.mk.injEq]
  have exponentSign := sign_asked right fits.bound
  have baseSign := sign_asked left fits.bound
  constructor
  · rintro ⟨rfl | rfl | ⟨shl, nonzero, rfl⟩ | ⟨symbolic, rfl⟩, occurs⟩
    · exact .inl ⟨(decide_eq_true (Nat.lt_of_not_le occurs)).symm, rfl⟩
    · exact .inr (.inl ⟨(decide_eq_true (exponentSign.1 occurs)).symm, rfl⟩)
    · have fitting : ¬ shiftSlack o.op1 size < o.op2 := fun out =>
        occurs ((shifted_out_iff nonzero left fits.bound).mpr out)
      exact .inr (.inr (.inl ⟨(decide_eq_true
        ⟨shl, nonzero, Nat.le_of_not_lt fitting⟩).symm, rfl⟩))
    · have test : 1 ≤ o.l1 ∧ o.op1 < 2 ^ 63 := ⟨Nat.pos_of_ne_zero symbolic, baseSign.1 occurs⟩
      exact .inr (.inr (.inr ⟨(decide_eq_true test).symm, rfl⟩))
  · rintro (⟨asked, rfl⟩ | ⟨asked, rfl⟩ | ⟨asked, rfl⟩ | ⟨asked, rfl⟩)
    · have test : o.op2 < size := of_decide_eq_true asked.symm
      exact ⟨.inl rfl, fun _ => Nat.not_le_of_lt test⟩
    · have test : o.op2 < 2 ^ 63 := of_decide_eq_true asked.symm
      exact ⟨.inr (.inl rfl), fun wide => exponentSign.2 (wide rfl) test⟩
    · have test : op = .shl ∧ o.op1 ≠ 0 ∧ o.op2 ≤ shiftSlack o.op1 size :=
        of_decide_eq_true asked.symm
      refine ⟨.inr (.inr (.inl ⟨test.1, test.2.1, rfl⟩)), fun _ out => ?_⟩
      exact Nat.not_lt_of_le test.2.2 ((shifted_out_iff test.2.1 left fits.bound).mp out)
    · have test : 1 ≤ o.l1 ∧ o.op1 < 2 ^ 63 := of_decide_eq_true asked.symm
      exact ⟨.inr (.inr (.inr ⟨Nat.ne_of_gt test.1, rfl⟩)),
        fun wide => baseSign.2 (wide rfl) test.2⟩

lemma trunc_asked (fits : Fits s .trunc size o) (b : Behaviour) :
    (b ∈ behaviours s .trunc size o ∧ ¬ b.Occurs b.current →
      (true, b) ∈ askedTrunc s .trunc size o) ∧
    ((true, b) ∈ askedTrunc s .trunc size o → b ∈ behaviours s .trunc size o ∧
      ((b.signTest = true → b.bits = 64) → ¬ b.Occurs b.current)) := by
  rw [behaviours, askedTrunc, if_neg (by decide), if_neg (by decide), if_pos rfl]
  by_cases concrete : o.l1 = 0
  · simp [concrete]
  obtain ⟨narrower, bound, small⟩ := fits.truncation rfl concrete
  have signed := signedLoss_asked small bound fits.positive narrower
  rw [if_neg concrete, if_pos ⟨concrete, rfl⟩]
  simp only [List.mem_cons, List.not_mem_nil, or_false, Prod.mk.injEq]
  constructor
  · rintro ⟨rfl | rfl, occurs⟩
    · exact .inl ⟨(decide_eq_true (Nat.lt_of_not_le occurs)).symm, rfl⟩
    · exact .inr ⟨(decide_eq_true (signed.1 occurs)).symm, rfl⟩
  · rintro (⟨asked, rfl⟩ | ⟨asked, rfl⟩)
    · exact ⟨.inl rfl, fun _ => Nat.not_le_of_lt (of_decide_eq_true asked.symm)⟩
    · exact ⟨.inr rfl, fun wide => signed.2 (wide rfl) (of_decide_eq_true asked.symm)⟩

/-- What is asked for is what does not occur yet; the tests of a sign are sharp at 64 bits. -/
lemma asked_sound (fits : Fits s op size o) (b : Behaviour) :
    (b ∈ behaviours s op size o ∧ ¬ b.Occurs b.current →
      (true, b) ∈ askedOperands op size o ++ askedTrunc s op size o) ∧
    ((true, b) ∈ askedOperands op size o ++ askedTrunc s op size o →
      b ∈ behaviours s op size o ∧ ((b.signTest = true → b.bits = 64) → ¬ b.Occurs b.current)) := by
  by_cases division : IsDivision op
  · have none : askedTrunc s op size o = [] := if_neg fun trunc => division.ne_trunc trunc.2
    have tests := division_asked s size o b division
    rw [none, List.append_nil]
    exact ⟨tests.1, fun asked => ⟨(tests.2 asked).1, fun _ => (tests.2 asked).2⟩⟩
  by_cases shift : IsShift op
  · have none : askedTrunc s op size o = [] := if_neg fun trunc => shift.ne_trunc trunc.2
    rw [none, List.append_nil]
    exact shift_asked fits shift b
  have none : askedOperands op size o = [] := by
    rw [askedOperands, if_neg division, if_neg shift, ite_self]
  rw [none]
  by_cases trunc : op = .trunc
  · subst trunc
    exact trunc_asked fits b
  · rw [behaviours, askedTrunc, if_neg division, if_neg shift, if_neg trunc,
      if_neg fun both => trunc both.2]
    simp

end Tests

/-! ## The probes of a call -/

/-- The call is answered by a new record: neither by an early return or a simplification, nor
by a record that the hash table has. -/
def WritesRecord (mem : Nat → Nat) (s : Runtime) (op : Operator) (size : Nat) (o : Operands) :
    Prop :=
  ∃ key orig, prepare mem s op size o = .key key orig ∧ s.lookup key = none

lemma emits_of_new {fl : Flags} {mem : Nat → Nat} {s s' : Runtime} {op : Operator} {o : Operands}
    (on : fl.solveUb = true) (topo : Topological s) (h1 : Existing s o.l1)
    (h2 : op ≠ .load → Existing s o.l2) (known : ∀ code, op ≠ .other code) (fits : Fits s op size o)
    (new : WritesRecord mem s op size o) (run : taintUnion fl mem s op size o = some (l, s')) :
    ∃ cs, s'.conds = s.conds ++ cs ∧ List.Forall₂ (fun a c => Exact s' a.2 c)
      ((askedOperands op size o ++ askedTrunc s op size o).filter (·.1)) cs := by
  obtain ⟨key, _, prepared, fresh⟩ := new
  simp only [taintUnion, prepared, fresh] at run
  by_cases probing : IsDivision op ∨ IsShift op ∨ op = .trunc
  · have notLoad : op ≠ .load := by
      rintro rfl
      exact absurd probing (by decide)
    obtain ⟨rfl, ready⟩ := ready_of_prepare probing h1 (h2 notLoad) prepared
    exact (buildLabel_emits on topo fits ready known run).conds
  · -- no probe belongs to the opcode
    obtain ⟨notDivision, notShift, notTrunc⟩ :
        ¬ IsDivision op ∧ ¬ IsShift op ∧ op ≠ .trunc := by
      refine ⟨fun division => probing (.inl division), fun shift => probing (.inr ?_),
        fun trunc => probing (.inr (.inr trunc))⟩
      exact .inl shift
    have quiet : Quiet key.op := by
      obtain ⟨-, -, -, same | ⟨-, same⟩⟩ := prepare_key_fields prepared
      · rw [same]
        exact ⟨fun low => notDivision ((low_division known).mp low),
          fun low => notShift ((low_shift known).mp low), notTrunc⟩
      · rw [same]
        decide
    rw [buildLabel_quiet quiet] at run
    obtain ⟨-, -, rfl, -⟩ := create_some run
    have before : askedOperands op size o = [] := by
      rw [askedOperands, if_neg notDivision, if_neg notShift, ite_self]
    have after : askedTrunc s op size o = [] := if_neg fun both => notTrunc both.2
    refine ⟨[], by simp [Runtime.push, Runtime.insert], ?_⟩
    rw [before, after]
    exact List.Forall₂.nil

lemma paired {α β : Type} {R : α → β → Prop} {xs : List α} {ys : List β} {x : α}
    (pairs : List.Forall₂ R xs ys) (member : x ∈ xs) : ∃ y ∈ ys, R x y := by
  induction pairs with
  | nil => cases member
  | cons head _ ih =>
    rcases List.mem_cons.mp member with rfl | later
    · exact ⟨_, List.mem_cons_self, head⟩
    · obtain ⟨y, found, related⟩ := ih later
      exact ⟨y, List.mem_cons_of_mem _ found, related⟩

/-- Around a new record, every behaviour that does not occur on the present operands is
reported; every reported condition is true of exactly the operand values on which a behaviour of
the opcode occurs, and false of the present ones, where the sign of an operand of fewer than 64
bits is not at stake. -/
theorem undefined_probes_exact (fl : Flags) (mem : Nat → Nat) (s s' : Runtime) (op : Operator)
    (size l : Nat) (o : Operands) (on : fl.solveUb = true) (topo : Topological s)
    (h1 : Existing s o.l1) (h2 : op ≠ .load → Existing s o.l2)
    (known : ∀ code, op ≠ .other code) (fits : Fits s op size o)
    (new : WritesRecord mem s op size o)
    (run : taintUnion fl mem s op size o = some (l, s')) :
    ∃ cs, s'.conds = s.conds ++ cs ∧
      (∀ b ∈ behaviours s op size o, ¬ b.Occurs b.current → ∃ c ∈ cs, Exact s' b c) ∧
      ∀ c ∈ cs, ∃ b ∈ behaviours s op size o, Exact s' b c ∧
        ((b.signTest = true → b.bits = 64) → ¬ b.Occurs b.current) := by
  obtain ⟨cs, conds, exact⟩ := emits_of_new on topo h1 h2 known fits new run
  refine ⟨cs, conds, ?_, ?_⟩
  · intro b member absent
    have asked := (asked_sound fits b).1 ⟨member, absent⟩
    exact paired (x := (true, b)) exact (List.mem_filter.mpr ⟨asked, rfl⟩)
  intro c member
  obtain ⟨⟨_, b⟩, asked, here⟩ := paired exact.flip member
  obtain ⟨asked, rfl⟩ := List.mem_filter.mp asked
  obtain ⟨listed, absent⟩ := (asked_sound fits b).2 asked
  exact ⟨b, listed, here, absent⟩

/-- Two input bytes and the first one sign-extended. -/
def twoBytes : Runtime :=
  tableOf [⟨0, 0, 0, 0, .input, 8, 0⟩, ⟨0, 0, 1, 0, .input, 8, 0⟩, ⟨1, 0, 0, 0, .sext, 32, 0⟩] 1000

def solving : Flags := ⟨true, true, false, true⟩

theorem undefined_probes_exact_division :
    ∃ l s', taintUnion solving (fun _ => 0) twoBytes .udiv 8 ⟨1, 2, 10, 3⟩ = some (l, s') ∧
      ∃ cs, s'.conds = twoBytes.conds ++ cs ∧
        (∀ b ∈ behaviours twoBytes .udiv 8 ⟨1, 2, 10, 3⟩,
          ¬ b.Occurs b.current → ∃ c ∈ cs, Exact s' b c) ∧
        ∀ c ∈ cs, ∃ b ∈ behaviours twoBytes .udiv 8 ⟨1, 2, 10, 3⟩, Exact s' b c ∧
          ((b.signTest = true → b.bits = 64) → ¬ b.Occurs b.current) := by
  obtain ⟨⟨l, s'⟩, run⟩ := Option.isSome_iff_exists.mp
    (show (taintUnion solving (fun _ => 0) twoBytes .udiv 8 ⟨1, 2, 10, 3⟩).isSome from rfl)
  refine ⟨l, s', run, ?_⟩
  refine undefined_probes_exact solving (fun _ => 0) twoBytes s' .udiv 8 l ⟨1, 2, 10, 3⟩ rfl
    (tableOf_wellFormed (by decide) (by decide) (by decide)).toTopological
    (.inl (by decide)) (fun _ => .inl (by decide)) (nofun) ?_
    ⟨_, _, rfl, rfl⟩ run
  exact ⟨by decide, by decide, fun _ => by decide, fun wrong => by cases wrong⟩

/-- Three calls. The same division twice: the second one finds its record and reports nothing.
A left shift of one byte by the other: with 255 shifted by 1 the bits are lost, but the condition
is about the present left operand 1. A truncation of the extended byte back to eight bits is
answered by the byte, and the loss of the upper bits of -1 is not asked for. -/
theorem redundant_probe_omitted :
    ((taintUnion solving (fun _ => 0) twoBytes .udiv 8 ⟨1, 2, 10, 3⟩).map fun r =>
        r.2.conds.length) = some 1 ∧
      ((taintUnion solving (fun _ => 0) twoBytes .udiv 8 ⟨1, 2, 10, 3⟩).bind fun r =>
        (taintUnion solving (fun _ => 0) r.2 .udiv 8 ⟨1, 2, 10, 3⟩).map fun r' =>
          r'.2.conds.length) = some 1 ∧
      ((taintUnion solving (fun _ => 0) twoBytes .shl 8 ⟨1, 2, 1, 3⟩).map fun r =>
        (r.2.conds.filter fun c => c.check = .shiftOverflow).map fun c =>
          den r.2.info ⟨fun _ offset => if offset = 0 then 255 else 1, fun _ => 0⟩ c.label) =
        some [0] ∧
      ((taintUnion solving (fun _ => 0) twoBytes .trunc 8 ⟨3, 0, 7, 0⟩).map fun r =>
        (r.1, r.2.conds.length)) = some (1, 0) ∧
      den twoBytes.info ⟨fun _ _ => 255, fun _ => 0⟩ 3 ≥ 2 ^ 8 := by
  decide

end UndefinedProbes
