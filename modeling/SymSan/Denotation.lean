import SymSan.ScanTables
import SymSan.LittleEndian
import SymSan.LabelTable

/-!
# What a label means

An input assigns a byte to every offset of every input buffer. The value of a
label is computed by one scan of the table: a raw label is its input byte, a
Load label the little-endian word over consecutive bytes, and every integer
opcode acts on the values of its operands at the recorded width. Division by
zero and over-long shifts have their SMT-LIB values. Labels of other opcodes
(string conversion, memory comparison, bounds) have a value that the input
fixes and that nothing below looks into.
-/

namespace Denotation

open LabelTable

structure Input where
  byte : Nat → Nat → BitVec 8
  other : Nat → Nat

/-- A comparison yields one bit and a memory comparison an `int`; their size
fields hold the width of the compared operands and the length in bytes. -/
def width (r : LabelInfo) : Nat :=
  match r.op with
  | .icmp _ => 1
  | .fmemcmp => 32
  | _ => r.size

def compare {w : Nat} (p : Predicate) (a b : BitVec w) : Bool :=
  match p with
  | .bveq => a == b
  | .bvneq => a != b
  | .bvugt => b.ult a
  | .bvuge => b.ule a
  | .bvult => a.ult b
  | .bvule => a.ule b
  | .bvsgt => b.slt a
  | .bvsge => b.sle a
  | .bvslt => a.slt b
  | .bvsle => a.sle b
  | .other _ => false

/-- The integer opcodes: those whose value is a function of the operand values. -/
def isInteger : Operator → Bool
  | .add | .sub | .mul | .udiv | .sdiv | .urem | .srem => true
  | .shl | .lshr | .ashr | .and | .or | .xor | .not => true
  | .trunc | .zext | .sext | .extract | .concat | .icmp _ => true
  | _ => false

/-- An opcode at result width `size` on operand values `a`, of `w1` bits, and `b`.
`off` is the bit offset of an Extract; Not acts on its second operand. -/
def applyOp (op : Operator) (size w1 off a b : Nat) : Nat :=
  match op with
  | .add => (BitVec.ofNat size a + BitVec.ofNat size b).toNat
  | .sub => (BitVec.ofNat size a - BitVec.ofNat size b).toNat
  | .mul => (BitVec.ofNat size a * BitVec.ofNat size b).toNat
  | .udiv => ((BitVec.ofNat size a).smtUDiv (BitVec.ofNat size b)).toNat
  | .sdiv => ((BitVec.ofNat size a).smtSDiv (BitVec.ofNat size b)).toNat
  | .urem => (BitVec.ofNat size a % BitVec.ofNat size b).toNat
  | .srem => ((BitVec.ofNat size a).srem (BitVec.ofNat size b)).toNat
  | .shl => (BitVec.ofNat size a <<< BitVec.ofNat size b).toNat
  | .lshr => (BitVec.ofNat size a >>> BitVec.ofNat size b).toNat
  | .ashr => ((BitVec.ofNat size a).sshiftRight' (BitVec.ofNat size b)).toNat
  | .and => (BitVec.ofNat size a &&& BitVec.ofNat size b).toNat
  | .or => (BitVec.ofNat size a ||| BitVec.ofNat size b).toNat
  | .xor => (BitVec.ofNat size a ^^^ BitVec.ofNat size b).toNat
  | .not => (~~~ BitVec.ofNat size b).toNat
  | .trunc => a % 2 ^ size
  | .zext => a % 2 ^ size
  | .sext => ((BitVec.ofNat w1 a).signExtend size).toNat
  | .extract => a / 2 ^ off % 2 ^ size
  | .concat => a + b * 2 ^ w1
  | .icmp p => (compare p (BitVec.ofNat size a) (BitVec.ofNat size b)).toNat
  | _ => 0

/-- A constant operand has the width of the record, except under Concat, where
it fills what the other operand leaves. -/
def constWidth (r : LabelInfo) (other : Nat) : Nat :=
  if r.op = .concat then r.size - other else r.size

variable (look : Nat → LabelInfo)

def width1 (r : LabelInfo) : Nat :=
  if r.l1 = 0 then constWidth r (width (look r.l2)) else width (look r.l1)

def width2 (r : LabelInfo) : Nat :=
  if r.l2 = 0 then constWidth r (width (look r.l1)) else width (look r.l2)

def operand1 (val : Nat → Nat) (r : LabelInfo) : Nat :=
  if r.l1 = 0 then r.op1 % 2 ^ width1 look r else val r.l1

def operand2 (val : Nat → Nat) (r : LabelInfo) : Nat :=
  if r.l2 = 0 then r.op2 % 2 ^ width2 look r else val r.l2

lemma operands_plain (val : Nat → Nat) {r : LabelInfo} (plain : r.op ≠ .concat) :
    operand1 look val r = (if r.l1 = 0 then r.op1 % 2 ^ r.size else val r.l1) ∧
      operand2 look val r = (if r.l2 = 0 then r.op2 % 2 ^ r.size else val r.l2) := by
  have const : ∀ other, constWidth r other = r.size := fun other => if_neg plain
  constructor
  · by_cases zero : r.l1 = 0
    · simp [operand1, width1, zero, const]
    · simp [operand1, zero]
  · by_cases zero : r.l2 = 0
    · simp [operand2, width2, zero, const]
    · simp [operand2, zero]

/-- Input buffers are addressed by pairs of 32-bit numbers. -/
def inputByte (inp : Input) (id offset : Nat) : Nat :=
  (inp.byte (id % 2 ^ 32) (offset % 2 ^ 32)).toNat

variable (info : Nat → LabelInfo) (inp : Input) {l : Nat}

lemma inputByte_lt (id offset : Nat) : inputByte inp id offset < 256 :=
  (inp.byte _ _).isLt

def evalRecord (look : Nat → LabelInfo) (val : Nat → Nat) (inp : Input)
    (l : Nat) (r : LabelInfo) : Nat :=
  if r.op = .input then inputByte inp r.op2 r.op1
  else if r.op = .load then
    LittleEndian.word (fun i => inputByte inp (look r.l1).op2 ((look r.l1).op1 + i)) r.l2
  else if isInteger r.op then
    applyOp r.op r.size (width1 look r) r.op2 (operand1 look val r) (operand2 look val r)
  else inp.other l

/-- Records at or after the label being evaluated are out of sight. -/
def before (info : Nat → LabelInfo) (l : Nat) : Nat → LabelInfo :=
  fun k => if k < l then info k else zeroInfo

def denStep (info : Nat → LabelInfo) (inp : Input) (l : Nat) (val : Nat → Nat) : Nat :=
  if l = 0 then 0
  else evalRecord (before info l) val inp l (info l) % 2 ^ width (info l)

/-- The value of a label on an input. -/
def den (info : Nat → LabelInfo) (inp : Input) (l : Nat) : Nat :=
  ScanTables.value (denStep info inp) 0 l

/-- Operands come before the label; the second field of a Load is a count. -/
def Ordered (info : Nat → LabelInfo) (l : Nat) : Prop :=
  (info l).l1 < l ∧ ((info l).op ≠ .load → (info l).l2 < l)

instance (info : Nat → LabelInfo) (l : Nat) : Decidable (Ordered info l) :=
  inferInstanceAs (Decidable (_ ∧ _))

lemma den_lt (l : Nat) : den info inp l < 2 ^ width (info l) := by
  rw [den, ScanTables.value_eq, denStep]
  split
  · exact Nat.pow_pos (by decide)
  · exact Nat.mod_lt _ (Nat.pow_pos (by decide))

lemma den_congr {info info' : Nat → LabelInfo} (same : ∀ k ≤ l, info k = info' k) :
    den info inp l = den info' inp l := by
  apply ScanTables.value_congr
  intro j hj val
  have hbefore : before info j = before info' j := by
    funext k
    by_cases hk : k < j
    · simp only [before, if_pos hk]
      exact same k (by omega)
    · simp only [before, if_neg hk]
  rw [denStep, denStep, hbefore, same j hj]

lemma evalRecord_congr {look look' : Nat → LabelInfo} {val val' : Nat → Nat} (l : Nat)
    (r : LabelInfo) (h1 : look r.l1 = look' r.l1 ∧ val r.l1 = val' r.l1)
    (h2 : r.op ≠ .load → look r.l2 = look' r.l2 ∧ val r.l2 = val' r.l2) :
    evalRecord look val inp l r = evalRecord look' val' inp l r := by
  by_cases hload : r.op = .load
  · simp [evalRecord, hload, h1.1]
  · have h2 := h2 hload
    simp only [evalRecord, width1, operand1, operand2, width2, h1.1, h1.2, h2.1, h2.2]

/-- On an ordered label the scan is the recursive evaluation of its record. -/
lemma den_eq (hl : l ≠ 0) (ordered : Ordered info l) :
    den info inp l = evalRecord info (den info inp) inp l (info l) % 2 ^ width (info l) := by
  rw [den, ScanTables.value_eq, denStep, if_neg hl]
  congr 1
  apply evalRecord_congr
  · simp [before, ordered.1, den]
  · intro hload
    simp [before, ordered.2 hload, den]

end Denotation
