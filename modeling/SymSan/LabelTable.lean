import Mathlib.Algebra.Order.Ring.Nat

/-!
# The union table

Label records, opcodes and the runtime state that owns them: the label array,
the counter of the last label, the bounds labels that grow down from the end of
the array, and the hash table used to find a record again. Opcodes carry the
numbers of LLVM 14 with the self-defined ones after the last LLVM opcode; the
predicate of a comparison sits in the upper byte of its opcode. Machine integers
are natural numbers and are reduced where the source converts or wraps them;
hashes are 32-bit words. Entries of the label array that were never written are
zero, as in a fresh mapping.
-/

namespace LabelTable

/-- The label of uninitialised memory, `(dfsan_label)-1`. -/
def kInitializingLabel : Nat := 4294967295

inductive Predicate where
  | bveq | bvneq | bvugt | bvuge | bvult | bvule | bvsgt | bvsge | bvslt | bvsle
  | other (code : Nat)
  deriving DecidableEq, Repr

def Predicate.code : Predicate → Nat
  | bveq => 32 | bvneq => 33 | bvugt => 34 | bvuge => 35 | bvult => 36
  | bvule => 37 | bvsgt => 38 | bvsge => 39 | bvslt => 40 | bvsle => 41
  | other c => c

/-- `other` stands for the opcodes that no modelled function distinguishes. -/
inductive Operator where
  | input | not | neg
  | add | sub | mul | udiv | sdiv | urem | srem | shl | lshr | ashr | and | or | xor
  | alloca | load | trunc | zext | sext | ptrToInt | intToPtr | bitCast
  | icmp (p : Predicate)
  | free | extract | concat | arg | fmemcmp | fsize | fatoi
  | other (code : Nat)
  deriving DecidableEq, Repr

def Operator.code : Operator → Nat
  | input => 0 | not => 1 | neg => 2
  | add => 13 | sub => 15 | mul => 17 | udiv => 19 | sdiv => 20 | urem => 22 | srem => 23
  | shl => 25 | lshr => 26 | ashr => 27 | and => 28 | or => 29 | xor => 30
  | alloca => 31 | load => 32 | trunc => 38 | zext => 39 | sext => 40
  | ptrToInt => 47 | intToPtr => 48 | bitCast => 49
  | icmp p => p.code * 256 + 53
  | free => 70 | extract => 71 | concat => 72 | arg => 73
  | fmemcmp => 74 | fsize => 75 | fatoi => 76
  | other c => c

/-- `op & 0xff` -/
def Operator.low (op : Operator) : Nat := op.code % 256

def isIcmp : Operator → Bool
  | .icmp _ => true
  | _ => false

@[simp] lemma low_icmp (p : Predicate) : (Operator.icmp p).low = 53 := by
  simp only [Operator.low, Operator.code]
  omega

def isValidOp (op : Operator) : Bool :=
  (13 ≤ op.low && op.low < 77) || op.low = 1

/-- `is_commutative`, whose parameter is one byte. -/
def isCommutative (op : Operator) : Bool :=
  op.low ∈ [1, 28, 29, 30, 13, 17, 74]

structure LabelInfo where
  l1 : Nat
  l2 : Nat
  op1 : Nat
  op2 : Nat
  op : Operator
  size : Nat
  hash : UInt32
  deriving DecidableEq, Repr

def zeroInfo : LabelInfo := ⟨0, 0, 0, 0, .input, 0, 0⟩

/-- The record of the constant label, set up by `dfsan_init`. -/
def constInfo : LabelInfo := { zeroInfo with size := 8 }

instance : Inhabited LabelInfo := ⟨zeroInfo⟩

/-- `operator==` on records compares everything but the hash. -/
def sameKey (a b : LabelInfo) : Bool :=
  a.l1 = b.l1 && a.l2 = b.l2 && a.op = b.op && a.size = b.size && a.op1 = b.op1 && a.op2 = b.op2

lemma sameKey_iff (a b : LabelInfo) : sameKey a b = true ↔
    a.l1 = b.l1 ∧ a.l2 = b.l2 ∧ a.op = b.op ∧ a.size = b.size ∧ a.op1 = b.op1 ∧ a.op2 = b.op2 := by
  simp [sameKey, and_assoc]

/-- `__taint_trace_cond` is called with result 0 and `UndefinedCheck` by every
probe of the runtime; the label and the check are recorded. -/
inductive UndefinedCheck where
  | integerOverflow | divisionByZero | shiftExponent | shiftOverflow | shiftBase
  | indexUnderflow | indexOverflow | integerToBufferOverflow | nullPointer
  | unsignedIntegerTruncation | signedIntegerTruncation
  deriving DecidableEq, Repr

structure TraceCond where
  label : Nat
  check : UndefinedCheck
  deriving DecidableEq, Repr

/-- The runtime flags read below, and whether `assert` is compiled in. -/
structure Flags where
  solveUb : Bool
  traceBounds : Bool
  exitOnMemerror : Bool
  asserts : Bool

structure Runtime where
  info : Nat → LabelInfo
  last : Nat
  stackTop : Nat
  bucket : Nat → List Nat
  conds : List TraceCond

def rotl32 (x : UInt32) (r : UInt32) : UInt32 := (x <<< r) ||| (x >>> (32 - r))

def xxhash (h1 h2 h3 : UInt32) : UInt32 :=
  let round (h32 h : UInt32) : UInt32 := rotl32 (h32 + h * 3266489917) 17 * 668265263
  let h32 := round (round (round 374761393 h1) h2) h3
  let h32 := (h32 ^^^ (h32 >>> 15)) * 2246822519
  let h32 := (h32 ^^^ (h32 >>> 13)) * 3266489917
  h32 ^^^ (h32 >>> 16)

/-- `union_hashtable::hash` with 2^20 buckets -/
def bucketOf (key : LabelInfo) : Nat := key.hash.toNat % 2 ^ 20

namespace Runtime

/-- `union_hashtable::lookup`; an entry's key is the record its label names. -/
def lookup (s : Runtime) (key : LabelInfo) : Option Nat :=
  (s.bucket (bucketOf key)).find? (fun l => sameKey (s.info l) key)

/-- Take the next label and write its record. -/
def push (s : Runtime) (record : LabelInfo) : Runtime :=
  { s with
    info := fun l => if l = s.last + 1 then record else s.info l
    last := s.last + 1 }

/-- `union_hashtable::insert` puts the entry at the head of its bucket. -/
def insert (s : Runtime) (label : Nat) : Runtime :=
  { s with
    bucket := fun b =>
      if b = bucketOf (s.info label) then label :: s.bucket b else s.bucket b }

/-- `dfsan_check_label`: false when the process dies. -/
def checkLabel (s : Runtime) (label : Nat) : Bool :=
  label ≠ kInitializingLabel && label < s.stackTop

lemma checkLabel_lt {s : Runtime} {label : Nat} (h : s.checkLabel label = true) :
    label < s.stackTop := of_decide_eq_true (Bool.and_eq_true_iff.mp h).2

def traceCond (s : Runtime) (label : Nat) (check : UndefinedCheck) : Runtime :=
  { s with conds := s.conds ++ [⟨label, check⟩] }

variable (s : Runtime) (r : LabelInfo) (l : Nat) (c : UndefinedCheck)

@[simp] lemma push_last : (s.push r).last = s.last + 1 := rfl

@[simp] lemma push_stackTop : (s.push r).stackTop = s.stackTop := rfl

@[simp] lemma push_info_new : (s.push r).info (s.last + 1) = r := by simp [push]

lemma push_info_of_ne {l : Nat} (h : l ≠ s.last + 1) :
    (s.push r).info l = s.info l := by simp [push, h]

@[simp] lemma insert_info : (s.insert l).info = s.info := rfl

@[simp] lemma insert_last : (s.insert l).last = s.last := rfl

@[simp] lemma insert_stackTop : (s.insert l).stackTop = s.stackTop := rfl

@[simp] lemma traceCond_info : (s.traceCond l c).info = s.info := rfl

@[simp] lemma traceCond_last : (s.traceCond l c).last = s.last := rfl

lemma mem_insert_bucket {s : Runtime} {label l : Nat} {b : Nat}
    (h : l ∈ (s.insert label).bucket b) : l = label ∨ l ∈ s.bucket b := by
  by_cases hb : b = bucketOf (s.info label)
  · simp only [insert, if_pos hb, List.mem_cons] at h
    exact h
  · simp only [insert, if_neg hb] at h
    exact .inr h

end Runtime
end LabelTable
