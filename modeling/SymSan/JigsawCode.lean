import SymSan.JigsawTask
import SymSan.LittleEndian

/-!
# The compiled function of a constraint

`codegen` as an interpreter: the value that the generated code computes from an
argument array. A value of a node with a label is computed once; the node of a
label that occurs again is not expanded and takes the value from the cache. The
function of a constraint writes the two operands of its comparison, or the result
of a memory comparison, to the first two arguments.
-/

namespace JigsawCode

open RgdAst OrderedMaps JigsawTask LittleEndian

variable {args args' : Nat → Nat}

/-- Results that the languages leave undefined: over-long shifts and the overflow of
a signed division in the generated code, over-long shifts of a 64-bit word in the
search. -/
structure Machine where
  undefined : AstKind → (w : Nat) → BitVec w → BitVec w → BitVec w
  shiftRight : Nat → Nat → Nat

/-- A machine on which an undefined operation leaves its first operand. -/
def leavingMachine : Machine := ⟨fun _ _ a _ => a, fun a _ => a⟩

abbrev Value : Type := (w : Nat) × BitVec w

def retOffset : Nat := 2

/-! ## Operators -/

/-- A divisor of 0 is replaced by 1. -/
def divisor {w : Nat} (b : BitVec w) : BitVec w := if b = 0 then 1 else b

def overflows {w : Nat} (a b : BitVec w) : Bool :=
  decide (a = BitVec.intMin w ∧ b = BitVec.allOnes w)

def binary (m : Machine) (kind : AstKind) {w : Nat} (a b : BitVec w) : Option (BitVec w) :=
  match kind with
  | .add => some (a + b)
  | .sub => some (a - b)
  | .mul => some (a * b)
  | .udiv => some (a / divisor b)
  | .sdiv => some (if overflows a (divisor b) then m.undefined .sdiv w a b else a.sdiv (divisor b))
  | .urem => some (a % divisor b)
  | .srem => some (if overflows a (divisor b) then m.undefined .srem w a b else a.srem (divisor b))
  | .and => some (a &&& b)
  | .or => some (a ||| b)
  | .xor => some (a ^^^ b)
  | .shl => some (if b.toNat < w then a <<< b else m.undefined .shl w a b)
  | .lshr => some (if b.toNat < w then a >>> b else m.undefined .lshr w a b)
  | .ashr => some (if b.toNat < w then a.sshiftRight' b else m.undefined .ashr w a b)
  | _ => none

/-- Operators with one operand; `d` is the node. -/
def unary (m : Machine) (d : NodeData) (v : Value) : Option Value :=
  match d.kind with
  | .extract =>
    if d.bits ≤ v.1 then
      let shifted := if d.index < v.1 then v.2 >>> d.index
        else m.undefined .extract v.1 v.2 (BitVec.ofNat v.1 d.index)
      some ⟨d.bits, shifted.setWidth d.bits⟩
    else none
  | .zext => some ⟨d.bits, v.2.setWidth d.bits⟩
  | .sext => if v.1 ≤ d.bits then some ⟨d.bits, v.2.signExtend d.bits⟩ else none
  | .neg => some ⟨v.1, -v.2⟩
  | .not => some ⟨v.1, ~~~v.2⟩
  | _ => none

/-- The widths of the result are those of the nodes, not of the values. -/
def concat (bits1 bits2 : Nat) (a b : Value) : Option Value :=
  if a.1 ≤ bits1 + bits2 ∧ b.1 ≤ bits1 + bits2 then
    some ⟨bits1 + bits2, b.2.setWidth (bits1 + bits2) <<< bits1 ||| a.2.setWidth (bits1 + bits2)⟩
  else none

/-! ## Arguments -/

/-- The first `n` words of a constant. -/
def loadWords (args : Nat → Nat) (start : Nat) : Nat → Nat
  | 0 => 0
  | n + 1 => loadWords args start n + args (start + n) * 2 ^ (64 * n)

/-- A multi-byte read is the sum of its bytes up to byte `k`, shifted into place. -/
def readBytes (args : Nat → Nat) (start bits : Nat) : Nat → BitVec bits
  | 0 => BitVec.ofNat bits (args start)
  | k + 1 =>
    readBytes args start bits k + BitVec.ofNat bits (args (start + (k + 1))) <<< (8 * (k + 1))

lemma readBytes_eq (args : Nat → Nat) (start bits k : Nat) :
    readBytes args start bits k = BitVec.ofNat bits (word (fun j => args (start + j)) (k + 1)) := by
  induction k with
  | zero =>
    rw [word_one]
    rfl
  | succ k ih =>
    rw [readBytes, ih, word_succ _ (k + 1), ← two_pow_mul_eight]
    apply BitVec.eq_of_toNat_eq
    simp [Nat.shiftLeft_eq]

def nullary (localMap : OrderedMap Nat) (args : Nat → Nat) (d : NodeData) : Option Value :=
  match d.kind with
  | .bool => some ⟨1, BitVec.ofBool (d.boolvalue != 0)⟩
  | .constant =>
    some ⟨d.bits, BitVec.ofNat d.bits (loadWords args (d.index + retOffset) ((d.bits + 63) / 64))⟩
  | .read =>
    (localMap.find d.index).map fun start =>
      ⟨d.bits, readBytes args (start + retOffset) d.bits (d.bits / 8 - 1)⟩
  | _ => none

/-! ## Code generation -/

abbrev ValueCache : Type := Nat → Option Value

inductive Arity where
  | zero | one | two
  deriving DecidableEq, Repr

def arity : AstKind → Option Arity
  | .bool | .constant | .read => some .zero
  | .extract | .zext | .sext | .neg | .not => some .one
  | .concat | .add | .sub | .mul | .udiv | .sdiv | .urem | .srem => some .two
  | .and | .or | .xor | .shl | .lshr | .ashr => some .two
  | _ => none

/-- A child that does not exist is the dummy node, a false constant. -/
def dummyValue : Value := ⟨1, 0⟩

/-- The node of an operator with two operands, whose nodes have `bits1` and `bits2`. -/
def combine (m : Machine) (d : NodeData) (bits1 bits2 : Nat) (a b : Value) : Option Value :=
  if d.kind = .concat then concat bits1 bits2 a b
  else if same : b.1 = a.1 then
    (binary m d.kind a.2 (b.2.cast same)).map fun v => ⟨a.1, v⟩
  else none

/-- The value of a label that has one is taken from the cache. -/
def cached (d : NodeData) (cache : ValueCache)
    (make : Option (Value × ValueCache)) : Option (Value × ValueCache) :=
  match if d.label = 0 then none else cache d.label with
  | some v => some (v, cache)
  | none =>
    make.map fun (v, cache) =>
      (v, if d.label = 0 then cache
        else Function.update cache d.label ((cache d.label).or (some v)))

def codegen (m : Machine) (localMap : OrderedMap Nat) (args : Nat → Nat) :
    AstNode → ValueCache → Option (Value × ValueCache)
  | .leaf d, cache =>
    cached d cache <|
      match arity d.kind with
      | some .zero => (nullary localMap args d).map (·, cache)
      | some .one => (unary m d dummyValue).map (·, cache)
      | some .two => (combine m d 0 0 dummyValue dummyValue).map (·, cache)
      | none => none
  | .node1 d a, cache =>
    cached d cache <|
      match arity d.kind with
      | some .zero => (nullary localMap args d).map (·, cache)
      | some .one =>
        (codegen m localMap args a cache).bind fun (x, cache) => (unary m d x).map (·, cache)
      | some .two =>
        (codegen m localMap args a cache).bind fun (x, cache) =>
        (combine m d a.data.bits 0 x dummyValue).map (·, cache)
      | none => none
  | .node2 d a b, cache =>
    cached d cache <|
      match arity d.kind with
      | some .zero => (nullary localMap args d).map (·, cache)
      | some .one =>
        (codegen m localMap args a cache).bind fun (x, cache) => (unary m d x).map (·, cache)
      | some .two =>
        (codegen m localMap args a cache).bind fun (x, cache) =>
        (codegen m localMap args b cache).bind fun (y, cache) =>
        (combine m d a.data.bits b.data.bits x y).map (·, cache)
      | none => none

/-- The two operands of the comparison at the root. -/
def operands (m : Machine) (c : Constraint) (args : Nat → Nat) : Option (Value × Value) :=
  (codegen m c.args.localMap args (c.ast.child 0) fun _ => none).bind fun (x, cache) =>
  (codegen m c.args.localMap args (c.ast.child 1) cache).map fun (y, _) => (x, y)

/-- What the function writes: both operands in 64 bits, or whether the buffers are
equal. -/
def outcome (kind : AstKind) (x y : Value) (args : Nat → Nat) : Option (Nat → Nat) :=
  if isRelationalKind kind then
    if x.1 ≤ 64 ∧ y.1 ≤ 64 then
      some (Function.update (Function.update args 0 x.2.toNat) 1 y.2.toNat)
    else none
  else if isMemcmpKind kind then
    if x.1 = y.1 then some (Function.update args 0 (decide (x = y)).toNat) else none
  else none

/-- The compiled function; a constraint that does not compile is refused before any
search. -/
def fn (m : Machine) (c : Constraint) (args : Nat → Nat) : Nat → Nat :=
  ((operands m c args).bind fun (x, y) => outcome c.ast.kind x y args).getD args

/-! ## What a function depends on -/

def allData : AstNode → List NodeData
  | .leaf d => [d]
  | .node1 d a => d :: allData a
  | .node2 d a b => d :: (allData a ++ allData b)

/-- Two argument arrays give the same value to the nodes without operands. -/
def SameLeaves (localMap : OrderedMap Nat) (args args' : Nat → Nat) (t : AstNode) : Prop :=
  ∀ d, d ∈ allData t → nullary localMap args d = nullary localMap args' d

variable {m : Machine} {localMap : OrderedMap Nat} {t : AstNode} {c : Constraint}

lemma codegen_congr (same : SameLeaves localMap args args' t) (cache : ValueCache) :
    codegen m localMap args t cache = codegen m localMap args' t cache := by
  induction t generalizing cache with
  | leaf d =>
    have here := same d (List.mem_singleton.mpr rfl)
    simp only [codegen, here]
  | node1 d a ih =>
    have here := same d List.mem_cons_self
    have below := ih fun x inside => same x (List.mem_cons_of_mem _ inside)
    simp only [codegen, here, below]
  | node2 d a b ihA ihB =>
    have here := same d List.mem_cons_self
    have left := ihA fun x inside => same x (List.mem_cons_of_mem _ (List.mem_append_left _ inside))
    have right := ihB fun x inside =>
      same x (List.mem_cons_of_mem _ (List.mem_append_right _ inside))
    simp only [codegen, here, left, right]

/-- A child that does not exist adds a node that does not depend on the arguments. -/
lemma SameLeaves.child (same : SameLeaves localMap args args' t) (i : Nat) :
    SameLeaves localMap args args' (t.child i) := by
  have dummy : SameLeaves localMap args args' .fresh := by
    intro d inside
    rw [List.mem_singleton.mp inside]
    rfl
  cases t with
  | leaf d => exact dummy
  | node1 d a =>
    by_cases zero : i = 0
    · simp only [zero]
      exact fun x inside => same x (List.mem_cons_of_mem _ inside)
    · simp only [AstNode.child, zero]
      exact dummy
  | node2 d a b =>
    by_cases zero : i = 0
    · simp only [zero]
      exact fun x inside => same x (List.mem_cons_of_mem _ (List.mem_append_left _ inside))
    · simp only [AstNode.child, zero]
      exact fun x inside => same x (List.mem_cons_of_mem _ (List.mem_append_right _ inside))

/-- Code is generated for the constraint. -/
def Compiles (m : Machine) (c : Constraint) : Prop :=
  ∀ args, ((operands m c args).bind fun (x, y) => outcome c.ast.kind x y args).isSome = true

/-- The first result, and for a comparison also the second, depends on the leaves only. -/
lemma fn_congr (compiles : Compiles m c) (same : SameLeaves c.args.localMap args args' c.ast) :
    fn m c args 0 = fn m c args' 0 ∧
      (isRelationalKind c.ast.kind = true → fn m c args 1 = fn m c args' 1) := by
  have here := compiles args
  have there := compiles args'
  have equal : operands m c args = operands m c args' := by
    simp only [operands, codegen_congr (same.child 0), codegen_congr (same.child 1)]
  simp only [fn, equal] at here ⊢
  cases value : operands m c args' with
  | none =>
    rw [value] at there
    cases there
  | some made =>
    obtain ⟨x, y⟩ := made
    rw [value] at here there
    simp only [outcome] at here there ⊢
    by_cases relational : isRelationalKind c.ast.kind = true
    · by_cases narrow : x.1 ≤ 64 ∧ y.1 ≤ 64
      · simp [relational, narrow]
      · simp [relational, narrow] at here
    by_cases memory : isMemcmpKind c.ast.kind = true
    · by_cases widths : x.1 = y.1
      · simp [relational, memory, widths]
      · simp [relational, widths] at here
    · simp [relational, memory] at here

end JigsawCode
