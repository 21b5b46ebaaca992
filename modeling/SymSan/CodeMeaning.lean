import SymSan.FirstUses
import SymSan.JigsawCode
import SymSan.OperandMeaning
import SymSan.TableGrowth

/-!
# The compiled function computes the operands

The code generated for a drawn comparison leaves the values of its two operands in the
first two arguments. A read is loaded from consecutive arguments, starting at the
argument of its first byte, while `map_arg` hands out arguments byte by byte, in the
order of first use; a read is loaded from the arguments of its bytes just if they follow
one another in that order.
-/

namespace CodeMeaning

open LabelTable Denotation TypedLabels BitTerms LittleEndian OrderedMaps RgdAst JigsawTask
open UtaRel DrawnTrees FirstUses OperandMeaning JigsawCode
open BitVec (toNat_ofNat toNat_setWidth)

variable {arith : Arith} {k l w : Nat} {op : Operator}

/-- `k` is reached from `l` by following the operands of nodes; a Load is not expanded. -/
inductive Below (info : Nat → LabelInfo) : Nat → Nat → Prop where
  | self {l : Nat} : Below info l l
  | first {l k : Nat} (notLoad : (info l).op ≠ .load) (symbolic : (info l).l1 ≠ 0)
      (rest : Below info (info l).l1 k) : Below info l k
  | second {l k : Nat} (notLoad : (info l).op ≠ .load) (symbolic : (info l).l2 ≠ 0)
      (rest : Below info (info l).l2 k) : Below info l k

variable {b : BitVec w} {info : Nat → LabelInfo} {r : LabelInfo} {kind : AstKind} {t : AstNode}

/-- A set of labels that is closed under the operands of nodes. -/
lemma Below.mem (below : Below info l k) (labels : List Nat) (root : l ∈ labels)
    (closed : ∀ j ∈ labels, (info j).op ≠ .load → ((info j).l1 ≠ 0 →
      (info j).l1 ∈ labels) ∧ ((info j).l2 ≠ 0 → (info j).l2 ∈ labels)) : k ∈ labels := by
  induction below with
  | self => exact root
  | first notLoad symbolic rest ih => exact ih ((closed _ root notLoad).1 symbolic)
  | second notLoad symbolic rest ih => exact ih ((closed _ root notLoad).2 symbolic)

lemma Below.inDag (below : Below info l k) : InDag info l k := by
  induction below with
  | self => exact .self
  | first notLoad symbolic rest ih => exact .first symbolic ih
  | second notLoad symbolic rest ih => exact .second symbolic notLoad ih

/-! ## Values of operators -/

def valueOf (w n : Nat) : Value := ⟨w, BitVec.ofNat w n⟩

lemma eq_valueOf {v : Value} {n : Nat} (wide : v.1 = w) (num : v.2.toNat = n % 2 ^ w) :
    v = valueOf w n := by
  cases wide
  rw [valueOf, Sigma.mk.injEq]
  refine ⟨rfl, heq_of_eq (BitVec.eq_of_toNat_eq ?_)⟩
  rw [num, toNat_ofNat]

lemma toNat_valueOf (w n : Nat) : (valueOf w n).2.toNat = n % 2 ^ w := toNat_ofNat n w

section Casts

variable {d : NodeData} {w n : Nat} (m : Machine)

lemma unary_extract (kind : d.kind = .extract) (lt : n < 2 ^ w) (range : d.index + d.bits ≤ w) :
    unary m d (valueOf w n) = some (valueOf d.bits (n / 2 ^ d.index)) := by
  have le : d.bits ≤ (valueOf w n).1 := by
    change d.bits ≤ w
    omega
  simp only [unary, kind, if_pos le]
  refine congrArg some (eq_valueOf rfl ?_)
  by_cases inside : d.index < (valueOf w n).1
  · rw [if_pos inside, toNat_setWidth, BitVec.toNat_ushiftRight, toNat_valueOf,
      Nat.mod_eq_of_lt lt, Nat.shiftRight_eq_div_pow]
  have zero : d.bits = 0 := by
    change ¬ d.index < w at inside
    omega
  rw [toNat_setWidth]
  rw [zero, Nat.pow_zero, Nat.mod_one, Nat.mod_one]

lemma unary_zext (kind : d.kind = .zext) (lt : n < 2 ^ w) :
    unary m d (valueOf w n) = some (valueOf d.bits n) := by
  simp only [unary, kind]
  refine congrArg some (eq_valueOf rfl ?_)
  rw [toNat_setWidth, toNat_valueOf, Nat.mod_eq_of_lt lt]

lemma unary_sext (kind : d.kind = .sext) (le : w ≤ d.bits) :
    unary m d (valueOf w n) =
      some (valueOf d.bits ((BitVec.ofNat w n).signExtend d.bits).toNat) := by
  have narrower : (valueOf w n).1 ≤ d.bits := le
  simp only [unary, kind, if_pos narrower]
  exact congrArg some (eq_valueOf rfl (Nat.mod_eq_of_lt (BitVec.isLt _)).symm)

end Casts

def isDivision : Operator → Bool
  | .udiv | .sdiv | .urem | .srem => true
  | _ => false

def isSignedDivision : Operator → Bool
  | .sdiv | .srem => true
  | _ => false

def isShift : Operator → Bool
  | .shl | .lshr | .ashr => true
  | _ => false

lemma divisor_of_ne (ne : b ≠ 0) : divisor b = b := if_neg ne

lemma smtUDiv_of_ne (a : BitVec w) (ne : b ≠ 0) : a.smtUDiv b = a.udiv b := if_neg ne

lemma smtSDiv_of_ne (a : BitVec w) (ne : b ≠ 0) : a.smtSDiv b = a.sdiv b := by
  have neg : -b ≠ 0 := fun zero => ne (BitVec.neg_eq_zero_iff.mp zero)
  rw [BitVec.smtSDiv_eq, BitVec.sdiv_eq]
  cases a.msb <;> cases b.msb <;> simp only [smtUDiv_of_ne _ ne, smtUDiv_of_ne _ neg]

lemma binary_arith (m : Machine) (mapped : opMap op = some kind) (meant : arithOf op = some arith)
    (a b : BitVec w) (division : isDivision op = true → b ≠ 0)
    (shift : isShift op = true → b.toNat < w)
    (signed : isSignedDivision op = true → overflows a b = false) :
    binary m kind a b = some (arith.eval a b) := by
  cases op with
  | udiv =>
    cases mapped
    cases meant
    have ne := division rfl
    simp [binary, Arith.eval, divisor_of_ne ne, smtUDiv_of_ne a ne]
  | sdiv =>
    cases mapped
    cases meant
    have ne := division rfl
    simp [binary, Arith.eval, divisor_of_ne ne, signed rfl, smtSDiv_of_ne a ne]
  | urem =>
    cases mapped
    cases meant
    simp only [binary, Arith.eval, divisor_of_ne (division rfl)]
  | srem =>
    cases mapped
    cases meant
    simp [binary, Arith.eval, divisor_of_ne (division rfl), signed rfl]
  | shl | lshr | ashr =>
    cases mapped
    cases meant
    simp only [binary, Arith.eval, if_pos (shift rfl)]
  | add | sub | mul | and | or | xor =>
    cases mapped
    cases meant
    rfl
  | _ => cases meant

lemma arithOf_kind (mapped : opMap op = some kind) (meant : arithOf op = some arith) :
    kind ≠ .concat := by
  cases op <;> cases meant <;> cases mapped <;> nofun

lemma combine_arith (m : Machine) {d : NodeData} {x y : Nat} (mapped : opMap op = some d.kind)
    (meant : arithOf op = some arith) (bits1 bits2 : Nat)
    (made : binary m d.kind (BitVec.ofNat w x) (BitVec.ofNat w y) =
      some (arith.eval (BitVec.ofNat w x) (BitVec.ofNat w y))) :
    combine m d bits1 bits2 (valueOf w x) (valueOf w y) =
      some (valueOf w (arith.eval (BitVec.ofNat w x) (BitVec.ofNat w y)).toNat) := by
  simp only [combine, if_neg (arithOf_kind mapped meant), valueOf, dite_true, BitVec.cast_eq, made,
    Option.map_some, BitVec.ofNat_toNat, BitVec.setWidth_eq]

lemma concat_valueOf {w1 w2 n1 n2 : Nat} (lt1 : n1 < 2 ^ w1) (lt2 : n2 < 2 ^ w2) :
    concat w1 w2 (valueOf w1 n1) (valueOf w2 n2) = some (valueOf (w1 + w2) (n1 + n2 * 2 ^ w1)) := by
  have shifted : n2 * 2 ^ w1 < 2 ^ (w1 + w2) := by
    rw [Nat.add_comm, Nat.pow_add]
    exact Nat.mul_lt_mul_of_pos_right lt2 (Nat.pow_pos (by decide))
  have small1 : n1 < 2 ^ (w1 + w2) :=
    Nat.lt_of_lt_of_le lt1 (Nat.pow_le_pow_right (by decide) (by omega))
  have small2 : n2 < 2 ^ (w1 + w2) :=
    Nat.lt_of_lt_of_le lt2 (Nat.pow_le_pow_right (by decide) (by omega))
  have disjoint := Nat.shiftLeft_add_eq_or_of_lt lt1 n2
  have both : n1 + n2 * 2 ^ w1 < 2 ^ (w1 + w2) := by
    rw [Nat.pow_add, Nat.mul_comm (2 ^ w1)]
    calc n1 + n2 * 2 ^ w1 < (n2 + 1) * 2 ^ w1 := by
          rw [Nat.succ_mul]
          omega
      _ ≤ 2 ^ w2 * 2 ^ w1 := Nat.mul_le_mul_right _ lt2
  rw [concat, if_pos ⟨Nat.le_add_right w1 w2, Nat.le_add_left w2 w1⟩]
  refine congrArg some (eq_valueOf rfl ?_)
  simp only [valueOf, BitVec.toNat_or, BitVec.toNat_shiftLeft, toNat_setWidth, toNat_ofNat]
  rw [Nat.mod_eq_of_lt lt1, Nat.mod_eq_of_lt lt2, Nat.mod_eq_of_lt small1,
    Nat.mod_eq_of_lt small2, Nat.mod_eq_of_lt both, Nat.shiftLeft_eq, Nat.mod_eq_of_lt shifted,
    ← Nat.shiftLeft_eq, ← disjoint, Nat.add_comm]

/-! ## Labels -/

/-- The divisor of a division is not 0, and a shift stays below the width. -/
def Defined (info : Nat → LabelInfo) (inp : Input) (r : LabelInfo) : Prop :=
  (isDivision r.op = true → operand2 info (den info inp) r ≠ 0) ∧
    (isShift r.op = true → operand2 info (den info inp) r < r.size)

/-- A signed division does not divide the least number by -1. -/
def NoOverflow (info : Nat → LabelInfo) (inp : Input) (r : LabelInfo) : Prop :=
  isSignedDivision r.op = true →
    overflows (BitVec.ofNat r.size (operand1 info (den info inp) r))
      (BitVec.ofNat r.size (operand2 info (den info inp) r)) = false

instance (info : Nat → LabelInfo) (inp : Input) (r : LabelInfo) : Decidable (Defined info inp r) :=
  inferInstanceAs (Decidable (_ ∧ _))

instance (info : Nat → LabelInfo) (inp : Input) (r : LabelInfo) :
    Decidable (NoOverflow info inp r) :=
  inferInstanceAs (Decidable (_ → _))

/-- The bytes of a read have consecutive arguments. -/
def Consecutive (info : Nat → LabelInfo) (a : ArgMap) (l : Nat) : Prop :=
  (info l).op = .input ∨ (info l).op = .load →
    ∃ start, ∀ k, k < (readOf info l).2.2 →
      a.localMap.find ((readOf info l).2.1 + k) = some (start + k)

structure Ready (info : Nat → LabelInfo) (inp : Input) (a : ArgMap) (l : Nat) : Prop where
  defined : Defined info inp (info l)
  noOverflow : NoOverflow info inp (info l)
  consecutive : Consecutive info a l

def Operand.Reaches (info : Nat → LabelInfo) : Operand → Nat → Prop
  | .label l, k => Below info l k
  | .constant _ _, _ => False

/-- The array holds the bytes of the input and the constants. -/
structure Holds (id : Nat) (inp : Input) (a : ArgMap) (args : Nat → Nat) : Prop where
  byte : ∀ x i, a.localMap.find x = some i → args (i + retOffset) = (inp.byte id x).toNat
  constant : ∀ (j : Nat) v, a.inputArgs[j]? = some (false, v) → args (j + retOffset) = v

def IsValue (info : Nat → LabelInfo) (inp : Input) (l : Nat) (x : Value) : Prop :=
  x = valueOf (width (info l)) (den info inp l)

section Code

variable {info : Nat → LabelInfo} {mark : Nat → Nat} {id l : Nat} {a : ArgMap} {v : List Nat}
  {cache : ValueCache} {d : NodeData} {inp : Input} {args : Nat → Nat} {m : Machine} {v' : List Nat}

lemma operandOf_reaches {side label const other : Nat}
    (reach : Operand.Reaches info (operandOf info r (mark l) side label const other) k) :
    label ≠ 0 ∧ Below info label k := by
  rw [operandOf] at reach
  split at reach
  next symbolic =>
    exact ⟨symbolic.2, reach⟩
  · cases reach

lemma first_reaches (notLoad : (info l).op ≠ .load)
    (reach : Operand.Reaches info (first info mark l) k) : Below info l k := by
  obtain ⟨symbolic, rest⟩ := operandOf_reaches reach
  exact .first notLoad symbolic rest

lemma second_reaches (notLoad : (info l).op ≠ .load)
    (reach : Operand.Reaches info (second info mark l) k) : Below info l k := by
  obtain ⟨symbolic, rest⟩ := operandOf_reaches reach
  exact .second notLoad symbolic rest

lemma cached_fresh {make : Option (Value × ValueCache)} {cache1 : ValueCache}
    (kept : Kept (IsValue info inp) v cache) (fresh : l ∉ v) (ne : l ≠ 0) (label : d.label = l)
    (made : make = some (valueOf (width (info l)) (den info inp l), cache1))
    (kept1 : Kept (IsValue info inp) v' cache1) :
    ∃ cache', cached d cache make = some (valueOf (width (info l)) (den info inp l), cache') ∧
      Kept (IsValue info inp) (l :: v') cache' := by
  refine ⟨_, ?_, kept1.add rfl⟩
  simp [cached, label, if_neg ne, kept.none_of_fresh fresh, made]

/-! ## Leaves -/

lemma nullary_constant {value bits j : Nat} (holds : Holds id inp a args)
    (narrow : bits ≤ 64 ∧ value < 2 ^ bits) (small : a.inputArgs.length ≤ 2 ^ 30)
    (kind : d.kind = .constant) (width : d.bits = bits % 2 ^ 16) (index : d.index = j % 2 ^ 30)
    (arg : a.inputArgs[j]? = some (false, value)) :
    nullary a.localMap args d = some (valueOf bits (value % 2 ^ bits)) := by
  have inside := (List.getElem?_eq_some_iff.mp arg).1
  have same : d.index = j := by omega
  have wide : d.bits = bits := by omega
  simp only [nullary, kind, same]
  refine congrArg some (eq_valueOf wide ?_)
  rw [toNat_ofNat, Nat.mod_mod, wide]
  by_cases zero : bits = 0
  · rw [zero, Nat.pow_zero, Nat.mod_one, Nat.mod_one]
  · have one : (bits + 63) / 64 = 1 := by omega
    have word : loadWords args (j + retOffset) 1 = value := by
      simp [loadWords, holds.constant j value arg]
    rw [one, word]

lemma nullary_read (plain : Plain info mark id l) (holds : Holds id inp a args)
    (op : (info l).op = .input ∨ (info l).op = .load) (ready : Consecutive info a l)
    (kind : d.kind = .read) (bits : d.bits = (readOf info l).2.2 * 8 % 2 ^ 16)
    (index : d.index = (readOf info l).2.1 % 2 ^ 30) :
    nullary a.localMap args d = some (valueOf (width (info l)) (den info inp l)) := by
  obtain ⟨positive, size, value⟩ := den_read plain op
  obtain ⟨-, _⟩ := plain.oneInput l .self op
  have narrow := plain.narrow l .self
  obtain ⟨start, found⟩ := ready op
  have offset : d.index = (readOf info l).2.1 := by omega
  have wide : d.bits = (info l).size := by omega
  have length : (info l).size / 8 - 1 + 1 = (readOf info l).2.2 := by omega
  have here := found 0 positive
  rw [Nat.add_zero, Nat.add_zero] at here
  have bytes : word (fun j => args (start + retOffset + j)) (readOf info l).2.2 =
      den info inp l := by
    rw [value]
    refine word_congr fun k lt => ?_
    rw [Nat.add_right_comm]
    exact holds.byte _ _ (found k lt)
  simp only [nullary, kind, offset, here, Option.map_some]
  refine congrArg some (eq_valueOf (wide.trans plain.width_eq.symm) ?_)
  rw [readBytes_eq, toNat_ofNat, wide, length, bytes, plain.width_eq]

/-! ## Operators -/

lemma unary_value (m : Machine) (plain : Plain info mark id l) (cast : isUnary (info l).op = true)
    (plain1 : Plain info mark id (info l).l1) (stamped : Stamped info l d)
    (index : d.index = (if (info l).op = .extract then (info l).op2 else 0) % 2 ^ 30)
    (inp : Input) :
    unary m d (valueOf (width (info (info l).l1)) (den info inp (info l).l1)) =
      some (valueOf (width (info l)) (den info inp l)) := by
  obtain ⟨bits, _, casts⟩ := cast_cases plain cast plain1 stamped index
  have small := den_lt info inp (info l).l1
  rw [plain.width_eq]
  rcases casts with ⟨op, kind⟩ | ⟨op, kind⟩ | ⟨op, kind, low⟩
  · rw [unary_zext m kind small, bits, (den_zext plain op).2]
  · obtain ⟨_, value⟩ := den_sext plain op
    rw [unary_sext m kind (by omega), bits, value]
  · obtain ⟨_, value⟩ := den_extract plain op
    rw [unary_extract m kind small (by omega), bits, low, value]
    exact congrArg some (eq_valueOf rfl (by rw [toNat_valueOf, Nat.mod_mod]))

def Operand.code (info : Nat → LabelInfo) (inp : Input) (o : Operand) : Value :=
  valueOf (Operand.width info o) (Operand.value info inp o)

lemma binary_value (m : Machine) (plain : Plain info mark id l)
    (twoOperands : isUnary (info l).op = false) (stamped : Stamped info l d)
    (defined : Defined info inp (info l)) (noOverflow : NoOverflow info inp (info l)) :
    combine m d (Operand.width info (first info mark l)) (Operand.width info (second info mark l))
        (Operand.code info inp (first info mark l)) (Operand.code info inp (second info mark l)) =
      some (valueOf (width (info l)) (den info inp l)) := by
  have lt1 := Operand.value_lt info inp (first info mark l)
  have lt2 := Operand.value_lt info inp (second info mark l)
  rw [plain.width_eq]
  rcases concat_or_arith stamped.kind twoOperands (plain.noCompare l .self) with
    ⟨op, kind⟩ | ⟨arith, op⟩
  · obtain ⟨_, _, sum, pair, value⟩ := den_concat plain op
    rw [pair.width1] at lt1
    rw [pair.width2] at lt2
    simp only [combine, kind, if_true, Operand.code, pair.width1, pair.width2]
    rw [concat_valueOf lt1 lt2, value, sum]
  · obtain ⟨pair, value⟩ := den_arith plain op
    rw [pair.width2] at lt2
    have num2 := Nat.mod_eq_of_lt lt2
    have made := binary_arith m stamped.kind op
      (BitVec.ofNat (info l).size (Operand.value info inp (first info mark l)))
      (BitVec.ofNat (info l).size (Operand.value info inp (second info mark l))) ?_ ?_ ?_
    · simp only [Operand.code, pair.width1, pair.width2]
      rw [combine_arith m stamped.kind op _ _ made, value]
    · intro division zero
      have ne := defined.1 division
      have toNat := congrArg BitVec.toNat zero
      rw [toNat_ofNat, num2] at toNat
      rw [pair.value2] at ne
      exact ne toNat
    · intro shift
      have lt := defined.2 shift
      rw [pair.value2] at lt
      rw [toNat_ofNat, num2]
      exact lt
    · intro signed
      have safe := noOverflow signed
      rw [pair.value1, pair.value2] at safe
      exact safe

/-! ## Trees -/

lemma arity_unary (mapped : opMap op = some kind) (cast : isUnary op = true) :
    arity kind = some .one := by
  cases op <;> cases cast <;> cases mapped <;> rfl

lemma arity_binary (mapped : opMap op = some kind) (twoOperands : isUnary op = false)
    (noCompare : isIcmp op = false) :
    arity kind = some .two := by
  rcases concat_or_arith mapped twoOperands noCompare with ⟨-, rfl⟩ | ⟨arith, meant⟩
  · rfl
  · cases op <;> cases meant <;> cases mapped <;> rfl

/-- Code generation succeeds on a drawn tree and the code computes its operand. -/
lemma codegen_value (m : Machine) {o : Operand} (drawn : Drawn info mark a v o t v')
    (small : a.inputArgs.length ≤ 2 ^ 30) (sane : Sane info mark id o) (holds : Holds id inp a args)
    (ready : ∀ k, Operand.Reaches info o k → Ready info inp a k)
    (kept : Kept (IsValue info inp) v cache) :
    ∃ cache', codegen m a.localMap args t cache = some (Operand.code info inp o, cache') ∧
      Kept (IsValue info inp) (o.after v') cache' := by
  induction drawn generalizing cache with
  | constant kind width label arg =>
    obtain ⟨j, index, found⟩ := arg
    have made := nullary_constant holds sane small kind width index found
    refine ⟨cache, ?_, kept⟩
    simp only [codegen, cached, label, kind, made]
    rfl
  | @again v l seen =>
    obtain ⟨x, found⟩ := (kept.drawn l).mp seen
    have ne : l ≠ 0 := sane.typed.root.1
    refine ⟨cache, ?_, kept.again seen⟩
    have label : (visitedNode l (info l).size).data.label = l := rfl
    simp only [visitedNode, AstNode.data] at label ⊢
    rw [codegen, cached, label, if_neg ne, found, kept.right l x found]
    rfl
  | @read v l d fresh op kind bits label index =>
    have made := nullary_read sane holds op (ready l .self).consecutive kind bits index
    exact cached_fresh kept fresh sane.typed.root.1 label (by simp [arity, kind, made]) kept
  | @unary v v' l d t fresh op stamped index child ih =>
    obtain ⟨ne, same, plain1⟩ := cast_first sane (isCast_of_isUnary op)
    have notLoad : (info l).op ≠ .load := by
      intro load
      rw [load] at op
      cases op
    rw [same] at ih child ⊢
    obtain ⟨_, made1, kept1⟩ :=
      ih plain1 (fun k reach => ready k (.first notLoad ne reach)) kept
    have made := unary_value m sane op plain1 stamped index inp
    refine cached_fresh kept fresh sane.typed.root.1 stamped.label ?_ kept1
    simp only [arity_unary stamped.kind op, made1]
    exact congrArg (Option.map _) made
  | @binary v v1 v2 l d t1 t2 fresh op stamped left right ih1 ih2 =>
    obtain ⟨sane1, sane2⟩ := sane.operands stamped.kind op
    have notLoad : (info l).op ≠ .load := by
      intro load
      have kind := stamped.kind
      rw [load] at kind
      cases kind
    obtain ⟨_, made1, kept1⟩ :=
      ih1 sane1 (fun k reach => ready k (first_reaches notLoad reach)) kept
    obtain ⟨_, made2, kept2⟩ :=
      ih2 sane2 (fun k reach => ready k (second_reaches notLoad reach)) kept1
    have here := ready l .self
    have made := binary_value m sane op stamped here.defined here.noOverflow
    refine cached_fresh kept fresh sane.typed.root.1 stamped.label ?_ kept2
    simp [arity_binary stamped.kind op (sane.noCompare l .self), made1, made2,
      drawn_bits left sane1, drawn_bits right sane2, made]

end Code

/-! ## Comparisons -/

/-- In the order of first use, the bytes of every read follow one another. -/
def AdjacentReads (info : Nat → LabelInfo) (mark : Nat → Nat) (l : Nat) : Prop :=
  ∀ k, Below info l k → (info k).op = .input ∨ (info k).op = .load →
    ∃ start, ∀ i, i < (readOf info k).2.2 →
      (firstUses info mark l)[start + i]? = some (.byte ((readOf info k).2.1 + i))

/-- Every read of a comparison is loaded from the arguments of its bytes just if they follow
one another in the order of first use; then the compiled function writes the values of the
operands. -/
theorem fn_operands (ctx : Context) (astSize : List Nat) (fuel l id : Nat) (q : Predicate)
    (cmp : Compares ctx.parser.info q l) (one : OneBuffer ctx.parser.info ctx.concretize id l)
    (sized : ∀ size, astSize[l]? = some size → size ≤ 2 ^ 27) (c : Constraint)
    (parsed : parseConstraint ctx astSize fuel l = some c) :
    (AdjacentReads ctx.parser.info ctx.concretize l ↔
      ∀ k, Below ctx.parser.info l k → Consecutive ctx.parser.info c.args k) ∧
    (AdjacentReads ctx.parser.info ctx.concretize l → ∀ inp,
      (∀ k, InDag ctx.parser.info l k → Defined ctx.parser.info inp (ctx.parser.info k)) →
      (∀ k, InDag ctx.parser.info l k → NoOverflow ctx.parser.info inp (ctx.parser.info k)) →
      ∀ args, Holds id inp c.args args → ∀ m,
        ∃ out, ((operands m c args).bind fun (x, y) => outcome c.ast.kind x y args) = some out ∧
          out 0 = operand1 ctx.parser.info (den ctx.parser.info inp) (ctx.parser.info l) ∧
          out 1 = operand2 ctx.parser.info (den ctx.parser.info inp) (ctx.parser.info l)) := by
  have numbers := parseConstraint_numbers cmp.typed parsed
  have exact_ : AdjacentReads ctx.parser.info ctx.concretize l ↔
      ∀ k, Below ctx.parser.info l k → Consecutive ctx.parser.info c.args k := by
    simp only [AdjacentReads, Consecutive, numbers.byte]
  refine ⟨exact_, fun adjacent inp defined noOverflow args holds m => ?_⟩
  obtain ⟨v, size, tree, known, _⟩ := parseConstraint_draws cmp.typed cmp.narrow parsed
  have le := sized size known
  have small : c.args.inputArgs.length ≤ 2 ^ 30 := by omega
  have ready : ∀ k, Below ctx.parser.info l k → Ready ctx.parser.info inp c.args k :=
    fun k reach => ⟨defined k reach.inDag, noOverflow k reach.inDag, exact_.mp adjacent k reach⟩
  obtain ⟨pair, -⟩ := cmp.den one
  have notLoad : (ctx.parser.info l).op ≠ .load := by
    rw [cmp.op]
    nofun
  obtain ⟨d, t1, t2, _, _, root, stamped, left, right⟩ := drawn_compare tree cmp.op
  obtain ⟨_, made1, kept1⟩ := codegen_value m left small pair.sane1 holds
    (fun k reach => ready k (first_reaches notLoad reach)) kept_nil
  obtain ⟨_, made2, -⟩ := codegen_value m right small pair.sane2 holds
    (fun k reach => ready k (second_reaches notLoad reach)) kept1
  have both : operands m c args =
      some (Operand.code ctx.parser.info inp (first ctx.parser.info ctx.concretize l),
        Operand.code ctx.parser.info inp (second ctx.parser.info ctx.concretize l)) := by
    have child0 : c.ast.child 0 = t1 := by rw [root]; rfl
    have child1 : c.ast.child 1 = t2 := by rw [root]; rfl
    simp [operands, child0, child1, made1, made2]
  have relational : isRelationalKind c.ast.kind = true := by
    have kind := stamped.kind
    rw [cmp.op] at kind
    rw [root]
    exact (predicateOf_opMap kind).2
  have narrow := cmp.narrow l .self
  have fits : (Operand.code ctx.parser.info inp (first ctx.parser.info ctx.concretize l)).1 ≤ 64 ∧
      (Operand.code ctx.parser.info inp (second ctx.parser.info ctx.concretize l)).1 ≤ 64 :=
    ⟨pair.width1.trans_le narrow, pair.width2.trans_le narrow⟩
  rw [both]
  simp only [Option.bind_some, outcome, if_pos relational, if_pos fits]
  refine ⟨_, rfl, ?_, ?_⟩
  · rw [Function.update_of_ne (by decide), Function.update_self, Operand.code, toNat_valueOf,
      Nat.mod_eq_of_lt (Operand.value_lt _ _ _), pair.value1]
  · rw [Function.update_self, Operand.code, toNat_valueOf,
      Nat.mod_eq_of_lt (Operand.value_lt _ _ _), pair.value2]

lemma holds_iff {id : Nat} {inp : Input} {a : ArgMap} {args : Nat → Nat} :
    Holds id inp a args ↔
      (∀ entry ∈ a.localMap.entries, args (entry.2 + retOffset) = (inp.byte id entry.1).toNat) ∧
      ∀ arg ∈ a.inputArgs.zipIdx, arg.1.1 = false → args (arg.2 + retOffset) = arg.1.2 := by
  constructor
  · rintro ⟨byte, constant⟩
    refine ⟨fun _ member => byte _ _ (OrderedMap.mem_entries.mp member), ?_⟩
    rintro ⟨⟨_, v⟩, j⟩ member rfl
    exact constant j v (List.mem_zipIdx_iff_getElem?.mp member)
  · rintro ⟨bytes, constants⟩
    exact ⟨fun x i found => bytes (x, i) (OrderedMap.mem_entries.mpr found), fun j v arg =>
      constants ((false, v), j) (List.mem_zipIdx_iff_getElem?.mpr arg) rfl⟩

instance (id : Nat) (inp : Input) (a : ArgMap) (args : Nat → Nat) :
    Decidable (Holds id inp a args) :=
  decidable_of_iff _ holds_iff.symm

/-- A third of a word plus the word, compared with its high byte. -/
def thirdPlusWord : Nat → LabelInfo := (TableGrowth.tableOf [⟨0, 0, 0, 0, .input, 8, 0⟩,
  ⟨0, 0, 1, 0, .input, 8, 0⟩, ⟨1, 2, 0, 0, .load, 16, 0⟩, ⟨3, 0, 0, 3, .udiv, 16, 0⟩,
  ⟨4, 3, 0, 0, .add, 16, 0⟩, ⟨2, 0, 0, 0, .zext, 16, 0⟩, ⟨5, 6, 0, 0, .icmp .bvult, 16, 0⟩]
  1000).info

/-- A byte, extended, compared with the word it is the high byte of. -/
def highByteAndWord : Nat → LabelInfo := (TableGrowth.tableOf [⟨0, 0, 0, 0, .input, 8, 0⟩,
  ⟨0, 0, 1, 0, .input, 8, 0⟩, ⟨2, 0, 0, 0, .zext, 16, 0⟩, ⟨1, 2, 0, 0, .load, 16, 0⟩,
  ⟨3, 4, 0, 0, .icmp .bvult, 16, 0⟩] 1000).info

/-- The first byte is 1 and all others are 2. -/
def oneThenTwos : Input := ⟨fun _ offset => if offset = 0 then 1 else 2, fun _ => 0⟩

/-- The word at the start of the input is 513: a third of it is 171. -/
theorem fn_operands_third : let args : Nat → Nat := fun i => [0, 0, 1, 2, 3].getD i 0
    ∃ c out, parseConstraint (plainContext thirdPlusWord [4]) [0, 1, 1, 1, 3, 5, 2, 8] 8 7 =
        some c ∧
      ((operands leavingMachine c args).bind fun (x, y) => outcome c.ast.kind x y args) =
        some out ∧ out 0 = 684 ∧ out 1 = 2 := by
  intro args
  have cmp : Compares thirdPlusWord .bvult 7 := compares_of_range (by decide) (by decide) rfl
  have range : ∀ k, InDag thirdPlusWord 7 k → k < 8 := fun k reach =>
    Nat.lt_succ_of_le (cmp.typed.le reach)
  have reads : ∀ k, k < 8 → (thirdPlusWord k).op = .input ∨ (thirdPlusWord k).op = .load →
      (readOf thirdPlusWord k).1 = 0 ∧
        (readOf thirdPlusWord k).2.1 + (readOf thirdPlusWord k).2.2 ≤ 2 ^ 30 := by decide
  have one : OneBuffer thirdPlusWord (fun _ => 0) 0 7 :=
    ⟨fun _ _ => rfl, fun k reach => reads k (range k reach)⟩
  have adjacent : AdjacentReads thirdPlusWord (fun _ => 0) 7 := by
    intro k reach _
    -- the word is used first, and the high byte is its second byte
    have starts : ∀ k ∈ [2, 3, 4, 5, 6, 7], ∀ i < (readOf thirdPlusWord k).2.2,
        (thirdPlusWord k).op = .input ∨ (thirdPlusWord k).op = .load →
        (firstUses thirdPlusWord (fun _ => 0) 7)[(readOf thirdPlusWord k).2.1 + i]? =
          some (.byte ((readOf thirdPlusWord k).2.1 + i)) := by decide +kernel
    exact ⟨_, fun i lt => starts k (reach.mem _ (by decide) (by decide)) i lt ‹_›⟩
  have defined : ∀ k, k < 8 → Defined thirdPlusWord oneThenTwos (thirdPlusWord k) := by
    decide +kernel
  have noOverflow : ∀ k, k < 8 → NoOverflow thirdPlusWord oneThenTwos (thirdPlusWord k) := by
    decide +kernel
  have run : (parseConstraint (plainContext thirdPlusWord [4]) [0, 1, 1, 1, 3, 5, 2, 8] 8 7).map
      (fun c => decide (Holds 0 oneThenTwos c.args args)) = some true := by decide +kernel
  obtain ⟨c, parsed, holds⟩ := Option.map_eq_some_iff.mp run
  obtain ⟨out, made, left, right⟩ := (fn_operands (plainContext thirdPlusWord [4]) _ 8 7 0 .bvult
    cmp one (by decide) c parsed).2 adjacent oneThenTwos (fun k reach => defined k (range k reach))
    (fun k reach => noOverflow k (range k reach)) args (of_decide_eq_true holds) leavingMachine
  have values : operand1 thirdPlusWord (den thirdPlusWord oneThenTwos) (thirdPlusWord 7) = 684 ∧
      operand2 thirdPlusWord (den thirdPlusWord oneThenTwos) (thirdPlusWord 7) = 2 := by
    decide +kernel
  exact ⟨c, out, parsed, made, left.trans values.1, right.trans values.2⟩

/-- The high byte is used first and gets the first argument, so the word is loaded from
the argument of its low byte and the one behind, which is not a byte of the input. -/
theorem fn_overlapping_reads : let args : Nat → Nat := fun i => [0, 0, 2, 1].getD i 0
    Compares highByteAndWord .bvult 5 ∧
      (∀ k, k < 6 → Defined highByteAndWord oneThenTwos (highByteAndWord k)) ∧
      ∃ c, parseConstraint (plainContext highByteAndWord [4]) [0, 1, 1, 2, 1, 5] 6 5 = some c ∧
        Holds 0 oneThenTwos c.args args ∧
        ((operands leavingMachine c args).bind fun (x, y) => outcome c.ast.kind x y args).map
          (· 1) = some 1 ∧
        operand2 highByteAndWord (den highByteAndWord oneThenTwos) (highByteAndWord 5) = 513 := by
  intro args
  refine ⟨compares_of_range (by decide) (by decide) rfl, by decide +kernel, ?_⟩
  have run : (parseConstraint (plainContext highByteAndWord [4]) [0, 1, 1, 2, 1, 5] 6 5).map
      (fun c => decide (Holds 0 oneThenTwos c.args args)) = some true := by decide +kernel
  have written : ((parseConstraint (plainContext highByteAndWord [4]) [0, 1, 1, 2, 1, 5] 6 5).bind
      fun c => ((operands leavingMachine c args).bind fun (x, y) =>
        outcome c.ast.kind x y args).map (· 1)) = some 1 := by
    decide +kernel
  obtain ⟨c, parsed, holds⟩ := Option.map_eq_some_iff.mp run
  rw [parsed] at written
  exact ⟨c, parsed, of_decide_eq_true holds, written, by decide +kernel⟩

end CodeMeaning
