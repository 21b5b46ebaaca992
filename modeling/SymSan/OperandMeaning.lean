import SymSan.DrawnTrees
import SymSan.Z3Soundness

/-!
# The meaning of drawn operands

What the operands of a node stand for, and the value of a label in terms of its
operands, one equation for each class of operations. The labels are those of integer
code without comparisons, at most 64 bits wide, over the bytes of one input buffer.
-/

namespace OperandMeaning

open LabelTable Denotation TypedLabels BitTerms LittleEndian RgdAst UtaRel DrawnTrees Z3Soundness

variable (info : Nat → LabelInfo) (mark : Nat → Nat)

/-- The labels below a comparison. The index field of a node has 30 bits. -/
structure Plain (id l : Nat) : Prop where
  typed : WellTyped info l
  narrow : ∀ k, InDag info l k → (info k).size ≤ 64
  noCompare : ∀ k, InDag info l k → isIcmp (info k).op = false
  unmarked : ∀ k, InDag info l k → mark k = 0
  oneInput : ∀ k, InDag info l k → (info k).op = .input ∨ (info k).op = .load →
    (readOf info k).1 = id ∧ (readOf info k).2.1 + (readOf info k).2.2 ≤ 2 ^ 30

section Plain

variable {info : Nat → LabelInfo} {mark : Nat → Nat} {id l : Nat} (plain : Plain info mark id l)

include plain

lemma Plain.first (symbolic : (info l).l1 ≠ 0) : Plain info mark id (info l).l1 :=
  ⟨plain.typed.first symbolic, fun k reach => plain.narrow k (.first symbolic reach),
    fun k reach => plain.noCompare k (.first symbolic reach),
    fun k reach => plain.unmarked k (.first symbolic reach),
    fun k reach => plain.oneInput k (.first symbolic reach)⟩

lemma Plain.second (symbolic : (info l).l2 ≠ 0) (notLoad : (info l).op ≠ .load) :
    Plain info mark id (info l).l2 :=
  ⟨plain.typed.second symbolic notLoad,
    fun k reach => plain.narrow k (.second symbolic notLoad reach),
    fun k reach => plain.noCompare k (.second symbolic notLoad reach),
    fun k reach => plain.unmarked k (.second symbolic notLoad reach),
    fun k reach => plain.oneInput k (.second symbolic notLoad reach)⟩

lemma Plain.width_eq : width (info l) = (info l).size := by
  have typed := plain.typed.root.2.2.1
  have noCompare := plain.noCompare l .self
  cases op : (info l).op with
  | icmp q =>
    rw [op] at noCompare
    cases noCompare
  | fmemcmp =>
    simp only [Typed, op] at typed
    cases typed.1
  | _ => simp only [width, op]

end Plain

/-! ## Operands -/

def Operand.width (info : Nat → LabelInfo) : Operand → Nat
  | .label l => Denotation.width (info l)
  | .constant _ bits => bits

def Operand.value (info : Nat → LabelInfo) (inp : Input) : Operand → Nat
  | .label l => den info inp l
  | .constant value bits => value % 2 ^ bits

/-- A plain label, or a constant that fits its width. -/
def Sane (id : Nat) : Operand → Prop
  | .label l => Plain info mark id l
  | .constant value bits => bits ≤ 64 ∧ value < 2 ^ bits

/-- The two operands of an operation, with their widths. -/
structure Pair (id l w1 w2 : Nat) : Prop where
  sane1 : Sane info mark id (first info mark l)
  sane2 : Sane info mark id (second info mark l)
  width1 : Operand.width info (first info mark l) = w1
  width2 : Operand.width info (second info mark l) = w2
  value1 : ∀ inp, operand1 info (den info inp) (info l) = Operand.value info inp (first info mark l)
  value2 : ∀ inp, operand2 info (den info inp) (info l) =
    Operand.value info inp (second info mark l)

section Operands

variable {info : Nat → LabelInfo} {mark : Nat → Nat} {id l : Nat} {op : Operator} {arith : Arith}
  {kind : AstKind}

lemma Operand.value_lt (info : Nat → LabelInfo) (inp : Input) (o : Operand) :
    Operand.value info inp o < 2 ^ Operand.width info o := by
  cases o with
  | label l => exact den_lt info inp l
  | constant value bits => exact Nat.mod_lt _ (Nat.pow_pos (by decide))

lemma operandOf_sane (side : Nat) {r : LabelInfo} {label const other w : Nat} (given : side ≠ 0)
    (bits : label = 0 → constantBits info r other = w) (le : w ≤ 64)
    (fits : Fits info label const w) (plain : label ≠ 0 → Plain info mark id label) :
    Sane info mark id (operandOf info r 0 side label const other) ∧
      Operand.width info (operandOf info r 0 side label const other) = w ∧
      ∀ inp, Operand.value info inp (operandOf info r 0 side label const other) =
        if label = 0 then const % 2 ^ w else den info inp label := by
  by_cases zero : label = 0
  · simp only [Fits, if_pos zero] at fits
    rw [operandOf, if_neg fun both => both.2 zero, bits zero]
    exact ⟨⟨le, fits⟩, rfl, fun inp => (if_pos zero).symm⟩
  · simp only [Fits, if_neg zero] at fits
    rw [operandOf, if_pos ⟨given.symm, zero⟩]
    exact ⟨plain zero, fits, fun inp => (if_neg zero).symm⟩

lemma pair_of_fits {w1 w2 : Nat} (unmarked : mark l = 0) (le1 : w1 ≤ 64) (le2 : w2 ≤ 64)
    (wide1 : width1 info (info l) = w1) (wide2 : width2 info (info l) = w2)
    (bits1 : (info l).l1 = 0 → constantBits info (info l) (info l).l2 = w1)
    (bits2 : (info l).l2 = 0 → constantBits info (info l) (info l).l1 = w2)
    (fits1 : Fits info (info l).l1 (info l).op1 w1) (fits2 : Fits info (info l).l2 (info l).op2 w2)
    (plain1 : (info l).l1 ≠ 0 → Plain info mark id (info l).l1)
    (plain2 : (info l).l2 ≠ 0 → Plain info mark id (info l).l2) : Pair info mark id l w1 w2 := by
  obtain ⟨sane1, width1, value1⟩ := operandOf_sane 1 (by decide) bits1 le1 fits1 plain1
  obtain ⟨sane2, width2, value2⟩ := operandOf_sane 2 (by decide) bits2 le2 fits2 plain2
  have left : first info mark l =
      operandOf info (info l) 0 1 (info l).l1 (info l).op1 (info l).l2 := by
    rw [first, unmarked]
  have right : second info mark l =
      operandOf info (info l) 0 2 (info l).l2 (info l).op2 (info l).l1 := by
    rw [second, unmarked]
  rw [← left] at sane1 width1 value1
  rw [← right] at sane2 width2 value2
  refine ⟨sane1, sane2, width1, width2, fun inp => ?_, fun inp => ?_⟩
  · rw [value1 inp, operand1, wide1]
  · rw [value2 inp, operand2, wide2]

lemma pair_of_sameWidth (sized : SameWidth info (info l)) (notConcat : (info l).op ≠ .concat)
    (unmarked : mark l = 0) (plain1 : (info l).l1 ≠ 0 → Plain info mark id (info l).l1)
    (plain2 : (info l).l2 ≠ 0 → Plain info mark id (info l).l2) :
    Pair info mark id l (info l).size (info l).size := by
  obtain ⟨-, le, fits1, fits2⟩ := sized
  have constant : ∀ n, constWidth (info l) n = (info l).size := fun n => if_neg notConcat
  have wide1 : width1 info (info l) = (info l).size := by
    by_cases zero : (info l).l1 = 0
    · rw [width1, if_pos zero, constant]
    · rw [width1, if_neg zero]
      rwa [Fits, if_neg zero] at fits1
  have wide2 : width2 info (info l) = (info l).size := by
    by_cases zero : (info l).l2 = 0
    · rw [width2, if_pos zero, constant]
    · rw [width2, if_neg zero]
      rwa [Fits, if_neg zero] at fits2
  exact pair_of_fits unmarked le le wide1 wide2 (fun _ => if_neg notConcat)
    (fun _ => if_neg notConcat) fits1 fits2 plain1 plain2

/-! ## Values of labels -/

/-- The operation on bit-vectors that an opcode stands for. -/
def arithOf : Operator → Option Arith
  | .add => some .add
  | .sub => some .sub
  | .mul => some .mul
  | .udiv => some .udiv
  | .sdiv => some .sdiv
  | .urem => some .urem
  | .srem => some .srem
  | .shl => some .shl
  | .lshr => some .lshr
  | .ashr => some .ashr
  | .and => some .and
  | .or => some .or
  | .xor => some .xor
  | _ => none

lemma applyOp_arith (h : arithOf op = some arith) (size w1 off x y : Nat) :
    applyOp op size w1 off x y =
      (arith.eval (BitVec.ofNat size x) (BitVec.ofNat size y)).toNat := by
  cases op <;> cases h <;> rfl

lemma den_arith (plain : Plain info mark id l) (op : arithOf (info l).op = some arith) :
    Pair info mark id l (info l).size (info l).size ∧ ∀ inp, den info inp l =
      (arith.eval (BitVec.ofNat (info l).size (Operand.value info inp (first info mark l)))
        (BitVec.ofNat (info l).size (Operand.value info inp (second info mark l)))).toNat := by
  obtain ⟨ne, ordered, typed, -⟩ := plain.typed.root
  have classes : isInteger (info l).op = true ∧ (info l).op ≠ .concat ∧ (info l).op ≠ .load ∧
      SameWidth info (info l) := by
    revert typed
    cases h : (info l).op <;> simp only [h] at op <;> cases op <;> simp only [Typed, h] <;>
      exact fun typed => ⟨rfl, by simp, by simp, typed.2⟩
  obtain ⟨integer, notConcat, notLoad, sized⟩ := classes
  have pair := pair_of_sameWidth sized notConcat (plain.unmarked l .self) plain.first
    fun symbolic => plain.second symbolic notLoad
  refine ⟨pair, fun inp => ?_⟩
  rw [den_integer ne ordered integer, applyOp_arith op, pair.value1, pair.value2, plain.width_eq]
  exact Nat.mod_eq_of_lt (BitVec.isLt _)

lemma den_concat (plain : Plain info mark id l) (op : (info l).op = .concat) :
    ∃ w1 w2, w1 + w2 = (info l).size ∧ Pair info mark id l w1 w2 ∧ ∀ inp, den info inp l =
      Operand.value info inp (first info mark l) +
        Operand.value info inp (second info mark l) * 2 ^ w1 := by
  obtain ⟨ne, ordered, typed, _⟩ := plain.typed.root
  simp only [Typed, op] at typed
  obtain ⟨symbolic, sum, fits1, fits2⟩ := typed
  have notLoad : (info l).op ≠ .load := by simp [op, reduceCtorEq]
  have le := plain.narrow l .self
  have constant : ∀ n, constWidth (info l) n = (info l).size - n := fun n => if_pos op
  have bits : ∀ other, constantBits info (info l) other =
      ((info l).size + 2 ^ 32 - (info other).size) % 2 ^ 32 := fun other => if_pos op
  have bits1 : (info l).l1 = 0 →
      constantBits info (info l) (info l).l2 = width1 info (info l) := by
    intro zero
    have other : (info l).l2 ≠ 0 := symbolic.resolve_left fun ne => ne zero
    have same := (plain.second other notLoad).width_eq
    rw [width1, width2, if_pos zero, if_neg other, constant, same] at sum
    rw [bits, width1, if_pos zero, constant, same]
    omega
  have bits2 : (info l).l2 = 0 →
      constantBits info (info l) (info l).l1 = width2 info (info l) := by
    intro zero
    have other : (info l).l1 ≠ 0 := symbolic.resolve_right fun ne => ne zero
    have same := (plain.first other).width_eq
    rw [width1, width2, if_pos zero, if_neg other, constant, same] at sum
    rw [bits, width2, if_pos zero, constant, same]
    omega
  have pair := pair_of_fits (plain.unmarked l .self) (by omega) (by omega) rfl rfl bits1 bits2
    fits1 fits2 plain.first fun symbolic => plain.second symbolic notLoad
  refine ⟨_, _, sum, pair, fun inp => ?_⟩
  have lt1 := Operand.value_lt info inp (first info mark l)
  have lt2 := Operand.value_lt info inp (second info mark l)
  rw [pair.width1] at lt1
  rw [pair.width2] at lt2
  have fits : Operand.value info inp (first info mark l) +
      Operand.value info inp (second info mark l) * 2 ^ width1 info (info l) <
        2 ^ (info l).size := by
    calc _ < (Operand.value info inp (second info mark l) + 1) * 2 ^ width1 info (info l) := by
          rw [Nat.succ_mul]
          omega
      _ ≤ 2 ^ width2 info (info l) * 2 ^ width1 info (info l) := Nat.mul_le_mul_right _ lt2
      _ = 2 ^ (info l).size := by rw [← Nat.pow_add, Nat.add_comm, sum]
  rw [den_integer ne ordered (by rw [op]; rfl), pair.value1, pair.value2, plain.width_eq, op]
  exact Nat.mod_eq_of_lt fits

lemma cast_first (plain : Plain info mark id l) (cast : IsCast (info l).op) :
    (info l).l1 ≠ 0 ∧ first info mark l = .label (info l).l1 ∧ Plain info mark id (info l).l1 := by
  have typed := plain.typed.root.2.2.1
  have symbolic : (info l).l1 ≠ 0 := by
    rcases cast with op | op | op | op <;> simp only [Typed, op] at typed <;> exact typed.1
  exact ⟨symbolic, if_pos ⟨by rw [plain.unmarked l .self]; decide, symbolic⟩, plain.first symbolic⟩

lemma isCast_of_isUnary (unary : isUnary op = true) : IsCast op := by
  cases op with
  | zext => exact .inl rfl
  | sext => exact .inr (.inl rfl)
  | trunc => exact .inr (.inr (.inl rfl))
  | extract => exact .inr (.inr (.inr rfl))
  | _ => cases unary

lemma den_zext (plain : Plain info mark id l) (op : (info l).op = .zext) :
    width (info (info l).l1) ≤ (info l).size ∧
      ∀ inp, den info inp l = den info inp (info l).l1 := by
  obtain ⟨ne, ordered, typed, -⟩ := plain.typed.root
  simp only [Typed, op] at typed
  obtain ⟨symbolic, -, wider⟩ := typed
  refine ⟨wider, fun inp => ?_⟩
  have small := Nat.lt_of_lt_of_le (den_lt info inp (info l).l1)
    (Nat.pow_le_pow_right (by decide) wider)
  rw [den_integer ne ordered (by rw [op]; rfl), plain.width_eq, op, operand1_symbolic symbolic]
  change den info inp (info l).l1 % _ % _ = _
  rw [Nat.mod_mod, Nat.mod_eq_of_lt small]

lemma den_sext (plain : Plain info mark id l) (op : (info l).op = .sext) :
    width (info (info l).l1) ≤ (info l).size ∧ ∀ inp, den info inp l =
      ((BitVec.ofNat (width (info (info l).l1)) (den info inp (info l).l1)).signExtend
        (info l).size).toNat := by
  obtain ⟨ne, ordered, typed, -⟩ := plain.typed.root
  simp only [Typed, op] at typed
  obtain ⟨symbolic, -, wider⟩ := typed
  refine ⟨wider, fun inp => ?_⟩
  have wide1 : width1 info (info l) = width (info (info l).l1) := if_neg symbolic
  rw [den_integer ne ordered (by rw [op]; rfl), plain.width_eq, op, operand1_symbolic symbolic,
    wide1]
  exact Nat.mod_eq_of_lt (BitVec.isLt _)

/-- The first bit that an Extract or a Trunc takes. -/
def lowBit (r : LabelInfo) : Nat := if r.op = .extract then r.op2 else 0

lemma den_extract (plain : Plain info mark id l)
    (op : (info l).op = .trunc ∨ (info l).op = .extract) :
    lowBit (info l) + (info l).size ≤ width (info (info l).l1) ∧ ∀ inp, den info inp l =
      den info inp (info l).l1 / 2 ^ lowBit (info l) % 2 ^ (info l).size := by
  obtain ⟨ne, ordered, typed, -⟩ := plain.typed.root
  rcases op with op | op
  · have low : lowBit (info l) = 0 := if_neg (by simp [op])
    simp only [Typed, op] at typed
    obtain ⟨symbolic, -, range⟩ := typed
    rw [low, Nat.zero_add]
    refine ⟨range, fun inp => ?_⟩
    rw [den_integer ne ordered (by rw [op]; rfl), plain.width_eq, op,
      operand1_symbolic symbolic, Nat.pow_zero, Nat.div_one]
    exact Nat.mod_mod _ _
  · have low : lowBit (info l) = (info l).op2 := if_pos op
    simp only [Typed, op] at typed
    obtain ⟨symbolic, -, range⟩ := typed
    rw [low]
    refine ⟨range, fun inp => ?_⟩
    rw [den_integer ne ordered (by rw [op]; rfl), plain.width_eq, op, operand1_symbolic symbolic]
    exact Nat.mod_mod _ _

/-- The casts with what their nodes hold. -/
lemma cast_cases {d : NodeData} (plain : Plain info mark id l) (cast : isUnary (info l).op = true)
    (plain1 : Plain info mark id (info l).l1) (stamped : Stamped info l d)
    (index : d.index = (if (info l).op = .extract then (info l).op2 else 0) % 2 ^ 30) :
    d.bits = (info l).size ∧ width (info (info l).l1) ≤ 64 ∧
      ((info l).op = .zext ∧ d.kind = .zext ∨ (info l).op = .sext ∧ d.kind = .sext ∨
        ((info l).op = .trunc ∨ (info l).op = .extract) ∧ d.kind = .extract ∧
          d.index = lowBit (info l)) := by
  have narrow := plain.narrow l .self
  have narrow1 := plain1.narrow _ .self
  rw [← plain1.width_eq] at narrow1
  have kind := stamped.kind
  have low : (info l).op = .trunc ∨ (info l).op = .extract → d.index = lowBit (info l) := by
    intro op
    have range := (den_extract plain op).1
    exact index.trans (Nat.mod_eq_of_lt (show lowBit (info l) < _ by omega))
  refine ⟨by rw [stamped.bits]; omega, narrow1, ?_⟩
  cases op : (info l).op with
  | zext | sext | trunc | extract =>
    rw [op] at kind low
    simp [← Option.some.inj kind, low]
  | _ =>
    rw [op] at cast
    cases cast

lemma den_read (plain : Plain info mark id l) (op : (info l).op = .input ∨ (info l).op = .load) :
    0 < (readOf info l).2.2 ∧ (info l).size = 8 * (readOf info l).2.2 ∧ ∀ inp, den info inp l =
      word (fun i => (inp.byte id ((readOf info l).2.1 + i)).toNat) (readOf info l).2.2 := by
  obtain ⟨ne, ordered, typed, -⟩ := plain.typed.root
  obtain ⟨only, range⟩ := plain.oneInput l .self op
  rcases op with op | op
  · have read : readOf info l = ((info l).op2 % 2 ^ 32, (info l).op1 % 2 ^ 32, 1) :=
      if_neg (by rw [op]; nofun)
    simp only [Typed, op] at typed
    rw [read] at only ⊢
    dsimp only at only ⊢
    refine ⟨Nat.one_pos, typed.2.2, fun inp => ?_⟩
    rw [den_eq info inp ne ordered, plain.width_eq, typed.2.2, word_one, evalRecord, if_pos op,
      inputByte, only]
    exact Nat.mod_eq_of_lt (BitVec.isLt _)
  · have read : readOf info l = ((info (info l).l1).op2 % 2 ^ 32,
        (info (info l).l1).op1 % 2 ^ 32, (info l).l2) := if_pos op
    simp only [Typed, op] at typed
    obtain ⟨-, -, positive, size⟩ := typed
    rw [read] at only range ⊢
    dsimp only at only range ⊢
    refine ⟨positive, size, fun inp => ?_⟩
    have bytes : word (fun i => inputByte inp (info (info l).l1).op2
        ((info (info l).l1).op1 + i)) (info l).l2 =
        word (fun i => (inp.byte id ((info (info l).l1).op1 % 2 ^ 32 + i)).toNat) (info l).l2 := by
      refine word_congr fun i lt => ?_
      have inside : ((info (info l).l1).op1 + i) % 2 ^ 32 =
          (info (info l).l1).op1 % 2 ^ 32 + i := by
        omega
      rw [inputByte, inside, only]
    rw [den_eq info inp ne ordered, plain.width_eq, size, two_pow_mul_eight, evalRecord,
      if_neg (by simp [op]), if_pos op, bytes]
    exact Nat.mod_eq_of_lt (word_lt fun i _ => BitVec.isLt _)

/-- The operators of nodes with two operands below a comparison. -/
lemma concat_or_arith (mapped : opMap op = some kind) (binary : isUnary op = false)
    (noCompare : isIcmp op = false) :
    (op = .concat ∧ kind = .concat) ∨ ∃ arith, arithOf op = some arith := by
  cases op with
  | concat =>
    cases mapped
    exact .inl ⟨rfl, rfl⟩
  | icmp q => cases noCompare
  | zext | sext | trunc | extract => cases binary
  | _ => first
    | exact .inr ⟨_, rfl⟩
    | cases mapped

lemma Plain.operands (plain : Plain info mark id l) (mapped : opMap (info l).op = some kind)
    (binary : isUnary (info l).op = false) :
    Sane info mark id (DrawnTrees.first info mark l) ∧
      Sane info mark id (DrawnTrees.second info mark l) := by
  rcases concat_or_arith mapped binary (plain.noCompare l .self) with ⟨op, -⟩ | ⟨arith, op⟩
  · obtain ⟨_, _, -, pair, -⟩ := den_concat plain op
    exact ⟨pair.sane1, pair.sane2⟩
  · have pair := (den_arith plain op).1
    exact ⟨pair.sane1, pair.sane2⟩

lemma den_compare {q : Predicate} (wt : WellTyped info l) (op : (info l).op = .icmp q)
    (unmarked : mark l = 0) (plain1 : (info l).l1 ≠ 0 → Plain info mark id (info l).l1)
    (plain2 : (info l).l2 ≠ 0 → Plain info mark id (info l).l2) :
    Pair info mark id l (info l).size (info l).size ∧ ∀ inp, den info inp l =
      (compare q (BitVec.ofNat (info l).size (Operand.value info inp (first info mark l)))
        (BitVec.ofNat (info l).size (Operand.value info inp (second info mark l)))).toNat := by
  obtain ⟨ne, ordered, typed, -⟩ := wt.root
  simp only [Typed, op] at typed
  have pair := pair_of_sameWidth typed.2 (by simp [op]) unmarked plain1 plain2
  refine ⟨pair, fun inp => ?_⟩
  have wide : width (info l) = 1 := by rw [width, op]
  rw [den_integer ne ordered (by rw [op]; rfl), pair.value1, pair.value2, wide, op]
  exact Nat.mod_eq_of_lt (Bool.toNat_lt _)

lemma drawn_bits {a : JigsawTask.ArgMap} {v v' : List Nat} {o : Operand} {t : AstNode}
    (drawn : Drawn info mark a v o t v') (sane : Sane info mark id o) :
    t.data.bits = Operand.width info o := by
  have stamp : ∀ {l : Nat}, Plain info mark id l → (info l).size % 2 ^ 16 = width (info l) := by
    intro l plain
    have narrow := plain.narrow l .self
    rw [plain.width_eq]
    omega
  cases drawn with
  | constant kind width label arg =>
    have narrow := sane.1
    refine width.trans ?_
    exact Nat.mod_eq_of_lt (by omega)
  | again seen => exact stamp sane
  | read fresh op kind bits label index mapped =>
    have size := (den_read sane op).2.1
    rw [Nat.mul_comm, ← size] at bits
    exact bits.trans (stamp sane)
  | unary fresh op stamped index arg => exact stamped.bits.trans (stamp sane)
  | binary fresh op stamped left right => exact stamped.bits.trans (stamp sane)

end Operands

/-! ## Comparisons -/

/-- A comparison of integer code of at most 64 bits without further comparisons. -/
structure Compares (info : Nat → LabelInfo) (q : Predicate) (l : Nat) : Prop where
  op : (info l).op = .icmp q
  typed : WellTyped info l
  narrow : ∀ k, InDag info l k → (info k).size ≤ 64
  noCompare : ∀ k, InDag info l k → k ≠ l → isIcmp (info k).op = false

/-- No operand is to be concretized, and all bytes are of one buffer, with offsets that
the index of a node can hold. -/
structure OneBuffer (info : Nat → LabelInfo) (mark : Nat → Nat) (id l : Nat) : Prop where
  unmarked : ∀ k, InDag info l k → mark k = 0
  oneInput : ∀ k, InDag info l k → (info k).op = .input ∨ (info k).op = .load →
    (readOf info k).1 = id ∧ (readOf info k).2.1 + (readOf info k).2.2 ≤ 2 ^ 30

section Compares

variable {info : Nat → LabelInfo} {mark : Nat → Nat} {id l : Nat} {q : Predicate}

lemma compares_of_range (all : ∀ k < l + 1, 1 ≤ k → Ordered info k ∧
      Typed info (info k) ∧ (info k).size ≤ 64 ∧ (k ≠ l → isIcmp (info k).op = false))
    (pos : 1 ≤ l) (op : (info l).op = .icmp q) : Compares info q l := by
  have below := dag_of_range all ⟨pos, Nat.le_refl l⟩
  refine ⟨op, fun k reach => ?_, fun k reach => (below k reach).2.2.2.1,
    fun k reach => (below k reach).2.2.2.2⟩
  obtain ⟨ne, ordered, typed, _, -⟩ := below k reach
  exact ⟨ne, ordered, typed, by omega⟩

variable (cmp : Compares info q l) (one : OneBuffer info mark id l)

include cmp one

lemma Compares.plain {k : Nat} (below : ∀ j, InDag info k j → InDag info l j) (lt : k < l) :
    Plain info mark id k := by
  have typed : WellTyped info k := fun j reach => cmp.typed j (below j reach)
  refine ⟨typed, fun j reach => cmp.narrow j (below j reach), fun j reach => ?_,
    fun j reach => one.unmarked j (below j reach), fun j reach => one.oneInput j (below j reach)⟩
  have le := typed.le reach
  exact cmp.noCompare j (below j reach) (by omega)

lemma Compares.den :
    Pair info mark id l (info l).size (info l).size ∧ ∀ inp, den info inp l =
      (compare q (BitVec.ofNat (info l).size (Operand.value info inp (first info mark l)))
        (BitVec.ofNat (info l).size (Operand.value info inp (second info mark l)))).toNat := by
  obtain ⟨-, ordered, -, -⟩ := cmp.typed.root
  have notLoad : (info l).op ≠ .load := by
    rw [cmp.op]
    nofun
  refine den_compare cmp.typed cmp.op (one.unmarked l .self) ?_ ?_
  · intro symbolic
    exact cmp.plain one (fun j reach => .first symbolic reach) ordered.1
  · intro symbolic
    exact cmp.plain one (fun j reach => .second symbolic notLoad reach) (ordered.2 notLoad)

end Compares

end OperandMeaning
