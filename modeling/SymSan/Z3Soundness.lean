import SymSan.Z3Parser

/-!
# The Z3 translation means what the label means

Every entry of the caches is one step of the translation over the entries
before it, whatever calls have been made since the last restart. On a well-typed
sub-DAG the dependencies are exactly the input bytes that occur in it, and all
its expressions have the width and the value of their labels if and only if no
Concat in it has a constant operand of 256 bits or more, whose size the parser
keeps in 8 bits.
-/

namespace Z3Soundness

open LabelTable Denotation TypedLabels BitTerms Z3Parser LittleEndian
open Option (bind_eq_some_iff map_eq_some_iff)
open Build (bind_eq_some lift_eq_some pure_eq_some)

/-- The environment assigns the bytes of the input to its symbols. -/
def Agrees (inp : Input) (env : Name → Nat) : Prop :=
  ∀ id offset, env (.input id offset) = (inp.byte id offset).toNat

variable (info : Nat → LabelInfo)

structure Represents (e : Expr Name) (l : Nat) : Prop where
  wide : e.width = width (info l)
  value : ∀ inp env, Agrees inp env → e.value env = den info inp l

/-- The constant operand of a Concat has fewer than 256 bits. -/
def ConstantFits (r : LabelInfo) : Prop :=
  r.op = .concat → (r.l1 = 0 → width1 info r < 256) ∧ (r.l2 = 0 → width2 info r < 256)

/-! ## Inversion of one step -/

section Inversion

variable {p : Parser} {look : Lookup} {content : Option (Nat → BitVec 8)} {l : Nat}
  {m : Option (Expr Name)} {e : Expr Name} {d d' : Deps}

lemma getCachedExpr_some :
    getCachedExpr look l d = (some e, d') ↔ ∃ ds, look l = some (e, ds) ∧ d ∪ ds = d' := by
  simp only [getCachedExpr]
  cases h : look l with
  | none => simp [Build.throw]
  | some entry =>
    obtain ⟨_, _⟩ := entry
    simp only [bind_eq_some, Build.insert_eq_some, pure_eq_some]
    simp

/-- The casts: what is built from the operand. -/
def castOf (r : LabelInfo) (base : Expr Name) : Made :=
  match r.op with
  | .zext => (asBits base).bind fun bits => (bits.zext r.size).map some
  | .sext => (base.sext r.size).map some
  | .trunc => (base.extract ((r.size + 2 ^ 32 - 1) % 2 ^ 32) 0).map some
  | .extract =>
    (base.extract ((r.op2 + r.size + 2 ^ 32 - 1) % 2 ^ 32) (r.op2 % 2 ^ 32)).map some
  | _ => none

lemma getLabelInfo_some {r : LabelInfo} (h : p.getLabelInfo l = some r) : r = p.info l := by
  simp only [Parser.getLabelInfo] at h
  split at h
  · cases h
  · exact (Option.some.inj h).symm

lemma labelInfo_bind {α : Type} {k : LabelInfo → Build α} {x : α}
    (h : (Build.lift (p.getLabelInfo l) >>= k) d = (some x, d')) :
    k (p.info l) d = (some x, d') := by
  obtain ⟨r, _, first, h⟩ := bind_eq_some.mp h
  obtain ⟨info, rfl⟩ := lift_eq_some.mp first
  cases getLabelInfo_some info
  exact h

lemma translate_cast (cast : IsCast (p.info l).op)
    (h : translate p look content l ∅ = (some m, d)) :
    ∃ base, look (p.info l).l1 = some (base, d) ∧ castOf (p.info l) base = some m := by
  replace h := labelInfo_bind h
  rcases cast with op | op | op | op <;>
  · simp only [op, bind_eq_some, lift_eq_some, getCachedExpr_some] at h
    obtain ⟨base, _, ⟨_, hlook, rfl⟩, made, rfl⟩ := h
    simp only [castOf, op, Finset.empty_union]
    exact ⟨base, hlook, made⟩

lemma translate_not (op : (p.info l).op = .not) (h : translate p look content l ∅ = (some m, d)) :
    ∃ base, look (p.info l).l2 = some (base, d) ∧ base.lnot.map some = some m := by
  replace h := labelInfo_bind h
  simp only [op] at h
  split at h
  · exact absurd h Build.throw_ne_some
  · simp only [bind_eq_some, lift_eq_some, getCachedExpr_some] at h
    obtain ⟨base, _, ⟨_, hlook, rfl⟩, made, rfl⟩ := h
    rw [Finset.empty_union]
    exact ⟨base, hlook, made⟩

lemma translate_input (op : (p.info l).op = .input)
    (h : translate p look content l ∅ = (some m, d)) :
    m = some (Expr.const (.input ((p.info l).op2 % 2 ^ 32) ((p.info l).op1 % 2 ^ 32)) 8) ∧
      d = ownInputs p.info l := by
  replace h := labelInfo_bind h
  simp only [op] at h
  obtain ⟨_, _, rfl, rfl, rfl⟩ := h
  simp [ownInputs, op]

lemma translate_load (op : (p.info l).op = .load)
    (h : translate p look content l ∅ = (some m, d)) :
    let first := p.info (p.info l).l1
    (loadBytes (first.op2 % 2 ^ 32) (first.op1 % 2 ^ 32) ((p.info l).l2 - 1)).map some = some m ∧
      d = loadDeps (first.op2 % 2 ^ 32) (first.op1 % 2 ^ 32) ((p.info l).l2 - 1) := by
  replace h := labelInfo_bind h
  simp only [op, bind_eq_some, Build.insert_eq_some, lift_eq_some] at h
  obtain ⟨_, _, ⟨info1, rfl⟩, _, _, rfl, made, rfl⟩ := h
  cases getLabelInfo_some info1
  exact ⟨made, rfl⟩

/-- The opcodes handled by the last switch. -/
def isCommon : Operator → Bool
  | .add | .sub | .mul | .udiv | .sdiv | .urem | .srem | .shl | .lshr | .ashr => true
  | .and | .or | .xor | .icmp _ | .concat => true
  | _ => false

lemma translate_common (op : isCommon (p.info l).op = true)
    (h : translate p look content l ∅ = (some m, d)) :
    ∃ size1 op1 d1 size2 op2,
      constSize p (p.info l) (p.info l).l1 (p.info l).l2 ((p.info l).size % 256) = some size1 ∧
      operand p look (p.info l) (p.info l).l1 (p.info l).op1 size1 ∅ = (some op1, d1) ∧
      constSize p (p.info l) (p.info l).l2 (p.info l).l1 size1 = some size2 ∧
      operand p look (p.info l) (p.info l).l2 (p.info l).op2 size2 d1 = (some op2, d) ∧
      common (p.info l) op1 op2 = some m := by
  replace h := labelInfo_bind h
  cases hop : (p.info l).op <;> simp only [hop, isCommon, Bool.false_eq_true] at op h <;>
  · simp only [bind_eq_some, lift_eq_some] at h
    obtain ⟨size1, _, ⟨const1, rfl⟩, op1, d1, first, size2, _, ⟨const2, rfl⟩, op2, _, second,
      made, rfl⟩ := h
    exact ⟨size1, op1, d1, size2, op2, const1, first, const2, second, made⟩

lemma operand_some {r : LabelInfo} {label const size : Nat}
    (h : operand p look r label const size d = (some e, d')) :
    0 < size ∧ ((label = 0 ∧ d' = d ∧
        (r.size = 1 ∧ e = Expr.truth (decide (const = 1)) ∨ Expr.num const size = some e)) ∨
      (label ≠ 0 ∧ ∃ base ds, look label = some (base, ds) ∧ d' = d ∪ ds ∧
        fixSize r.op size (p.simplify.run base) = some e)) := by
  simp only [operand, bind_eq_some, lift_eq_some] at h
  obtain ⟨_, _, ⟨num, rfl⟩, h⟩ := h
  refine ⟨(Expr.num_some num).1, ?_⟩
  split at h
  · simp only [bind_eq_some, lift_eq_some, getCachedExpr_some] at h
    obtain ⟨base, _, ⟨ds, hlook, rfl⟩, fixed, rfl⟩ := h
    exact .inr ⟨by omega, base, ds, hlook, rfl, fixed⟩
  split at h
  next one =>
    obtain ⟨rfl, rfl⟩ := pure_eq_some.mp h
    exact .inl ⟨by omega, rfl, .inl ⟨one, rfl⟩⟩
  · obtain ⟨rfl, rfl⟩ := pure_eq_some.mp h
    exact .inl ⟨by omega, rfl, .inr num⟩

end Inversion

/-! ## Leaves and casts -/

section Casts

variable {info : Nat → LabelInfo} {l : Nat} {base e : Expr Name} {bits : Expr Name}

lemma den_integer (ne : l ≠ 0) (ordered : Ordered info l)
    (integer : isInteger (info l).op = true) (inp : Input) :
    den info inp l = applyOp (info l).op (info l).size (width1 info (info l)) (info l).op2
      (operand1 info (den info inp) (info l)) (operand2 info (den info inp) (info l)) %
        2 ^ width (info l) := by
  have notInput : (info l).op ≠ .input := by
    intro op
    rw [op] at integer
    cases integer
  have notLoad : (info l).op ≠ .load := by
    intro op
    rw [op] at integer
    cases integer
  rw [den_eq info inp ne ordered, evalRecord, if_neg notInput, if_neg notLoad, if_pos integer]

lemma WellTyped.width_lt (wt : WellTyped info l) : width (info l) < 2 ^ 16 := by
  have small := wt.root.2.2.2
  simp only [width]
  split <;> omega

lemma asBits_some (h : asBits base = some bits) :
    bits.sort = .bv base.width ∧ ∀ env, bits.value env = base.value env := by
  simp only [asBits] at h
  split at h
  next bool =>
    obtain ⟨_, hone, h⟩ := bind_eq_some_iff.mp h
    obtain ⟨_, hzero, h⟩ := bind_eq_some_iff.mp h
    obtain ⟨_, sort1, value1⟩ := Expr.num_some hone
    obtain ⟨_, _, value0⟩ := Expr.num_some hzero
    obtain ⟨_, _, sort, value⟩ := Expr.ite_some h
    have wide : base.width = 1 := by simp only [Expr.width, bool, Srt.width]
    refine ⟨by rw [sort, sort1, wide], fun env => ?_⟩
    have lt := base.value_lt env
    rw [wide] at lt
    rw [value, value1, value0]
    split <;> omega
  next w bv =>
    cases h
    exact ⟨by simp only [Expr.width, bv, Srt.width], fun env => rfl⟩

lemma input_represents (wt : WellTyped info l) (op : (info l).op = .input) :
    Represents info (Expr.const (.input ((info l).op2 % 2 ^ 32) ((info l).op1 % 2 ^ 32)) 8) l := by
  obtain ⟨ne, ordered, typed, _⟩ := wt.root
  simp only [Typed, op] at typed
  have wide : width (info l) = 8 := by simp only [width, op, typed.2.2]
  refine ⟨wide.symm, fun inp env agrees => ?_⟩
  rw [Expr.const_value, agrees, den_eq info inp ne ordered, wide]
  simp [evalRecord, op, inputByte]

lemma loadBytes_some {input offset n : Nat} (small : offset < 2 ^ 32)
    (h : loadBytes input offset n = some e) :
    e.sort = .bv (8 * (n + 1)) ∧ ∀ inp env, Agrees inp env →
      e.value env = word (fun i => (inp.byte input ((offset + i) % 2 ^ 32)).toNat) (n + 1) := by
  induction n generalizing e with
  | zero =>
    cases h
    refine ⟨rfl, fun inp env agrees => ?_⟩
    have byte := (inp.byte input offset).isLt
    rw [Expr.const_value, agrees, word_one, Nat.add_zero, Nat.mod_eq_of_lt small]
    exact Nat.mod_eq_of_lt byte
  | succ n ih =>
    obtain ⟨_, previous, h⟩ := bind_eq_some_iff.mp h
    obtain ⟨sort, value⟩ := ih previous
    obtain ⟨w, _, sort1, sort2, sort3, joined⟩ := Expr.concat_some h
    cases sort1
    cases sort2.symm.trans sort
    refine ⟨sort3.trans (by congr 1; omega), fun inp env agrees => ?_⟩
    have byte := (inp.byte input ((offset + (n + 1)) % 2 ^ 32)).isLt
    rw [joined, value inp env agrees, Expr.const_value, agrees, word_succ _ (n + 1),
      Nat.mod_eq_of_lt byte, two_pow_mul_eight]

lemma load_represents (wt : WellTyped info l) (op : (info l).op = .load)
    (h : loadBytes ((info (info l).l1).op2 % 2 ^ 32) ((info (info l).l1).op1 % 2 ^ 32)
      ((info l).l2 - 1) = some e) : Represents info e l := by
  obtain ⟨ne, ordered, typed, _⟩ := wt.root
  simp only [Typed, op] at typed
  obtain ⟨_, _, _, size⟩ := typed
  obtain ⟨sort, value⟩ := loadBytes_some (Nat.mod_lt _ (by decide)) h
  have count : (info l).l2 - 1 + 1 = (info l).l2 := by omega
  rw [count] at sort value
  have wide : width (info l) = 8 * (info l).l2 := by simp only [width, op, size]
  refine ⟨by rw [wide, Expr.width, sort, Srt.width], fun inp env agrees => ?_⟩
  rw [value inp env agrees, den_eq info inp ne ordered, wide, two_pow_mul_eight]
  simp only [evalRecord, op, reduceCtorEq, if_false, if_true]
  rw [Nat.mod_eq_of_lt (word_lt fun i _ => inputByte_lt inp _ _)]
  apply word_congr
  simp [inputByte]

lemma operand1_symbolic {r : LabelInfo} (symbolic : r.l1 ≠ 0) (val : Nat → Nat) :
    operand1 info val r = val r.l1 :=
  if_neg symbolic

lemma bv_width {w k : Nat} (operand : Represents info base k) (sort : base.sort = .bv w) :
    w = width (info k) := by
  have wide := operand.wide
  simpa only [Expr.width, sort, Srt.width] using wide

variable (wt : WellTyped info l)

include wt

/-- A cast is represented by an expression of its size with the value of the operation. -/
lemma represents_of_value (cast : IsCast (info l).op) (operand : Represents info base (info l).l1)
    (sort : e.sort = .bv (info l).size)
    (value : ∀ env y, base.value env < 2 ^ width (info (info l).l1) → e.value env =
      applyOp (info l).op (info l).size (width1 info (info l)) (info l).op2 (base.value env) y %
        2 ^ (info l).size) : Represents info e l := by
  obtain ⟨ne, ordered, typed, _⟩ := wt.root
  have fields : isInteger (info l).op ∧ (info l).l1 ≠ 0 ∧ width (info l) = (info l).size := by
    rcases cast with op | op | op | op <;>
      (simp only [Typed, op] at typed; exact ⟨by rw [op]; rfl, typed.1, by simp only [width, op]⟩)
  obtain ⟨integer, symbolic, wide⟩ := fields
  refine ⟨by rw [wide, Expr.width, sort, Srt.width], fun inp env agrees => ?_⟩
  have same := operand.value inp env agrees
  rw [value env _ (same ▸ den_lt info inp _), same, den_integer ne ordered integer,
    operand1_symbolic symbolic, wide]

lemma zext_represents (op : (info l).op = .zext) (operand : Represents info base (info l).l1)
    (asBits : asBits base = some bits) (made : bits.zext (info l).size = some e) :
    Represents info e l := by
  have typed := wt.root.2.2.1
  simp only [Typed, op] at typed
  obtain ⟨_, same⟩ := asBits_some asBits
  obtain ⟨w, _, _, sort, kept⟩ := Expr.zext_some made
  refine represents_of_value wt (.inl op) operand sort fun env y lt => ?_
  simp only [op, applyOp, Nat.mod_mod, kept, same]
  exact (Nat.mod_eq_of_lt (lt.trans_le (Nat.pow_le_pow_right (by decide) typed.2.2))).symm

lemma sext_represents (op : (info l).op = .sext) (operand : Represents info base (info l).l1)
    (made : base.sext (info l).size = some e) :
    Represents info e l := by
  have typed := wt.root.2.2.1
  simp only [Typed, op] at typed
  obtain ⟨w, sort0, _, sort, signed⟩ := Expr.sext_some made
  have wide1 : width1 info (info l) = w := by
    rw [width1, if_neg typed.1, bv_width operand sort0]
  refine represents_of_value wt (.inr (.inl op)) operand sort fun env y _ => ?_
  rw [signed, wide1, op]
  exact (Nat.mod_eq_of_lt (BitVec.isLt _)).symm

lemma extract_represents {low : Nat}
    (op : (info l).op = .trunc ∧ low = 0 ∨ (info l).op = .extract ∧ low = (info l).op2)
    (operand : Represents info base (info l).l1)
    (made : base.extract ((low + (info l).size + 2 ^ 32 - 1) % 2 ^ 32) (low % 2 ^ 32) = some e) :
    Represents info e l := by
  have typed := wt.root.2.2.1
  have fields : IsCast (info l).op ∧ (info l).l1 ≠ 0 ∧
      low + (info l).size ≤ width (info (info l).l1) := by
    rcases op with ⟨op, rfl⟩ | ⟨op, rfl⟩ <;>
      (simp only [Typed, op] at typed; exact ⟨by simp [IsCast, op], typed.1, by omega⟩)
  obtain ⟨cast, symbolic, _⟩ := fields
  have small := WellTyped.width_lt (wt.first symbolic)
  obtain ⟨w, sort0, -, _, sort, part⟩ := Expr.extract_some made
  have wide0 := bv_width operand sort0
  have length : ((low + (info l).size + 2 ^ 32 - 1) % 2 ^ 32) + 1 - low % 2 ^ 32 =
      (info l).size := by omega
  rw [length, Nat.mod_eq_of_lt (by omega)] at part
  rw [length] at sort
  refine represents_of_value wt cast operand sort fun env y _ => ?_
  rcases op with ⟨op, rfl⟩ | ⟨op, rfl⟩ <;> simp [op, applyOp, part]

lemma cast_represents (cast : IsCast (info l).op) (operand : Represents info base (info l).l1)
    (made : castOf (info l) base = some (some e)) :
    Represents info e l := by
  rcases cast with op | op | op | op
  · simp only [castOf, op] at made
    obtain ⟨_, asBits, made⟩ := bind_eq_some_iff.mp made
    obtain ⟨_, extended, ⟨⟩⟩ := map_eq_some_iff.mp made
    exact zext_represents wt op operand asBits extended
  · simp only [castOf, op] at made
    obtain ⟨_, extended, ⟨⟩⟩ := map_eq_some_iff.mp made
    exact sext_represents wt op operand extended
  · simp only [castOf, op] at made
    obtain ⟨_, cut, ⟨⟩⟩ := map_eq_some_iff.mp made
    refine extract_represents wt (.inl ⟨op, rfl⟩) operand ?_
    rwa [Nat.zero_add]
  · simp only [castOf, op] at made
    obtain ⟨_, cut, ⟨⟩⟩ := map_eq_some_iff.mp made
    exact extract_represents wt (.inr ⟨op, rfl⟩) operand cut

lemma not_represents (op : (info l).op = .not) (operand : Represents info base (info l).l2)
    (made : base.lnot.map some = some (some e)) :
    Represents info e l := by
  obtain ⟨ne, ordered, typed, _⟩ := wt.root
  simp only [Typed, op] at typed
  obtain ⟨_, symbolic, size, wide2⟩ := typed
  obtain ⟨_, negated, ⟨⟩⟩ := map_eq_some_iff.mp made
  obtain ⟨_, sort, value⟩ := Expr.lnot_some negated
  have wide : width (info l) = 1 := by simp only [width, op, size]
  refine ⟨by rw [wide, Expr.width, sort, Srt.width], fun inp env agrees => ?_⟩
  have lt := den_lt info inp (info l).l2
  rw [wide2] at lt
  rw [value, operand.value inp env agrees, den_integer ne ordered (by rw [op]; rfl) inp, wide,
    operand2, if_neg symbolic]
  simp only [op, applyOp, BitVec.toNat_not, BitVec.toNat_ofNat, size]
  omega

end Casts

/-! ## Operations on two operands -/

section Common

variable {p : Parser} {look : Lookup} {content : Option (Nat → BitVec 8)} {info : Nat → LabelInfo}
  {l const label size w : Nat} {op1 op2 e : Expr Name} {d d' : Deps} {r : LabelInfo}

/-- An expression that stands for an operand of width `w` with value `v`. -/
def Stands (w : Nat) (v : Input → Nat) (e : Expr Name) : Prop :=
  e.width = w ∧ ∀ inp env, Agrees inp env → e.value env = v inp

/-- The cached expressions of the operands are represented. -/
def Known (info : Nat → LabelInfo) (look : Lookup) (label : Nat) : Prop :=
  label ≠ 0 → ∀ e ds, look label = some (e, ds) → Represents info e label

lemma operand_stands (pos : 1 ≤ r.size) (le : r.size ≤ 64) (fits : Fits info label const r.size)
    (known : Known info look label) (h : operand p look r label const r.size d = (some e, d')) :
    Stands r.size (fun inp => if label = 0 then const % 2 ^ r.size else den info inp label) e := by
  obtain ⟨_, ⟨zero, _, made⟩ | ⟨symbolic, base, ds, hlook, _, fixed⟩⟩ := operand_some h
  · simp only [Fits, if_pos zero] at fits
    simp only [if_pos zero]
    rcases made with ⟨one, rfl⟩ | num
    · refine ⟨by rw [one]; rfl, fun inp env _ => ?_⟩
      rw [one] at fits ⊢
      have bit : const = 0 ∨ const = 1 := by omega
      rcases bit with rfl | rfl <;> rfl
    · obtain ⟨_, sort, value⟩ := Expr.num_some num
      exact ⟨by rw [Expr.width, sort, Srt.width], fun inp env _ => value env⟩
  · simp only [Fits, if_neg symbolic] at fits
    simp only [if_neg symbolic]
    have rep := known symbolic base ds hlook
    have same : e = p.simplify.run base := by
      simp only [fixSize, Simplifier.sort_run] at fixed
      split at fixed
      · exact (Option.some.inj fixed).symm
      next w sort =>
        have wide := bv_width rep sort
        have byte : w % 256 = r.size := by rw [wide, fits]; exact Nat.mod_eq_of_lt (by omega)
        simp only [byte, Nat.lt_irrefl, if_false, ite_self] at fixed
        exact (Option.some.inj fixed).symm
    rw [same]
    refine ⟨?_, fun inp env agrees => ?_⟩
    · rw [Expr.width, Simplifier.sort_run]
      exact rep.wide.trans fits
    · rw [Simplifier.value_run]
      exact rep.value inp env agrees

section Values

variable {w : Nat} {v1 v2 : Input → Nat} {op : Arith}

/-- The inputs with the environments that agree with them. -/
def Agreeing : Type := { pair : Input × (Name → Nat) // Agrees pair.1 pair.2 }

lemma stands_iff_means {v : Input → Nat} :
    Stands w v e ↔ Means (fun pair : Agreeing => pair.1.2) w (fun pair => v pair.1.1) e := by
  constructor
  · rintro ⟨wide, value⟩
    exact ⟨wide, fun pair => value _ _ pair.2⟩
  · rintro ⟨wide, value⟩
    exact ⟨wide, fun inp env agrees => value ⟨(inp, env), agrees⟩⟩

lemma overArith_some (h : overArith op op1 op2 = some (some e)) : op1.arith op op2 = some e := by
  simp only [overArith] at h
  split at h
  · obtain ⟨_, made, ⟨⟩⟩ := map_eq_some_iff.mp h
    exact made
  · cases h

lemma overOrder_some {op : Order} (h : overOrder op op1 op2 = some (some e)) :
    op1.order op op2 = some e := by
  simp only [overOrder] at h
  split at h
  · obtain ⟨_, made, ⟨⟩⟩ := map_eq_some_iff.mp h
    exact made
  · cases h

variable (s1 : Stands w v1 op1) (s2 : Stands w v2 op2) {logic : Logic}

include s1 s2

lemma arith_stands (h : op1.arith op op2 = some e) :
    Stands w (fun inp =>
      (op.eval (BitVec.ofNat w (v1 inp)) (BitVec.ofNat w (v2 inp))).toNat) e :=
  stands_iff_means.mpr ((stands_iff_means.mp s1).arith (stands_iff_means.mp s2) h)

lemma order_stands {op : Order} (h : op1.order op op2 = some e) :
    Stands 1 (fun inp =>
      (op.eval (BitVec.ofNat w (v1 inp)) (BitVec.ofNat w (v2 inp))).toNat) e :=
  stands_iff_means.mpr ((stands_iff_means.mp s1).order (stands_iff_means.mp s2) h)

/-- On one bit the logical and the bitwise operation agree. -/
lemma logic_stands
    (same : ∀ a b : Bool, logic.eval a b =
      ((op.eval (BitVec.ofNat 1 a.toNat) (BitVec.ofNat 1 b.toNat)).toNat == 1))
    (h : op1.logic logic op2 = some e) :
    Stands w (fun inp =>
      (op.eval (BitVec.ofNat w (v1 inp)) (BitVec.ofNat w (v2 inp))).toNat) e :=
  stands_iff_means.mpr (.logic same (stands_iff_means.mp s1) (stands_iff_means.mp s2) h)

lemma overBits_stands
    (same : ∀ a b : Bool, logic.eval a b =
      ((op.eval (BitVec.ofNat 1 a.toNat) (BitVec.ofNat 1 b.toNat)).toNat == 1))
    (h : overBits logic op op1 op2 = some (some e)) :
    Stands w (fun inp =>
      (op.eval (BitVec.ofNat w (v1 inp)) (BitVec.ofNat w (v2 inp))).toNat) e := by
  simp only [overBits] at h
  split at h
  · obtain ⟨_, made, ⟨⟩⟩ := map_eq_some_iff.mp h
    exact logic_stands s1 s2 same made
  · obtain ⟨_, made, ⟨⟩⟩ := map_eq_some_iff.mp h
    exact arith_stands s1 s2 made

lemma getCmd_stands {q : Predicate} (h : getCmd op1 op2 q = some (some e)) :
    Stands 1 (fun inp =>
      (compare q (BitVec.ofNat w (v1 inp)) (BitVec.ofNat w (v2 inp))).toNat) e := by
  cases q with
  | bveq =>
    obtain ⟨_, made, ⟨⟩⟩ := map_eq_some_iff.mp h
    exact stands_iff_means.mpr ((stands_iff_means.mp s1).equal (stands_iff_means.mp s2) made)
  | bvneq =>
    obtain ⟨_, made, ⟨⟩⟩ := map_eq_some_iff.mp h
    exact stands_iff_means.mpr ((stands_iff_means.mp s1).distinct (stands_iff_means.mp s2) made)
  | bvugt | bvuge | bvult | bvule =>
    obtain ⟨_, made, ⟨⟩⟩ := map_eq_some_iff.mp h
    exact order_stands s1 s2 made
  | bvsgt | bvsge | bvslt | bvsle => exact order_stands s1 s2 (overOrder_some h)
  | other c => cases h

end Values

lemma common_stands {v1 v2 : Input → Nat} (same : isSameWidth r.op = true)
    (s1 : Stands r.size v1 op1) (s2 : Stands r.size v2 op2) (w1 : Nat)
    (h : common r op1 op2 = some (some e)) :
    Stands (width r) (fun inp => applyOp r.op r.size w1 r.op2 (v1 inp) (v2 inp)) e := by
  have andBits : ∀ a b : Bool, Logic.and.eval a b =
      ((Arith.and.eval (BitVec.ofNat 1 a.toNat) (BitVec.ofNat 1 b.toNat)).toNat == 1) := by decide
  have orBits : ∀ a b : Bool, Logic.or.eval a b =
      ((Arith.or.eval (BitVec.ofNat 1 a.toNat) (BitVec.ofNat 1 b.toNat)).toNat == 1) := by decide
  have xorBits : ∀ a b : Bool, Logic.xor.eval a b =
      ((Arith.xor.eval (BitVec.ofNat 1 a.toNat) (BitVec.ofNat 1 b.toNat)).toNat == 1) := by decide
  cases hop : r.op <;> simp only [hop, isSameWidth, Bool.false_eq_true] at same <;>
    simp only [common, hop] at h <;> simp only [width, hop]
  case and =>
    split at h
    · exact overBits_stands s1 s2 andBits h
    · obtain ⟨_, made, ⟨⟩⟩ := map_eq_some_iff.mp h
      exact logic_stands s1 s2 andBits made
  case or =>
    split at h
    · exact overBits_stands s1 s2 orBits h
    · obtain ⟨_, made, ⟨⟩⟩ := map_eq_some_iff.mp h
      exact logic_stands s1 s2 orBits made
  case xor => exact overBits_stands s1 s2 xorBits h
  case add | sub | mul | sdiv => exact arith_stands s1 s2 (overArith_some h)
  case icmp q => exact getCmd_stands s1 s2 h
  all_goals
    obtain ⟨_, made, ⟨⟩⟩ := map_eq_some_iff.mp h
    exact arith_stands s1 s2 made

/-- What the translation of a label needs to know about the labels before it. -/
structure Prior (info : Nat → LabelInfo) (look : Lookup) (label : Nat) : Prop where
  known : Known info look label
  bool : label ≠ 0 → ∀ e ds, look label = some (e, ds) → isIcmp (info label).op = true →
    e.sort = .bool

lemma isCommon_of_sameWidth {op : Operator} (same : isSameWidth op = true) :
    isCommon op = true := by
  cases op <;> first | rfl | cases same

lemma sameWidth_represents (wt : WellTyped p.info l) (same : isSameWidth (p.info l).op = true)
    (sized : SameWidth p.info (p.info l)) (known1 : Known p.info look (p.info l).l1)
    (known2 : Known p.info look (p.info l).l2)
    (h : translate p look content l ∅ = (some (some e), d)) : Represents p.info e l := by
  obtain ⟨_, _, _, _, _, const1, first, const2, second, made⟩ :=
    translate_common (isCommon_of_sameWidth same) h
  obtain ⟨ne, ordered, _, _⟩ := wt.root
  have notConcat : (p.info l).op ≠ .concat := by
    intro op
    rw [op] at same
    cases same
  have integer : isInteger (p.info l).op = true := by
    cases hop : (p.info l).op <;> rw [hop] at same <;> first | rfl | cases same
  obtain ⟨pos, le, fits1, fits2⟩ := sized
  simp only [constSize, notConcat, false_and, if_false, Option.some.injEq] at const1 const2
  subst const2
  rw [Nat.mod_eq_of_lt (by omega)] at const1
  subst const1
  have s1 := operand_stands pos le fits1 known1 first
  have s2 := operand_stands pos le fits2 known2 second
  have result := common_stands same s1 s2 (width1 p.info (p.info l)) made
  refine ⟨result.1, fun inp env agrees => ?_⟩
  have value := result.2 inp env agrees
  have bound := e.value_lt env
  rw [result.1] at bound
  obtain ⟨first1, first2⟩ := operands_plain p.info (den p.info inp) notConcat
  rw [value] at bound
  rw [den_integer ne ordered integer inp, first1, first2, value]
  exact (Nat.mod_eq_of_lt bound).symm

/-- An operand of a Concat is a bit-vector: the constant at its size or the cached one. -/
lemma concat_operand (op : r.op = .concat)
    (h : operand p look r label const size d = (some e, d')) (sort : e.sort = .bv w) :
    (label = 0 ∧ w = size ∧ ∀ env, e.value env = const % 2 ^ size) ∨
      (label ≠ 0 ∧ ∃ base ds, look label = some (base, ds) ∧ base.sort = .bv w ∧
        ∀ env, e.value env = base.value env) := by
  obtain ⟨_, ⟨zero, _, made⟩ | ⟨symbolic, base, ds, hlook, _, fixed⟩⟩ := operand_some h
  · rcases made with ⟨_, rfl⟩ | num
    · cases sort
    · obtain ⟨_, sort', value⟩ := Expr.num_some num
      cases sort'.symm.trans sort
      exact .inl ⟨zero, rfl, value⟩
  · have same : e = p.simplify.run base := by
      simp only [fixSize, op] at fixed
      split at fixed
      all_goals exact (Option.some.inj fixed).symm
    subst same
    rw [Simplifier.sort_run] at sort
    exact .inr ⟨symbolic, base, ds, hlook, sort, fun env => Simplifier.value_run _ _ _⟩

lemma size_of_bv {k : Nat} {base : Expr Name} {ds : Deps} (wt : WellTyped info k)
    (prior : Prior info look k) (hlook : look k = some (base, ds)) (sort : base.sort = .bv w) :
    (info k).size = w ∧ width (info k) = w := by
  obtain ⟨ne, _, typed, _⟩ := wt.root
  have wide := bv_width (prior.known ne base ds hlook) sort
  have notIcmp : ∀ q, (info k).op ≠ .icmp q := by
    intro q op
    have bool := prior.bool ne base ds hlook (by rw [op]; rfl)
    cases bool.symm.trans sort
  have notMemcmp : (info k).op ≠ .fmemcmp := by
    intro op
    simp [Typed, op, isSameWidth] at typed
  have field : width (info k) = (info k).size := by
    cases op : (info k).op with
    | icmp q => exact absurd op (notIcmp q)
    | fmemcmp => exact absurd op notMemcmp
    | _ => simp only [width]
  exact ⟨by rw [← field, wide], wide.symm⟩

lemma concat_width {other wide : Nat} (op : r.op = .concat)
    (labelTyped : label ≠ 0 → WellTyped p.info label) (prior : Prior p.info look label)
    (otherSize : label = 0 → (p.info other).size ≤ r.size ∧ wide = r.size - (p.info other).size)
    (otherWide : label ≠ 0 → wide = width (p.info label)) {given : Nat}
    (const0 : constSize p r label other given = some size)
    (h : operand p look r label const size d = (some e, d')) (sort : e.sort = .bv w) :
    w = (if label = 0 then wide % 256 else wide) ∧
      ∀ inp env, Agrees inp env → e.value env =
        if label = 0 then const % 2 ^ w else den p.info inp label := by
  rcases concat_operand op h sort with
    ⟨zero, rfl, value⟩ | ⟨symbolic, base, ds, hlook, sort', value⟩
  · simp only [constSize, op, zero] at const0
    obtain ⟨o, hinfo, rfl⟩ := map_eq_some_iff.mp const0
    cases getLabelInfo_some hinfo
    rw [if_pos zero]
    refine ⟨by omega, fun inp env _ => ?_⟩
    rw [if_pos zero]
    exact value env
  · rw [if_neg symbolic, otherWide symbolic]
    refine ⟨(size_of_bv (labelTyped symbolic) prior hlook sort').2.symm, fun inp env agrees => ?_⟩
    rw [if_neg symbolic, value]
    exact (prior.known symbolic base ds hlook).value inp env agrees

/-- A Concat of represented operands is represented if and only if its constant
operand has fewer than 256 bits. -/
lemma concat_represents_iff (wt : WellTyped p.info l) (op : (p.info l).op = .concat)
    (prior1 : Prior p.info look (p.info l).l1) (prior2 : Prior p.info look (p.info l).l2)
    (h : translate p look content l ∅ = (some (some e), d)) :
    ConstantFits p.info (p.info l) ↔ Represents p.info e l := by
  obtain ⟨_, _, _, _, _, const1, first, const2, second, made⟩ :=
    translate_common (by rw [op]; rfl) h
  obtain ⟨ne, ordered, typed, _⟩ := wt.root
  simp only [Typed, op] at typed
  obtain ⟨symbolic, _, _, _⟩ := typed
  simp only [common, op] at made
  obtain ⟨_, joined, ⟨⟩⟩ := map_eq_some_iff.mp made
  obtain ⟨w2, w1, sort2, sort1, sort, value⟩ := Expr.concat_some joined
  have wt1 : (p.info l).l1 ≠ 0 → WellTyped p.info (p.info l).l1 := wt.first
  have wt2 : (p.info l).l2 ≠ 0 → WellTyped p.info (p.info l).l2 := fun h =>
    wt.second h (by rw [op]; decide)
  have field1 : (p.info l).l1 ≠ 0 →
      (p.info (p.info l).l1).size = width (p.info (p.info l).l1) := by
    intro h
    rcases concat_operand op first sort1 with ⟨zero, _⟩ | ⟨_, base, ds, hlook, sort', _⟩
    · exact absurd zero h
    · have both := size_of_bv (wt1 h) prior1 hlook sort'
      exact both.1.trans both.2.symm
  have field2 : (p.info l).l2 ≠ 0 →
      (p.info (p.info l).l2).size = width (p.info (p.info l).l2) := by
    intro h
    rcases concat_operand op second sort2 with ⟨zero, _⟩ | ⟨_, base, ds, hlook, sort', _⟩
    · exact absurd zero h
    · have both := size_of_bv (wt2 h) prior2 hlook sort'
      exact both.1.trans both.2.symm
  -- a constant takes what the size field of the other operand leaves
  have rest1 : (p.info l).l1 = 0 → (p.info (p.info l).l2).size ≤ (p.info l).size ∧
      width1 p.info (p.info l) = (p.info l).size - (p.info (p.info l).l2).size := by
    intro zero
    have h : (p.info l).l2 ≠ 0 := symbolic.resolve_left (fun no => no zero)
    have w2eq : width2 p.info (p.info l) = width (p.info (p.info l).l2) := if_neg h
    omega
  have rest2 : (p.info l).l2 = 0 → (p.info (p.info l).l1).size ≤ (p.info l).size ∧
      width2 p.info (p.info l) = (p.info l).size - (p.info (p.info l).l1).size := by
    intro zero
    have h : (p.info l).l1 ≠ 0 := symbolic.resolve_right (fun no => no zero)
    have w1eq : width1 p.info (p.info l) = width (p.info (p.info l).l1) := if_neg h
    omega
  have left := concat_width op wt1 prior1 rest1 (fun h => if_neg h) const1 first sort1
  have right := concat_width op wt2 prior2 rest2 (fun h => if_neg h) const2 second sort2
  have wide : width (p.info l) = (p.info l).size := by simp only [width, op]
  constructor
  · intro fits
    obtain ⟨_, _⟩ := fits op
    have w1eq : w1 = width1 p.info (p.info l) := by
      have := left.1
      split at this
      next zero =>
        omega
      · exact this
    have w2eq : w2 = width2 p.info (p.info l) := by
      have := right.1
      split at this
      next zero =>
        omega
      · exact this
    refine ⟨by rw [wide, Expr.width, sort, Srt.width]; omega, fun inp env agrees => ?_⟩
    have bound := e.value_lt env
    rw [Expr.width, sort, Srt.width] at bound
    rw [value, left.2 inp env agrees, right.2 inp env agrees] at bound ⊢
    have sum : w2 + w1 = (p.info l).size := by omega
    rw [den_integer ne ordered (by rw [op]; rfl) inp, wide, operand1, operand2, ← w1eq, ← w2eq,
      ← sum]
    simp only [op]
    exact (Nat.mod_eq_of_lt bound).symm
  · intro rep _
    have total' := rep.wide
    rw [wide, Expr.width, sort, Srt.width] at total'
    have left1 := left.1
    have right1 := right.1
    constructor
    · intro zero
      rw [if_pos zero] at left1
      split at right1 <;> omega
    · intro zero
      rw [if_pos zero] at right1
      split at left1 <;> omega

end Common

/-! ## One entry of the caches -/

section Step

variable {p : Parser} {look : Lookup} {content : Option (Nat → BitVec 8)} {l : Nat}
  {m : Option (Expr Name)} {e : Expr Name} {d : Deps}

lemma step_represents_iff (wt : WellTyped p.info l) (prior1 : Prior p.info look (p.info l).l1)
    (prior2 : (p.info l).op ≠ .load → Prior p.info look (p.info l).l2)
    (h : translate p look content l ∅ = (some (some e), d)) :
    ConstantFits p.info (p.info l) ↔ Represents p.info e l := by
  have otherwise : (p.info l).op ≠ .concat → Represents p.info e l →
      (ConstantFits p.info (p.info l) ↔ Represents p.info e l) := by
    intro notConcat rep
    exact ⟨fun _ => rep, fun _ op => absurd op notConcat⟩
  rcases wt.root.2.2.1.cases with op | op | cast | op | op | ⟨same, sized⟩
  · apply otherwise (by rw [op]; decide)
    obtain ⟨made, _⟩ := translate_input op h
    cases made
    exact input_represents wt op
  · apply otherwise (by rw [op]; decide)
    obtain ⟨_, made, ⟨⟩⟩ := map_eq_some_iff.mp (translate_load op h).1
    exact load_represents wt op made
  · have notConcat : (p.info l).op ≠ .concat := by
      rcases cast with op | op | op | op <;> rw [op] <;> decide
    have symbolic : (p.info l).l1 ≠ 0 := by
      have typed := wt.root.2.2.1
      rcases cast with op | op | op | op <;> (simp only [Typed, op] at typed; exact typed.1)
    apply otherwise notConcat
    obtain ⟨base, hlook, made⟩ := translate_cast cast h
    exact cast_represents wt cast (prior1.known symbolic base d hlook) made
  · have typed := wt.root.2.2.1
    simp only [Typed, op] at typed
    apply otherwise (by rw [op]; decide)
    obtain ⟨base, hlook, made⟩ := translate_not op h
    have known := (prior2 (by rw [op]; decide)).known typed.2.1 base d hlook
    exact not_represents wt op known made
  · exact concat_represents_iff wt op prior1 (prior2 (by rw [op]; decide)) h
  · have notLoad : (p.info l).op ≠ .load := by
      intro op
      rw [op] at same
      cases same
    have notConcat : (p.info l).op ≠ .concat := by
      intro op
      rw [op] at same
      cases same
    exact otherwise notConcat
      (sameWidth_represents wt same sized prior1.known (prior2 notLoad).known h)

lemma getCmd_bool {op1 op2 : Expr Name} {q : Predicate}
    (h : getCmd op1 op2 q = some (some e)) : e.sort = .bool := by
  cases q with
  | bveq =>
    obtain ⟨_, made, ⟨⟩⟩ := map_eq_some_iff.mp h
    exact (Expr.equal_some made).2.1
  | bvneq =>
    obtain ⟨_, made, ⟨⟩⟩ := map_eq_some_iff.mp h
    exact (Expr.distinct_some made).2.1
  | bvsgt | bvsge | bvslt | bvsle =>
    obtain ⟨_, _, _, sort, _⟩ := Expr.order_some (overOrder_some h)
    exact sort
  | other c => cases h
  | _ =>
    obtain ⟨_, made, ⟨⟩⟩ := map_eq_some_iff.mp h
    obtain ⟨_, _, _, sort, _⟩ := Expr.order_some made
    exact sort

lemma step_bool (icmp : isIcmp (p.info l).op = true)
    (h : translate p look content l ∅ = (some (some e), d)) : e.sort = .bool := by
  cases hop : (p.info l).op with
  | icmp q =>
    obtain ⟨_, _, _, _, _, _, _, _, _, made⟩ := translate_common (by rw [hop]; rfl) h
    simp only [common, hop] at made
    exact getCmd_bool made
  | _ =>
    rw [hop] at icmp
    cases icmp

lemma operand_deps {r : LabelInfo} {label const size : Nat} {d' : Deps}
    (h : operand p look r label const size d = (some e, d')) (o : Nat × Nat) :
    o ∈ d' ↔ o ∈ d ∨ label ≠ 0 ∧ ∃ base ds, look label = some (base, ds) ∧ o ∈ ds := by
  obtain ⟨_, ⟨zero, rfl, _⟩ | ⟨symbolic, base, ds, hlook, rfl, _⟩⟩ := operand_some h
  · simp [zero]
  rw [Finset.mem_union]
  constructor
  · rintro (old | new)
    · exact .inl old
    · exact .inr ⟨symbolic, base, ds, hlook, new⟩
  rintro (old | ⟨_, base', ds', hlook', new⟩)
  · exact .inl old
  · rw [hlook] at hlook'
    cases hlook'
    exact .inr new

lemma step_operands (wt : WellTyped p.info l) (notLoad : (p.info l).op ≠ .load)
    (h : translate p look content l ∅ = (some m, d)) :
    (((p.info l).l1 ≠ 0 → ∃ entry, look (p.info l).l1 = some entry) ∧
      ((p.info l).l2 ≠ 0 → ∃ entry, look (p.info l).l2 = some entry)) ∧
    ((p.info l).op ≠ .input → ∀ o, o ∈ d ↔
      ((p.info l).l1 ≠ 0 ∧ ∃ e ds, look (p.info l).l1 = some (e, ds) ∧ o ∈ ds) ∨
        ((p.info l).l2 ≠ 0 ∧ ∃ e ds, look (p.info l).l2 = some (e, ds) ∧ o ∈ ds)) := by
  have typed := wt.root.2.2.1
  have ofOperand : ∀ {r : LabelInfo} {label const size : Nat} {e : Expr Name} {d d' : Deps},
      operand p look r label const size d = (some e, d') → label ≠ 0 →
        ∃ entry, look label = some entry := by
    intro r label const size e d d' hop symbolic
    obtain ⟨_, ⟨zero, _⟩ | ⟨_, base, _, hlook, _⟩⟩ := operand_some hop
    · exact absurd zero symbolic
    · exact ⟨_, hlook⟩
  by_cases common : isCommon (p.info l).op = true
  · obtain ⟨_, _, _, _, _, _, first, _, second, _⟩ := translate_common common h
    refine ⟨⟨ofOperand first, ofOperand second⟩, fun _ o => ?_⟩
    rw [operand_deps second, operand_deps first]
    simp
  rcases typed.cases with op | op | cast | op | op | ⟨same, _⟩
  · simp only [Typed, op] at typed
    exact ⟨⟨fun no => absurd typed.1 no, fun no => absurd typed.2.1 no⟩, fun no => absurd op no⟩
  · exact absurd op notLoad
  · have fields : (p.info l).l1 ≠ 0 ∧ (p.info l).l2 = 0 := by
      rcases cast with op | op | op | op <;>
        (simp only [Typed, op] at typed; exact ⟨typed.1, typed.2.1⟩)
    obtain ⟨_, hlook, _⟩ := translate_cast cast h
    simp [fields.1, fields.2, hlook]
  · simp only [Typed, op] at typed
    obtain ⟨_, hlook, _⟩ := translate_not op h
    simp [typed.1, typed.2.1, hlook]
  · exact absurd (by rw [op]; rfl) common
  · exact absurd (isCommon_of_sameWidth same) common

end Step

end Z3Soundness
