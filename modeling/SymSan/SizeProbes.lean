import SymSan.PinnedLabels
import SymSan.StackFrames

/-!
# Probes against a symbolic allocation size and against null

When the size of the allocation is symbolic, `__taint_solve_bounds` builds the label of
`index * elem_size + offset` step by step and compares it with the size label; for a pointer
without bounds it compares the pointer with null. Labels, values and opcodes are plain
integers to it. The label of the sum is followed through the unions, with what they simplify,
up to the condition that is reported.
-/

namespace SizeProbes

open LabelTable Denotation TableGrowth TaintUnion RuntimeOps PinnedLabels

/-! ## Operands and what they stand for -/

/-- A label with its concrete value. The runtime computes with bounds labels as with
constants. -/
def valueOf (s : Runtime) (inp : Input) (k c : Nat) : Nat :=
  if k = 0 ∨ (s.info k).op = .alloca then c else den s.info inp k

/-- A held label that stands for a 64-bit number depending on the input. -/
structure Carries (s : Runtime) (k c : Nat) (f : Input → Nat) : Prop where
  held : k ≤ s.last ∨ StackBounds s k
  initialized : k ≠ kInitializingLabel
  value : ∀ inp, valueOf s inp k c % 2 ^ 64 = f inp

/-- The table has grown in order and nothing was reported. -/
structure Onward (s s' : Runtime) : Prop where
  table : Topological s'
  ext : Extends s s'
  conds : s'.conds = s.conds

lemma Onward.refl {s : Runtime} (topo : Topological s) : Onward s s :=
  ⟨topo, .refl s, rfl⟩

lemma Onward.trans {s s' s'' : Runtime} (first : Onward s s') (second : Onward s' s'') :
    Onward s s'' :=
  ⟨second.table, first.ext.trans second.ext, second.conds.trans first.conds⟩

section Unions

variable {fl : Flags} {mem : Nat → Nat} {s s' : Runtime} {k l c e : Nat} {f : Input → Nat}
  {op : Operator}

lemma Carries.cases (carries : Carries s k c f) :
    (k = 0 ∨ (s.info k).op = .alloca) ∨ Plain s k := by
  by_cases bounds : (s.info k).op = .alloca
  · exact .inl (.inr bounds)
  rcases carries.held with le | stack
  · by_cases zero : k = 0
    · exact .inl (.inl zero)
    · exact .inr ⟨by omega, le, bounds⟩
  · exact absurd stack.2 bounds

section

variable (arith : op = .zext ∨ op = .mul ∨ op = .add) (topo : Topological s)
  (concrete : k = 0 ∨ (s.info k).op = .alloca) (init : k ≠ kInitializingLabel)

include arith topo concrete init

lemma prepare_concrete : prepare mem s op 64 ⟨k, 0, c, e⟩ = .ret 0 := by
  have zero := topo.const_not_bounds
  rcases concrete with rfl | bounds
  · rcases arith with rfl | rfl | rfl
    all_goals simp [prepare, orderOperands, earlyReturn]
  have nonzero : k ≠ 0 := by
    rintro rfl
    exact zero bounds
  have pos : 0 < k := Nat.pos_of_ne_zero nonzero
  rcases arith with rfl | rfl | rfl
  all_goals simp [prepare, orderOperands, isCommutative, earlyReturn, Operator.low, Operator.code,
    pos, init, zero_ne_initializing, bounds]

lemma taintUnion_concrete (run : taintUnion fl mem s op 64 ⟨k, 0, c, e⟩ = some (l, s')) :
    l = 0 ∧ s' = s := by
  simp only [taintUnion, prepare_concrete arith topo concrete init, Option.some.injEq,
    Prod.mk.injEq] at run
  exact ⟨run.1.symm, run.2.symm⟩

end

lemma Carries.constant (s : Runtime) (c : Nat) (same : ∀ inp, c % 2 ^ 64 = f inp) :
    Carries s 0 c f := by
  refine ⟨.inl (Nat.zero_le _), by decide, fun inp => ?_⟩
  exact same inp

lemma Carries.answered {key : LabelInfo} (topo : Topological s) (first : key.l1 ≤ s.last)
    (second : key.l2 ≤ s.last) (wide : width key = 64) (kind : key.op ≠ .alloca)
    (answer : Answer s key l s') (c : Nat)
    (same : ∀ inp, evalRecord s.info (den s.info inp) inp l key % 2 ^ 64 = f inp) :
    Onward s s' ∧ Carries s' l c f := by
  have topo' := answer.topological topo first second
  have room := topo'.room
  have top := topo'.top
  have plain := Plain.of_answer answer kind
  have pos := plain.pos
  have le := plain.le
  refine ⟨⟨topo', answer.ext, answer.conds⟩, .inl le, by omega, fun inp => ?_⟩
  have symbolic : ¬ (l = 0 ∨ (s'.info l).op = .alloca) := by
    rintro (zero | bounds)
    · omega
    · exact plain.notBounds bounds
  have value := (topo'.den_of_fields answer.ext pos le answer.fields first fun _ => second).2 inp
  rw [wide] at value
  rw [valueOf, if_neg symbolic, value, Nat.mod_mod, same inp]

lemma Carries.plain_value (carries : Carries s k c f) (plain : Plain s k) (inp : Input) :
    den s.info inp k % 2 ^ 64 = f inp := by
  have pos := plain.pos
  have symbolic : ¬ (k = 0 ∨ (s.info k).op = .alloca) := by
    rintro (zero | bounds)
    · omega
    · exact plain.notBounds bounds
  have value := carries.value inp
  rwa [valueOf, if_neg symbolic] at value

lemma Carries.concrete_value (carries : Carries s k c f)
    (concrete : k = 0 ∨ (s.info k).op = .alloca) (inp : Input) : c % 2 ^ 64 = f inp := by
  have value := carries.value inp
  rwa [valueOf, if_pos concrete] at value

lemma Carries.extend (topo : Topological s) (carries : Carries s k c f)
    (run : taintUnion fl mem s .zext 64 ⟨k, 0, c, 0⟩ = some (l, s')) :
    Onward s s' ∧ Carries s' l c f := by
  rcases carries.cases with concrete | plain
  · obtain ⟨rfl, rfl⟩ := taintUnion_concrete (.inl rfl) topo concrete carries.initialized run
    exact ⟨.refl topo, .constant _ c (carries.concrete_value concrete)⟩
  have answer := taintUnion_answer topo (plain.prepare_zext topo) (show Quiet .zext by decide) run
  refine Carries.answered topo plain.le (Nat.zero_le _) rfl Operator.noConfusion answer c ?_
  intro inp
  have nonzero := plain.ne_zero
  rw [← carries.plain_value plain inp]
  simp [unionKey, evalRecord, isInteger, applyOp, operand1, nonzero]

lemma Plain.prepare_commuted (arith : op = .mul ∨ op = .add) (topo : Topological s)
    (plain : Plain s k) (nonzero : e ≠ 0) :
    prepare mem s op 64 ⟨k, 0, c, e⟩ = .key (unionKey s op 64 ⟨0, k, e, 0⟩) ⟨0, k, e, c⟩ := by
  have pos : 0 < k := plain.pos
  have symbolic := plain.ne_zero
  have init := topo.ne_initializing plain.le
  have zero := topo.const_not_bounds
  rcases arith with rfl | rfl
  all_goals simp [prepare, isValidOp, orderOperands, isCommutative, earlyReturn, Operator.low,
    Operator.code, recordOperands, simplify, simplifyLeft, simplifyRight, simplifyShape, symbolic,
    pos, init, zero_ne_initializing, zero, plain.notBounds, nonzero, Nat.succ_le_of_lt pos]

lemma commuted_value (arith : op = .mul ∨ op = .add) (plain : Plain s k) {inp : Input} :
    evalRecord s.info (den s.info inp) inp l (unionKey s op 64 ⟨0, k, e, 0⟩) =
      applyOp op 64 64 0 (e % 2 ^ 64) (den s.info inp k) := by
  have symbolic := plain.ne_zero
  rcases arith with rfl | rfl
  all_goals simp [unionKey, evalRecord, isInteger, operand1, operand2, width1, constWidth, symbolic]

lemma Plain.prepare_mul_zero (topo : Topological s) (plain : Plain s k) :
    prepare mem s .mul 64 ⟨k, 0, c, 0⟩ = .ret 0 := by
  have pos : 0 < k := plain.pos
  have symbolic := plain.ne_zero
  have init := topo.ne_initializing plain.le
  have zero := topo.const_not_bounds
  simp [prepare, orderOperands, isCommutative, earlyReturn, Operator.low, Operator.code,
    recordOperands, simplify, simplifyLeft, symbolic, pos, init, zero_ne_initializing, zero,
    plain.notBounds]

lemma Carries.scale (topo : Topological s) (carries : Carries s k c f)
    (run : taintUnion fl mem s .mul 64 ⟨k, 0, c, e⟩ = some (l, s')) :
    Onward s s' ∧ Carries s' l (c * e % 2 ^ 64) fun inp => f inp * e % 2 ^ 64 := by
  rcases carries.cases with concrete | plain
  · obtain ⟨rfl, rfl⟩ := taintUnion_concrete (.inr (.inl rfl)) topo concrete carries.initialized run
    refine ⟨.refl topo, .constant _ _ fun inp => ?_⟩
    rw [← carries.concrete_value concrete inp, Nat.mod_mod, Nat.mod_mul_mod]
  by_cases zero : e = 0
  · subst zero
    simp only [taintUnion, Plain.prepare_mul_zero topo plain] at run
    obtain ⟨rfl, rfl⟩ := run
    exact ⟨.refl topo, .constant _ _ fun inp => by simp⟩
  have answer := taintUnion_answer topo (Plain.prepare_commuted (.inl rfl) topo plain zero)
    (show Quiet .mul by decide) run
  refine Carries.answered topo (Nat.zero_le _) plain.le rfl Operator.noConfusion answer _ ?_
  intro inp
  rw [commuted_value (.inl rfl) plain, ← carries.plain_value plain inp]
  simp only [applyOp, BitVec.toNat_mul, BitVec.toNat_ofNat, Nat.mod_mod]
  rw [Nat.mod_mul_mod, Nat.mul_comm]

lemma Carries.shift (topo : Topological s) (carries : Carries s k c f) (nonzero : e ≠ 0)
    (run : taintUnion fl mem s .add 64 ⟨k, 0, c, e⟩ = some (l, s')) :
    Onward s s' ∧ Carries s' l ((c + e) % 2 ^ 64) fun inp => (f inp + e) % 2 ^ 64 := by
  rcases carries.cases with concrete | plain
  · obtain ⟨rfl, rfl⟩ := taintUnion_concrete (.inr (.inr rfl)) topo concrete carries.initialized run
    refine ⟨.refl topo, .constant _ _ fun inp => ?_⟩
    rw [← carries.concrete_value concrete inp, Nat.mod_mod, Nat.mod_add_mod]
  have answer := taintUnion_answer topo
    (Plain.prepare_commuted (.inr rfl) topo plain nonzero) (show Quiet .add by decide) run
  refine Carries.answered topo (Nat.zero_le _) plain.le rfl Operator.noConfusion answer _ ?_
  intro inp
  rw [commuted_value (.inr rfl) plain, ← carries.plain_value plain inp]
  simp only [applyOp, BitVec.toNat_add, BitVec.toNat_ofNat]
  omega

end Unions

/-! ## Conditions -/

/-- A comparison label that is true on exactly the inputs with `P`. -/
structure Denotes (s : Runtime) (l : Nat) (P : Input → Prop) : Prop where
  le : l ≤ s.last
  kind : isIcmp (s.info l).op = true
  ordered : Ordered s.info l
  value : ∀ inp, den s.info inp l = 1 ↔ P inp

lemma denotes_traceCond (s : Runtime) (l m : Nat) (check : UndefinedCheck)
    (P : Input → Prop) : Denotes (s.traceCond m check) l P ↔ Denotes s l P :=
  ⟨fun h => ⟨h.le, h.kind, h.ordered, h.value⟩, fun h => ⟨h.le, h.kind, h.ordered, h.value⟩⟩

lemma Denotes.iff {s : Runtime} {l : Nat} {P Q : Input → Prop} (denotes : Denotes s l P) :
    Denotes s l Q ↔ ∀ inp, (P inp ↔ Q inp) :=
  ⟨fun other inp => (denotes.value inp).symm.trans (other.value inp),
    fun same => ⟨denotes.le, denotes.kind, denotes.ordered,
      fun inp => (denotes.value inp).trans (same inp)⟩⟩

section Comparison

variable {fl : Flags} {mem : Nat → Nat} {s s' : Runtime} {l x z a b : Nat} {P : Input → Prop}

lemma prepare_init (nonzero : z ≠ 0) (init : x = kInitializingLabel ∨ z = kInitializingLabel) :
    prepare mem s (.icmp .bvugt) 64 ⟨x, z, a, b⟩ = .ret kInitializingLabel := by
  have valid : isValidOp (.icmp .bvugt) = true := by decide
  have early : earlyReturn s (.icmp .bvugt) ⟨x, z, a, b⟩ = some kInitializingLabel := by
    simp [earlyReturn, nonzero, init]
  simp [prepare, valid, orderOperands_of_not_commutative (isCommutative_icmp _), early]

lemma prepare_bounds (init : ¬ (x = kInitializingLabel ∨ z = kInitializingLabel))
    (bounds : (s.info x).op = .alloca ∨ (s.info z).op = .alloca) :
    prepare mem s (.icmp .bvugt) 64 ⟨x, z, a, b⟩ = .ret 0 := by
  have early : earlyReturn s (.icmp .bvugt) ⟨x, z, a, b⟩ = some 0 := by
    simp [earlyReturn, init, bounds]
  simp [prepare, orderOperands_of_not_commutative (isCommutative_icmp _), early]

lemma bit_mod_two (b : Bool) : b.toNat % 2 = b.toNat := by
  cases b
  · rfl
  · rfl

lemma comparison_value (x z a b l : Nat) (nonzero : z ≠ 0) (notBounds : (s.info x).op ≠ .alloca)
    (inp : Input) : evalRecord s.info (den s.info inp) inp l
      (unionKey s (.icmp .bvugt) 64 ⟨x, z, a, b⟩) % 2 ^ 1 = 1 ↔
      den s.info inp z % 2 ^ 64 < valueOf s inp x a % 2 ^ 64 := by
  have operand : valueOf s inp x a = if x = 0 then a else den s.info inp x := by
    simp [valueOf, notBounds]
  rw [operand]
  by_cases zero : x = 0
  · simp [unionKey, evalRecord, isInteger, applyOp, Denotation.compare, BitVec.ult, operand1,
      operand2, width1, constWidth, zero, nonzero, bit_mod_two]
  · simp [unionKey, evalRecord, isInteger, applyOp, Denotation.compare, BitVec.ult, operand1,
      operand2, zero, nonzero, bit_mod_two]

/-- The label of a comparison of two labels of the table. -/
lemma denotes_of_answer (topo : Topological s) (nonzero : z ≠ 0)
    (notBounds : (s.info x).op ≠ .alloca) (first : x ≤ s.last) (second : z ≤ s.last)
    (answer : Answer s (unionKey s (.icmp .bvugt) 64 ⟨x, z, a, b⟩) l s') :
    Denotes s' l fun inp => den s.info inp z % 2 ^ 64 < valueOf s inp x a % 2 ^ 64 := by
  obtain ⟨-, -, kind, -⟩ := (sameKey_iff _ _).mp answer.fields
  refine ⟨answer.le, ?_, answer.ordered topo first second, fun inp => ?_⟩
  · rw [kind]
    rfl
  · have fields := (answer.topological topo first second).den_of_fields answer.ext answer.pos
      answer.le answer.fields first fun _ => second
    rw [fields.2 inp, ← comparison_value x z a b l nonzero notBounds inp]
    rfl

lemma compared (topo : Topological s) (nonzero : z ≠ 0) (held : Existing s z)
    (init : z ≠ kInitializingLabel) {f : Input → Nat} (carries : Carries s x a f)
    (run : taintUnion fl mem s (.icmp .bvugt) 64 ⟨x, z, a, b⟩ = some (l, s')) :
    l = 0 ∨ z ≤ s.last ∧ Denotes s' l fun inp => den s.info inp z % 2 ^ 64 < f inp := by
  have ready : ¬ (x = kInitializingLabel ∨ z = kInitializingLabel) :=
    fun either => either.elim carries.initialized init
  by_cases bounds : (s.info x).op = .alloca ∨ (s.info z).op = .alloca
  · simp only [taintUnion, prepare_bounds ready bounds] at run
    exact .inl (congrArg Prod.fst (Option.some.inj run)).symm
  have early : earlyReturn s (.icmp .bvugt) ⟨x, z, a, b⟩ = none := by
    simp [earlyReturn, nonzero, ready, bounds]
  have answer := taintUnion_answer topo (prepare_icmp early) (quiet_icmp _) run
  have first : x ≤ s.last := carries.held.resolve_right fun stack => bounds (.inl stack.2)
  have second : z ≤ s.last :=
    held.resolve_right fun other => other.elim init fun stack => bounds (.inr stack.2)
  have denotes := denotes_of_answer topo nonzero (fun own => bounds (.inl own)) first second answer
  simp only [carries.value] at denotes
  exact .inr ⟨second, denotes⟩

lemma compared_init (topo : Topological s) (nonzero : z ≠ 0) (init : z = kInitializingLabel)
    (run : taintUnion fl mem s (.icmp .bvugt) 64 ⟨x, z, a, b⟩ = some (l, s')) :
    ¬ (l = 0 ∨ Denotes s' l P) := by
  have room := topo.room
  have top := topo.top
  simp only [taintUnion, prepare_init nonzero (.inr init)] at run
  obtain ⟨rfl, rfl⟩ := run
  rintro (zero | denotes)
  · cases zero
  · have le := denotes.le
    omega

lemma compared_conds (topo : Topological s)
    (run : taintUnion fl mem s (.icmp .bvugt) 64 ⟨x, z, a, b⟩ = some (l, s')) :
    s'.conds = s.conds := by
  cases early : earlyReturn s (.icmp .bvugt) ⟨x, z, a, b⟩ with
  | none => exact (taintUnion_answer topo (prepare_icmp early) (quiet_icmp _) run).conds
  | some m =>
    have valid : isValidOp (.icmp .bvugt) = true := by decide
    have prepared : prepare mem s (.icmp .bvugt) 64 ⟨x, z, a, b⟩ = .ret m := by
      simp [prepare, valid, orderOperands_of_not_commutative (isCommutative_icmp _), early]
    simp only [taintUnion, prepared] at run
    cases run
    rfl

end Comparison

/-! ## The reported labels -/

/-- The label of the scaled index, and the table it is in. -/
def scaleIndex (fl : Flags) (mem : Nat → Nat) (c : BoundsCall) (s : Runtime) :
    Option (Nat × Runtime) :=
  (if (s.info c.indexLabel).size < 64 then
      taintUnion fl mem s .zext 64 ⟨c.indexLabel, 0, c.index, 0⟩
    else some (c.indexLabel, s)).bind fun r =>
  if c.elemSize = 1 then some r
  else taintUnion fl mem r.2 .mul 64 ⟨r.1, 0, c.index, c.elemSize⟩

/-- Where the access is, from the start of the allocation: a 64-bit number. -/
def reach (s : Runtime) (c : BoundsCall) (inp : Input) : Nat :=
  (valueOf s inp c.indexLabel c.index * c.elemSize + c.offset (s.info c.ptrLabel).op1) % 2 ^ 64

/-- The size of the allocation. Its bounds have the label of one factor, the number of elements or
the size of one; `factor` is the other one, which is 1 for `malloc`. -/
def allocSize (s : Runtime) (c : BoundsCall) (factor : Input → Nat) (inp : Input) : Nat :=
  factor inp * den s.info inp (s.info c.ptrLabel).l2 % 2 ^ 64

/-- What the reported condition is for: the access reaches past the symbolic size, or the
pointer is null. -/
def Stated (s : Runtime) (c : BoundsCall) (factor : Input → Nat) (inp : Input) : Prop :=
  if (s.info c.ptrLabel).op = .alloca then allocSize s c factor inp < reach s c inp
  else valueOf s inp c.ptrLabel c.ptr = 0

/-- A reported label that is well formed. -/
def WellFormedProbe (s s' : Runtime) (c : BoundsCall) (factor : Input → Nat) (l : Nat) : Prop :=
  l = 0 ∨ Denotes s' l (Stated s c factor)

/-- A call that reaches the branches for a symbolic size and for no bounds. -/
structure Probed (s : Runtime) (c : BoundsCall) : Prop where
  table : Topological s
  index : Existing s c.indexLabel
  symbolic : c.indexLabel ≠ 0
  indexInit : c.indexLabel ≠ kInitializingLabel
  pointerInit : c.ptrLabel ≠ kInitializingLabel
  unknown : c.numElems = 0
  size : (s.info c.ptrLabel).op = .alloca →
    (s.info c.ptrLabel).l2 ≠ 0 ∧ Existing s (s.info c.ptrLabel).l2

section Calls

variable {fl : Flags} {mem : Nat → Nat} {s s' : Runtime} {c : BoundsCall} {t : Runtime}

lemma Carries.recast {k a b : Nat} {f g : Input → Nat} (carries : Carries s k a f)
    (same : a % 2 ^ 64 = b % 2 ^ 64) (agree : ∀ inp, f inp = g inp) : Carries s k b g := by
  refine ⟨carries.held, carries.initialized, fun inp => ?_⟩
  have value := carries.value inp
  rw [← agree inp, ← value, valueOf, valueOf]
  by_cases concrete : k = 0 ∨ (s.info k).op = .alloca
  · rw [if_pos concrete, if_pos concrete, same]
  · rw [if_neg concrete, if_neg concrete]

variable (probed : Probed s c)

include probed

lemma Probed.index_carries :
    Carries s c.indexLabel c.index fun inp => valueOf s inp c.indexLabel c.index % 2 ^ 64 := by
  refine ⟨?_, probed.indexInit, fun _ => rfl⟩
  rcases probed.index with le | init | stack
  · exact .inl le
  · exact absurd init probed.indexInit
  · exact .inr stack

lemma Probed.scaleIndex_carries {k : Nat} (run : scaleIndex fl mem c s = some (k, t)) :
    Onward s t ∧ Carries t k (c.index * c.elemSize % 2 ^ 64) fun inp =>
      valueOf s inp c.indexLabel c.index * c.elemSize % 2 ^ 64 := by
  obtain ⟨⟨j, s1⟩, extended, scaled⟩ := Option.bind_eq_some_iff.mp run
  have first : Onward s s1 ∧ Carries s1 j c.index fun inp =>
      valueOf s inp c.indexLabel c.index % 2 ^ 64 := by
    split at extended
    · exact Carries.extend probed.table probed.index_carries extended
    · cases extended
      exact ⟨.refl probed.table, probed.index_carries⟩
  by_cases one : c.elemSize = 1
  · rw [if_pos one] at scaled
    cases scaled
    refine ⟨first.1, first.2.recast ?_ fun inp => ?_⟩
    · rw [one, Nat.mul_one, Nat.mod_mod]
    · rw [one, Nat.mul_one]
  · rw [if_neg one] at scaled
    obtain ⟨onward, carries⟩ := Carries.scale first.1.table first.2 scaled
    refine ⟨first.1.trans onward, carries.recast rfl fun inp => ?_⟩
    rw [Nat.mod_mul_mod]

section

variable (on : fl.solveUb = true) (bounds : (s.info c.ptrLabel).op = .alloca)
  (run : solveBounds fl mem c s = some s')

include on bounds run

lemma Probed.symbolic_run :
    ∃ k t r, scaleIndex fl mem c s = some (k, t) ∧
      (if c.offset (s.info c.ptrLabel).op1 = 0 then
          some (c.index * c.elemSize % 2 ^ 64 % 2 ^ 32, t)
        else taintUnion fl mem t .add 64
          ⟨k, 0, c.index * c.elemSize % 2 ^ 64, c.offset (s.info c.ptrLabel).op1⟩) = some r ∧
      report fl mem (.icmp .bvugt) 64 ⟨r.1, (s.info c.ptrLabel).l2,
        (c.index * c.elemSize % 2 ^ 64 + c.offset (s.info c.ptrLabel).op1) % 2 ^ 64,
        sub64 (s.info c.ptrLabel).op2 (s.info c.ptrLabel).op1⟩ .integerToBufferOverflow r.2 =
          some s' := by
  simp only [solveBounds, probed.symbolic, on, probed.indexInit, probed.pointerInit, probed.unknown,
    bounds, (probed.size bounds).1] at run
  obtain ⟨⟨j, s1⟩, extended, run⟩ := Option.bind_eq_some_iff.mp run
  obtain ⟨⟨k, t⟩, scaled, run⟩ := Option.bind_eq_some_iff.mp run
  obtain ⟨r, sum, reported⟩ := Option.bind_eq_some_iff.mp run
  exact ⟨k, t, r, Option.bind_eq_some_iff.mpr ⟨(j, s1), extended, scaled⟩, sum, reported⟩

/-- What is reported against a symbolic size. -/
lemma Probed.symbolic_size (factor : Input → Nat) :
    ∃ l, s'.conds = s.conds ++ [⟨l, .integerToBufferOverflow⟩] ∧
      ((s.info c.ptrLabel).l2 = kInitializingLabel → ¬ WellFormedProbe s s' c factor l) ∧
      ((s.info c.ptrLabel).l2 ≠ kInitializingLabel → c.offset (s.info c.ptrLabel).op1 ≠ 0 →
        (WellFormedProbe s s' c factor l ↔ l = 0 ∨ ∀ inp,
          (allocSize s c (fun _ => 1) inp < reach s c inp ↔
            allocSize s c factor inp < reach s c inp))) ∧
      (c.offset (s.info c.ptrLabel).op1 = 0 → ∃ t u,
        taintUnion fl mem t (.icmp .bvugt) 64 ⟨c.index * c.elemSize % 2 ^ 64 % 2 ^ 32,
          (s.info c.ptrLabel).l2, c.index * c.elemSize % 2 ^ 64,
          sub64 (s.info c.ptrLabel).op2 (s.info c.ptrLabel).op1⟩ = some (l, u)) := by
  obtain ⟨k, t, ⟨x, t'⟩, scaled, sum, reported⟩ := probed.symbolic_run on bounds run
  obtain ⟨onward, carries⟩ := probed.scaleIndex_carries scaled
  obtain ⟨⟨l, u⟩, union, rfl⟩ := Option.map_eq_some_iff.mp reported
  obtain ⟨nonzero, held⟩ := probed.size bounds
  have whole : Onward s t' ∧ (c.offset (s.info c.ptrLabel).op1 ≠ 0 →
      Carries t' x ((c.index * c.elemSize % 2 ^ 64 + c.offset (s.info c.ptrLabel).op1) % 2 ^ 64)
        (reach s c)) := by
    split at sum
    · next start =>
      cases sum
      exact ⟨onward, fun other => absurd start other⟩
    · next start =>
      obtain ⟨onward', carries'⟩ := Carries.shift onward.table carries start sum
      exact ⟨onward.trans onward', fun _ => carries'.recast rfl fun inp => Nat.mod_add_mod _ _ _⟩
  obtain ⟨both, carries'⟩ := whole
  refine ⟨l, ?_, fun init => ?_, fun init start => ?_, fun start => ⟨t', u, ?_⟩⟩
  · simp [Runtime.traceCond, compared_conds both.table union, both.conds]
  · rw [WellFormedProbe, denotes_traceCond]
    exact compared_init both.table nonzero init union
  · rw [WellFormedProbe, denotes_traceCond]
    rcases compared both.table nonzero (held.extends both.ext) init (carries' start) union with
      zero | ⟨le, denotes⟩
    · simp [zero]
    have old : (s.info c.ptrLabel).l2 ≤ s.last := by
      rcases held with le | special | stack
      · exact le
      · exact absurd special init
      · have room := both.table.room
        have top := both.ext.stackTop
        have above := stack.1
        omega
    rw [denotes.iff]
    refine or_congr_right (forall_congr' fun inp => ?_)
    rw [Stated, if_pos bounds, both.ext.den inp old, allocSize, allocSize, Nat.one_mul]
  · rw [if_pos start] at sum
    cases sum
    rw [start, Nat.add_zero, Nat.mod_mod] at union
    exact union

end

/-- The comparison with null is built with the opcode of a Load. -/
lemma Probed.null_iff (on : fl.solveUb = true) (noBounds : (s.info c.ptrLabel).op ≠ .alloca)
    (run : solveBounds fl mem c s = some s') (factor : Input → Nat) :
    ∃ l, s'.conds = s.conds ++ [⟨l, .nullPointer⟩] ∧
      (WellFormedProbe s s' c factor l ↔ c.ptrLabel = 0) := by
  simp only [solveBounds, probed.symbolic, on, probed.indexInit, probed.pointerInit, probed.unknown,
    noBounds] at run
  obtain ⟨⟨l, t⟩, union, rfl⟩ := Option.map_eq_some_iff.mp run
  by_cases zero : c.ptrLabel = 0
  · have prepared : prepare mem s .load 64 ⟨c.ptrLabel, 0, c.ptr, 0⟩ = .ret 0 := by
      simp [prepare, orderOperands, earlyReturn, zero]
    simp only [taintUnion, prepared] at union
    obtain ⟨rfl, rfl⟩ := union
    exact ⟨0, rfl, fun _ => zero, fun _ => .inl rfl⟩
  · have early : earlyReturn s .load ⟨c.ptrLabel, 0, c.ptr, 0⟩ = none := by
      simp [earlyReturn, zero, probed.pointerInit, zero_ne_initializing, noBounds]
    have answer := taintUnion_byteMove_some probed.table (.inl rfl) early union
    obtain ⟨-, -, kind, -⟩ := (sameKey_iff _ _).mp answer.fields
    refine ⟨l, by simp [Runtime.traceCond, answer.conds], ?_, fun same => absurd same zero⟩
    rintro (none | denotes)
    · have pos := answer.pos
      omega
    · have icmp : isIcmp (t.info l).op = true := denotes.kind
      rw [kind] at icmp
      cases icmp

end Calls

/-- Two input bytes, the second one extended to the size, label 3, of the allocation at 8192. -/
def sizedTable : Runtime :=
  tableOf [⟨0, 0, 0, 0, .input, 8, 0⟩, ⟨0, 0, 1, 0, .input, 8, 0⟩, ⟨2, 0, 0, 0, .zext, 64, 0⟩,
    ⟨0, 3, 8192, 8232, .alloca, 64, 0⟩] 1000

/-- A word of the allocation from `start` on, with the first byte as the index. -/
def sizedAccess (pointer start : Nat) : BoundsCall := ⟨pointer, start, 1, 0, 0, 4, 0⟩

end SizeProbes
