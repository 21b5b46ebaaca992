import SymSan.TaintUnion

/-!
# The table with one label pinned

The conditions of a probe are comparisons over some label. They are judged for every value
that this label might have, whichever input would give it: the table is evaluated with the
label pinned to a value. The labels are the ones that unions without probes of their own
answer, and such a union writes one record at most.
-/

namespace PinnedLabels

open LabelTable Denotation TableGrowth TaintUnion

/-- The value of a label on an input when label `x` has the value `v`. -/
def denAt (info : Nat → LabelInfo) (inp : Input) (x v l : Nat) : Nat :=
  ScanTables.value (fun k val => if k = x then v else denStep info inp k val) 0 l

section Values

variable {info info' : Nat → LabelInfo} (inp : Input) {x v l : Nat}

@[simp] lemma denAt_self : denAt info inp x v x = v := by
  rw [denAt, ScanTables.value_eq, if_pos rfl]

lemma denAt_of_ne (other : l ≠ x) (ne : l ≠ 0) (ordered : Ordered info l) :
    denAt info inp x v l =
      evalRecord info (denAt info inp x v) inp l (info l) % 2 ^ width (info l) := by
  rw [denAt, ScanTables.value_eq, if_neg other, denStep, if_neg ne]
  congr 1
  apply evalRecord_congr
  · simp [before, ordered.1, denAt]
  · intro notLoad
    simp [before, ordered.2 notLoad, denAt]

lemma denAt_congr (same : ∀ k ≤ l, info k = info' k) :
    denAt info inp x v l = denAt info' inp x v l := by
  apply ScanTables.value_congr
  intro k le val
  have seen : before info k = before info' k := by
    funext j
    by_cases earlier : j < k
    · simp only [before, if_pos earlier]
      exact same j (by omega)
    · simp only [before, if_neg earlier]
  rw [denStep, denStep, seen, same k le]

lemma denAt_extends {s s' : Runtime} (ext : Extends s s') (le : l ≤ s.last) :
    denAt s'.info inp x v l = denAt s.info inp x v l :=
  denAt_congr inp fun k before => ext.same k (.inl (by omega))

end Values

/-! ## The labels that unions answer -/

section Answers

variable {s s' : Runtime} {key : LabelInfo} {l : Nat}

/-- The value of a union over a label at or behind the pinned one. -/
lemma denAt_answer (answer : Answer s key l s') (topo : Topological s) (first : key.l1 ≤ s.last)
    (second : key.l2 ≤ s.last) (inp : Input) {x v : Nat} (behind : x ≤ key.l1) :
    denAt s'.info inp x v l =
      evalRecord s'.info (denAt s'.info inp x v) inp l key % 2 ^ width key := by
  have ordered := answer.ordered topo first second
  obtain ⟨_, -⟩ := (sameKey_iff _ _).mp answer.fields
  have below := ordered.1
  rw [denAt_of_ne inp (by omega) (by omega) ordered, width_sameKey answer.fields,
    evalRecord_sameKey _ _ inp l answer.fields]

end Answers

/-! ## Zero extensions and comparisons of a label with a constant -/

section Operands

variable {fl : Flags} {mem : Nat → Nat} {s s' : Runtime} {size k l a b : Nat}

/-- A label of the table that is not a bounds label. -/
structure Plain (s : Runtime) (k : Nat) : Prop where
  pos : 1 ≤ k
  le : k ≤ s.last
  notBounds : (s.info k).op ≠ .alloca

lemma Plain.ne_zero (plain : Plain s k) : k ≠ 0 := Nat.ne_of_gt plain.pos

lemma Plain.mono (plain : Plain s k) (ext : Extends s s') : Plain s' k := by
  have last := ext.last
  have le := plain.le
  refine ⟨plain.pos, by omega, ?_⟩
  rw [ext.same k (.inl le)]
  exact plain.notBounds

lemma prepare_icmp {o : Operands} {p : Predicate} (early : earlyReturn s (.icmp p) o = none) :
    prepare mem s (.icmp p) size o = .key (unionKey s (.icmp p) size o) o := by
  have valid : isValidOp (.icmp p) = true := by simp [isValidOp]
  have record : recordOperands mem (.icmp p) size o = o := by
    simp [recordOperands]
  have simplified : simplify s (.icmp p) size o = .keep (.icmp p) := by
    simp [simplify, simplifyLeft, simplifyRight, simplifyShape]
  simp [prepare, valid, orderOperands_of_not_commutative (isCommutative_icmp p), early, record,
    simplified]

section

variable (plain : Plain s k) (topo : Topological s)

include plain topo

lemma Plain.earlyReturn (op : Operator) : earlyReturn s op ⟨k, 0, a, b⟩ = none := by
  simp [TaintUnion.earlyReturn, plain.ne_zero, topo.ne_initializing plain.le,
    zero_ne_initializing, plain.notBounds, topo.const_not_bounds]

lemma Plain.prepare_icmp (p : Predicate) :
    prepare mem s (.icmp p) size ⟨k, 0, a, b⟩ =
      .key (unionKey s (.icmp p) size ⟨k, 0, a, b⟩) ⟨k, 0, a, b⟩ :=
  PinnedLabels.prepare_icmp (plain.earlyReturn topo (.icmp p))

lemma Plain.prepare_zext :
    prepare mem s .zext size ⟨k, 0, a, 0⟩ =
      .key (unionKey s .zext size ⟨k, 0, 0, 0⟩) ⟨k, 0, a, 0⟩ := by
  have valid : isValidOp .zext = true := by decide
  have record : recordOperands mem .zext size ⟨k, 0, a, 0⟩ = ⟨k, 0, 0, 0⟩ := by
    simp [recordOperands, Operator.low, Operator.code, plain.pos]
  have simplified : simplify s .zext size ⟨k, 0, 0, 0⟩ = .keep .zext := by
    simp [simplify, simplifyLeft, simplifyRight, simplifyShape]
  simp [prepare, valid,
    orderOperands_of_not_commutative (show isCommutative .zext = false by decide),
    plain.earlyReturn topo .zext, record, simplified]

end

/-- A comparison of label `k` with a constant. -/
def comparison (s : Runtime) (p : Predicate) (size k a b : Nat) : LabelInfo :=
  unionKey s (.icmp p) size ⟨k, 0, a, b⟩

lemma Plain.comparison_denAt (plain : Plain s k) (topo : Topological s) {p : Predicate}
    (answer : Answer s (comparison s p size k a b) l s') (inp : Input) {x v : Nat}
    (behind : x ≤ k) :
    denAt s'.info inp x v l = (compare p (BitVec.ofNat size (denAt s.info inp x v k))
      (BitVec.ofNat size b)).toNat := by
  have nonzero := plain.ne_zero
  have value := denAt_answer answer topo plain.le (Nat.zero_le _) inp (v := v) behind
  rw [value]
  simp only [comparison, unionKey, evalRecord, isInteger, applyOp, operand1, operand2, width2,
    constWidth, nonzero, denAt_extends inp answer.ext plain.le, width, reduceCtorEq, if_false,
    if_true]
  have constant : BitVec.ofNat size (b % 2 ^ size) = BitVec.ofNat size b := by
    apply BitVec.eq_of_toNat_eq
    simp
  rw [constant]
  exact Nat.mod_eq_of_lt (by cases compare p _ _ <;> decide)

lemma Plain.zext_denAt (plain : Plain s k) (topo : Topological s)
    (answer : Answer s (unionKey s .zext size ⟨k, 0, 0, 0⟩) l s') (inp : Input) {x v : Nat}
    (behind : x ≤ k) : denAt s'.info inp x v l = denAt s.info inp x v k % 2 ^ size := by
  have nonzero := plain.ne_zero
  have value := denAt_answer answer topo plain.le (Nat.zero_le _) inp (v := v) behind
  rw [value]
  simp [unionKey, evalRecord, isInteger, applyOp, operand1, nonzero, width,
    denAt_extends inp answer.ext plain.le]

section

variable (fits : a < 2 ^ size) (fits' : b < 2 ^ size)

include fits fits'

lemma ult_one :
    (compare .bvult (BitVec.ofNat size a) (BitVec.ofNat size b)).toNat = 1 ↔ a < b := by
  simp [BitVec.ult, Nat.mod_eq_of_lt fits, Nat.mod_eq_of_lt fits', Denotation.compare]

lemma uge_one :
    (compare .bvuge (BitVec.ofNat size a) (BitVec.ofNat size b)).toNat = 1 ↔ b ≤ a := by
  simp [BitVec.ule, Nat.mod_eq_of_lt fits, Nat.mod_eq_of_lt fits', Denotation.compare]

lemma ugt_one :
    (compare .bvugt (BitVec.ofNat size a) (BitVec.ofNat size b)).toNat = 1 ↔ b < a := by
  simp [BitVec.ult, Nat.mod_eq_of_lt fits, Nat.mod_eq_of_lt fits', Denotation.compare]

end

lemma eq_zero_one (fits : a < 2 ^ size) :
    (compare .bveq (BitVec.ofNat size a) (BitVec.ofNat size 0)).toNat = 1 ↔ a = 0 := by
  simp [BitVec.toNat_eq, Nat.mod_eq_of_lt fits, Denotation.compare]

lemma slt_one {w : Nat} (a b : BitVec w) :
    (compare .bvslt a b).toNat = 1 ↔ a.toInt < b.toInt := by
  simp [BitVec.slt_eq_decide, Denotation.compare]

lemma Plain.of_answer {key : LabelInfo} (answer : Answer s key l s') (ne : key.op ≠ .alloca) :
    Plain s' l := by
  refine ⟨answer.pos, answer.le, ?_⟩
  obtain ⟨-, -, same, -⟩ := (sameKey_iff _ _).mp answer.fields
  rw [same]
  exact ne

end Operands

end PinnedLabels
