import SymSan.LoadSoundness
import SymSan.RoundTrip
import SymSan.ShadowMapping

/-!
# Atomic read-modify-write

`visitAtomicRMWInst` loads the label of the location, passes it and the operand's label to
`combineShadows` and stores the label that comes back. `combineShadows` reads the concretes off the
instruction's operands. The first operand of an `atomicrmw` is the pointer, so a concrete location
is recorded with its address in place of its value.
-/

namespace AtomicUpdates

open LabelTable Denotation TableGrowth TaintUnion UnionSoundness LittleEndian UnionLoad
open RuntimeOps LoadSoundness ShadowMapping

/-- What the instruction leaves: the label handed to the store, the label of its result, the cells
of the location and the table. -/
structure Update where
  stored : Nat
  result : Nat
  cells : Nat → Nat
  table : Runtime

/-- `visitAtomicRMWInst` of an operation that `combineShadows` takes, on `n` bytes at `ptr` with the
labels `cells` and the contents `app`. The operand is `val`, its label `shadow2`. A variable whose
address an `atomicrmw` takes has no label slot of its own. -/
def visitAtomicRMWInst (fl : Flags) (mem : Nat → Nat) (s : Runtime) (op : Operator) (n ptr : Nat)
    (cells : Nat → Nat) (app : Nat → BitVec 8) (val shadow2 : Nat) : Option Update :=
  (unionLoad fl mem s (shadowFor ptr) cells app n).bind fun shadow1 =>
  (taintUnion fl mem shadow1.2 op (8 * n) ⟨shadow1.1, shadow2, ptr, val⟩).bind fun shadow =>
  (unionStore fl mem shadow.2 (shadowFor ptr) shadow.1 cells n).map fun written =>
    ⟨shadow.1, shadow1.1, written.1, written.2⟩

/-- The value of an operand with the label `l` and the concrete `c`. -/
def operandValue (info : Nat → LabelInfo) (inp : Input) (l c : Nat) : Nat :=
  if l = 0 then c else den info inp l

/-- The operation on a value of the location. -/
def combined (s : Runtime) (op : Operator) (n val shadow2 old : Nat) (inp : Input) : Nat :=
  applyOp op (8 * n) (8 * n) 0 old (operandValue s.info inp shadow2 val)

/-- What the location holds after the instruction. -/
def updated (s : Runtime) (op : Operator) (n : Nat) (cells : Nat → Nat) (app : Nat → BitVec 8)
    (val shadow2 : Nat) (inp : Input) : Nat :=
  combined s op n val shadow2 (word (byteValue s.info inp cells app) n) inp

/-- The label has the value `f` on every input. Label zero has the one the run has seen. -/
def Denotes (s : Runtime) (l w : Nat) (f : Input → Nat) : Prop :=
  if l = 0 then ∃ v, ∀ inp, f inp = v
  else l ≤ s.last ∧ width (s.info l) = w ∧ ∀ inp, den s.info inp l = f inp

/-- The result is the old value, and the label that is stored the new one. -/
structure Tracked (s : Runtime) (op : Operator) (n : Nat) (cells : Nat → Nat)
    (app : Nat → BitVec 8) (val shadow2 : Nat) (u : Update) : Prop where
  result : Faithful s u.table cells app n u.result
  stored : Denotes u.table u.stored (8 * n) (updated s op n cells app val shadow2)

/-- The location is symbolic and its load is faithful, or it is concrete and the operation gives on
its address what it gives on its value. -/
def LocationOk (s : Runtime) (op : Operator) (n ptr : Nat) (cells : Nat → Nat)
    (app : Nat → BitVec 8) (val shadow2 : Nat) : Prop :=
  (∃ i < n, cells i ≠ 0) ∧ LoadOk s cells app n ∨
    (∀ i < n, cells i = 0) ∧ (shadow2 ≠ 0 → ∀ inp,
      combined s op n val shadow2 ptr inp = updated s op n cells app val shadow2 inp)

def Arithmetic (op : Operator) : Prop :=
  op = .add ∨ op = .sub ∨ op = .and ∨ op = .or ∨ op = .xor

section Operations

variable {op : Operator} (kind : Arithmetic op)

include kind

lemma arithmetic_op : isInteger op = true ∧ isValidOp op = true ∧ Quiet op ∧ op ≠ .trunc := by
  rcases kind with rfl | rfl | rfl | rfl | rfl
  all_goals decide

lemma arithmetic_matching {info : Nat → LabelInfo} {size : Nat} {o : Operands}
    (left : Side info o.l1 o.op1 size) (right : Side info o.l2 o.op2 size) :
    Matching info op size o := by
  rcases kind with rfl | rfl | rfl | rfl | rfl
  all_goals exact ⟨left, right⟩

lemma arithmetic_width {r : LabelInfo} (h : r.op = op) : width r = r.size := by
  rcases kind with rfl | rfl | rfl | rfl | rfl
  all_goals simp only [width, h]

lemma applyOp_arithmetic (size w off a b : Nat) :
    applyOp op size w off a b = applyOp op size size 0 a b ∧
      applyOp op size size 0 a b < 2 ^ size := by
  rcases kind with rfl | rfl | rfl | rfl | rfl
  all_goals exact ⟨rfl, BitVec.isLt _⟩

/-- Only the low bits of the operands count. -/
lemma applyOp_low {size a a' b b' : Nat} (left : a % 2 ^ size = a' % 2 ^ size)
    (right : b % 2 ^ size = b' % 2 ^ size) :
    applyOp op size size 0 a b = applyOp op size size 0 a' b' := by
  have first : BitVec.ofNat size a = BitVec.ofNat size a' := BitVec.eq_of_toNat_eq left
  have second : BitVec.ofNat size b = BitVec.ofNat size b' := BitVec.eq_of_toNat_eq right
  rcases kind with rfl | rfl | rfl | rfl | rfl
  all_goals simp only [applyOp, first, second]

lemma applied_arithmetic (info : Nat → LabelInfo) (inp : Input) (size l1 l2 c1 c2 : Nat) :
    applied info inp op size ⟨l1, l2, c1, c2⟩ =
      applyOp op size size 0 (operandValue info inp l1 c1) (operandValue info inp l2 c2) := by
  have notConcat : op ≠ .concat := by
    rcases kind with rfl | rfl | rfl | rfl | rfl
    all_goals decide
  have notNot : op ≠ .not := by
    rcases kind with rfl | rfl | rfl | rfl | rfl
    all_goals decide
  simp only [applied, notNot, false_and, if_false]
  rw [(applyOp_arithmetic kind size _ _ _ _).1]
  obtain ⟨first, second⟩ := operands_of_ne_concat info inp size ⟨l1, l2, c1, c2⟩ notConcat
  rw [first, second]
  have low : ∀ l c, (if l = 0 then c % 2 ^ size else den info inp l) % 2 ^ size =
      operandValue info inp l c % 2 ^ size := by
    intro l c
    unfold operandValue
    split
    · exact Nat.mod_mod _ _
    · rfl
  exact applyOp_low kind (low l1 c1) (low l2 c2)

end Operations

section Updates

variable {fl : Flags} {mem : Nat → Nat} {s s1 s2 : Runtime} {op : Operator} {n ptr : Nat}
  {cells : Nat → Nat} {app : Nat → BitVec 8} {val shadow2 l stored : Nat}

lemma denotes_extends {w : Nat} {f : Input → Nat} (le : l ≤ s1.last) (ext : Extends s1 s2) :
    Denotes s2 l w f ↔ Denotes s1 l w f := by
  have last := ext.last
  have inside : l ≤ s2.last := by omega
  simp only [Denotes, ext.same l (.inl le), ext.den _ le, le, inside]

lemma Denotes.le {w : Nat} {f : Input → Nat} (denotes : Denotes s l w f) : l ≤ s.last := by
  unfold Denotes at denotes
  by_cases zero : l = 0
  · omega
  · rw [if_neg zero] at denotes
    exact denotes.1

lemma faithful_extends (le : l ≤ s1.last) (ext : Extends s1 s2) :
    Faithful s s2 cells app n l ↔ Faithful s s1 cells app n l := by
  have last := ext.last
  have inside : l ≤ s2.last := by omega
  simp only [Faithful, ext.same l (.inl le), ext.den _ le, le, inside]

lemma union_bound (kind : Arithmetic op) (topo : Topological s) {size : Nat} {o : Operands}
    (union : taintUnion fl mem s op size o = some (l, s1)) : s1.last ≤ s.last + 1 := by
  rcases taintUnion_cases union with ⟨_, rfl⟩ | ⟨key, orig, prepared, _⟩
  · omega
  have quiet : Quiet key.op := by
    obtain ⟨_, _, _, same | ⟨_, not⟩⟩ := prepare_key_fields prepared
    · rw [same]
      exact (arithmetic_op kind).2.2.1
    · rw [not]
      decide
  exact (taintUnion_answer topo prepared quiet union).bound

/-- A store of a label of the table takes at most one label a byte. -/
lemma unionStore_of_room (topo : Topological s) (le : l ≤ s.last)
    (room : s.last + n < s.stackTop) :
    (unionStore fl mem s ptr l cells n).isSome = true := by
  have init := topo.ne_initializing le
  unfold unionStore
  by_cases null : ptr < 4096
  · rw [if_pos null]
    rfl
  rw [if_neg null, if_neg init, if_neg (by simp [le])]
  by_cases fills : l = 0 ∨ (s.info l).op = .alloca
  · rw [if_pos fills]
    rfl
  rw [if_neg fills]
  split
  · rfl
  split
  · rfl
  simp only [not_or] at fills
  obtain ⟨_, made⟩ := (RoundTrip.storeExtracts_cells fl mem cells n 0 topo (by omega) le
    fills.2).1 room
  rw [made]
  rfl

variable (topo : Topological s) (kind : Arithmetic op) (h2 : shadow2 ≤ s.last)
  (plain : (s.info shadow2).op ≠ .alloca)

include topo kind h2 plain

/-- The label built for a symbolic location whose load is faithful. -/
lemma symbolic_update (symbolic : ∃ i < n, cells i ≠ 0) (pos : 1 ≤ n) (bound : n ≤ 8)
    (operand : Side s.info shadow2 val (8 * n)) (loaded : Loaded s s1 n l)
    (faithful : Faithful s s1 cells app n l)
    (union : taintUnion fl mem s1 op (8 * n) ⟨l, shadow2, ptr, val⟩ = some (stored, s2)) :
    Denotes s2 stored (8 * n) (updated s op n cells app val shadow2) := by
  obtain ⟨int, _, _, notTrunc⟩ := arithmetic_op kind
  have ext := loaded.grows.toExtends
  have last := ext.last
  have ne := (faithful.symbolic symbolic).1
  simp only [Faithful, if_neg ne] at faithful
  obtain ⟨le, wide, old⟩ := faithful
  have left : Side s1.info l ptr (8 * n) := by simpa only [Side, if_neg ne] using wide
  have right : Side s1.info shadow2 val (8 * n) := by
    simpa only [Side, ext.same shadow2 (.inl h2)] using operand
  have sound := taintUnion_sound (topo.grows loaded.grows) (fun trunc => absurd trunc notTrunc) int
    (by omega) (by omega) le (by simp only; omega) (arithmetic_matching kind left right)
    (fun mismatch => notTrunc mismatch.1) union
  have value : ∀ inp, applied s1.info inp op (8 * n) ⟨l, shadow2, ptr, val⟩ =
      updated s op n cells app val shadow2 inp := by
    intro inp
    rw [applied_arithmetic kind, operandValue, if_neg ne, old inp, operandValue, ext.den inp h2]
    rfl
  unfold Sound at sound
  unfold Denotes
  by_cases zero : stored = 0
  · simp only [if_pos zero] at sound ⊢
    obtain ⟨v, const⟩ := sound (.inl ne) loaded.plain
      (by rw [ext.same shadow2 (.inl h2)]; exact plain)
    exact ⟨v, fun inp => (value inp).symm.trans (const inp)⟩
  · simp only [if_neg zero] at sound ⊢
    obtain ⟨inside, width', den'⟩ := sound
    exact ⟨inside, width'.trans (arithmetic_width kind rfl),
      fun inp => (den' inp).trans (value inp)⟩

/-- A concrete location leaves its address to the record: no address is simplified away. -/
lemma prepare_concrete (ne : shadow2 ≠ 0) (widths : n = 1 ∨ n = 2 ∨ n = 4 ∨ n = 8)
    (address : InApp ptr) :
    prepare mem s op (8 * n) ⟨0, shadow2, ptr, val⟩ =
      .key (unionKey s op (8 * n) ⟨0, shadow2, ptr, 0⟩) ⟨0, shadow2, ptr, val⟩ := by
  obtain ⟨_, valid, _, notTrunc⟩ := arithmetic_op kind
  have init := topo.ne_initializing h2
  have const := topo.const_not_bounds
  have ordered : orderOperands op ⟨0, shadow2, ptr, val⟩ = ⟨0, shadow2, ptr, val⟩ := by
    simp only [orderOperands, Nat.not_lt_zero, false_and, if_false]
  have early : earlyReturn s op ⟨0, shadow2, ptr, val⟩ = none := by
    simp [earlyReturn, ne, init, zero_ne_initializing, const, plain]
  have recorded : recordOperands mem op (8 * n) ⟨0, shadow2, ptr, val⟩ =
      ⟨0, shadow2, ptr, 0⟩ := by
    have symbolic : 1 ≤ shadow2 := by omega
    rcases kind with rfl | rfl | rfl | rfl | rfl
    all_goals simp [recordOperands, Operator.low, Operator.code, symbolic]
  have kept : simplify s op (8 * n) ⟨0, shadow2, ptr, 0⟩ = .keep op := by
    have positive : ptr ≠ 0 := by
      have := address.1
      unfold kAppAddr at this
      omega
    have notOnes : ptr ≠ oneShl (8 * n) - 1 := by
      have := address.1
      unfold kAppAddr at this
      rcases widths with rfl | rfl | rfl | rfl
      · have := show oneShl (8 * 1) = 2 ^ 8 by decide
        omega
      · have := show oneShl (8 * 2) = 2 ^ 16 by decide
        omega
      · have := show oneShl (8 * 4) = 2 ^ 32 by decide
        omega
      · have := show oneShl (8 * 8) = 1 by decide
        omega
    simp [simplify, simplifyLeft, simplifyRight, simplifyShape, positive, notOnes, ne, notTrunc,
      ne.symm]
  simp only [prepare, valid, ordered, early, recorded, kept, Bool.true_eq_false, if_false]

/-- The label built for a concrete location applies the operation to the address. -/
lemma concrete_update (widths : n = 1 ∨ n = 2 ∨ n = 4 ∨ n = 8) (address : InApp ptr)
    (union : taintUnion fl mem s op (8 * n) ⟨0, shadow2, ptr, val⟩ = some (stored, s2)) :
    (stored = 0 ↔ shadow2 = 0) ∧ Denotes s2 stored (8 * n) (combined s op n val shadow2 ptr) := by
  obtain ⟨int, valid, quiet, notTrunc⟩ := arithmetic_op kind
  by_cases zero : shadow2 = 0
  · have nothing : prepare mem s op (8 * n) ⟨0, shadow2, ptr, val⟩ = .ret 0 := by
      rcases kind with rfl | rfl | rfl | rfl | rfl
      all_goals simp [prepare, isValidOp, orderOperands, earlyReturn, zero]
    simp only [taintUnion, nothing, Option.some.injEq, Prod.mk.injEq] at union
    obtain ⟨rfl, rfl⟩ := union
    simp only [zero, Denotes, if_true, combined, operandValue, true_and]
    exact ⟨_, fun _ => rfl⟩
  have answer := taintUnion_answer topo
    (prepare_concrete topo kind h2 plain zero widths address) quiet union
  obtain ⟨wide, value⟩ := (answer.topological topo (Nat.zero_le _) h2).den_of_fields answer.ext
    answer.pos answer.le (sameKey_trans answer.fields
      ((sameKey_iff _ (request op (8 * n) ⟨0, shadow2, ptr, 0⟩)).mpr
        ⟨rfl, rfl, rfl, rfl, rfl, rfl⟩))
    (Nat.zero_le _) fun _ => h2
  have nonzero : stored ≠ 0 := by
    have := answer.pos
    omega
  refine ⟨by simp only [nonzero, zero], ?_⟩
  simp only [Denotes, if_neg nonzero]
  refine ⟨answer.le, wide.trans (arithmetic_width kind rfl), fun inp => ?_⟩
  have eval : evalRecord s.info (den s.info inp) inp stored
      (request op (8 * n) ⟨0, shadow2, ptr, 0⟩) = combined s op n val shadow2 ptr inp := by
    rw [evalRecord_request int (fun _ => zero), applied_arithmetic kind]
    simp only [combined, operandValue, if_neg zero, if_true]
  rw [value inp, eval, arithmetic_width kind rfl]
  exact Nat.mod_eq_of_lt (applyOp_arithmetic kind (8 * n) 0 0 _ _).2

/-- So it is the updated value just if the operation does not tell the address from the value. -/
lemma concrete_update_iff (widths : n = 1 ∨ n = 2 ∨ n = 4 ∨ n = 8) (address : InApp ptr)
    (zeros : ∀ i < n, cells i = 0)
    (union : taintUnion fl mem s op (8 * n) ⟨0, shadow2, ptr, val⟩ = some (stored, s2)) :
    Denotes s2 stored (8 * n) (updated s op n cells app val shadow2) ↔ (shadow2 ≠ 0 → ∀ inp,
      combined s op n val shadow2 ptr inp = updated s op n cells app val shadow2 inp) := by
  obtain ⟨same, denotes⟩ := concrete_update topo kind h2 plain widths address union
  by_cases zero : shadow2 = 0
  · simp only [Denotes, if_pos (same.mpr zero), ne_eq, zero, not_true, false_implies, iff_true]
    refine ⟨combined s op n val 0 (word (fun i => (app i).toNat) n) ⟨fun _ _ => 0, fun _ => 0⟩, ?_⟩
    intro inp
    have bytes : word (byteValue s.info inp cells app) n = word (fun i => (app i).toNat) n :=
      word_congr fun i hi => by simp only [byteValue, if_pos (zeros i hi)]
    simp only [updated, bytes, combined, operandValue, if_true]
  have nonzero : stored ≠ 0 := fun h => zero (same.mp h)
  simp only [Denotes, if_neg nonzero] at denotes ⊢
  constructor
  · rintro ⟨_, _, value⟩ _ inp
    exact (denotes.2.2 inp).symm.trans (value inp)
  · intro agree
    exact ⟨denotes.1, denotes.2.1, fun inp => (denotes.2.2 inp).trans (agree zero inp)⟩

omit plain in
/-- With labels left the union and the store after a load end. -/
lemma visit_of_load (pos : 1 ≤ n) (loaded : Loaded s s1 n l)
    (load : unionLoad fl mem s (shadowFor ptr) cells app n = some (l, s1))
    (inside : ∀ stored s2, taintUnion fl mem s1 op (8 * n) ⟨l, shadow2, ptr, val⟩ =
      some (stored, s2) → stored ≤ s2.last) (room : s.last + 2 * n + 8 < s.stackTop) :
    (visitAtomicRMWInst fl mem s op n ptr cells app val shadow2).isSome = true := by
  have ext := loaded.grows.toExtends
  have topo1 := topo.grows loaded.grows
  have top := ext.stackTop
  have bound := loaded.bound
  have right : shadow2 ≤ s1.last := h2.trans ext.last
  obtain ⟨⟨stored, s2⟩, union⟩ := Option.isSome_iff_exists.mp
    (@taintUnion_of_room fl mem s1 op (8 * n) ⟨l, shadow2, ptr, val⟩ topo1 (by omega) loaded.le
      right)
  have legal : Grows Legal s1 s2 := taintUnion_legal (.inl loaded.le) (fun _ => .inl right) union
  have top' := legal.toExtends.stackTop
  have bound' := union_bound kind topo1 union
  obtain ⟨_, store⟩ := Option.isSome_iff_exists.mp (@unionStore_of_room fl mem s2 n (shadowFor ptr)
    cells stored (topo1.grows legal) (inside stored s2 union) (by omega))
  simp only [visitAtomicRMWInst, load, union, store, Option.bind_some, Option.map_some,
    Option.isSome_some]

end Updates

end AtomicUpdates
