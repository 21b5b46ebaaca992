import SymSan.TableGrowth

/-!
# `__taint_union`

The function is cut where the source has its blank lines: operands are put in
order, early results are returned, the concrete values that will be recorded
are chosen, the record is simplified, looked up, and only then created, with
the undefined-behaviour probes around the creation. `none` means that the
process died: it ran out of labels or, in a build with assertions, an operand
was not older than its result. Shifts of a 64-bit word use the low six bits of
their count, as on x86-64.
-/

namespace TaintUnion

open LabelTable TableGrowth

structure Operands where
  l1 : Nat
  l2 : Nat
  op1 : Nat
  op2 : Nat
  deriving DecidableEq, Repr

/-- Swap both labels and concretes of a commutative opcode. -/
def orderOperands (op : Operator) (o : Operands) : Operands :=
  if o.l2 < o.l1 ∧ isCommutative op then ⟨o.l2, o.l1, o.op2, o.op1⟩ else o

/-- The returns before the concrete operands are looked at. -/
def earlyReturn (s : Runtime) (op : Operator) (o : Operands) : Option Nat :=
  if o.l1 = 0 ∧ o.l2 = 0 ∧ op ≠ .fsize ∧ op ≠ .alloca then some 0
  else if o.l1 = kInitializingLabel ∨ o.l2 = kInitializingLabel then some kInitializingLabel
  else if (s.info o.l1).op = .alloca ∨ (op ≠ .load ∧ (s.info o.l2).op = .alloca) then
    -- pointers with bounds: only a cast propagates and only Extract goes on
    if op = .bitCast then some o.l1
    else if op = .ptrToInt then some 0
    else if op.low = 53 then some 0
    else if op ≠ .extract then some 0
    else none
  else none

variable (mem : Nat → Nat)

/-- `internal_memcpy(&op, (void*)op, len)`: the low bytes come from memory. -/
def copyPiece (p len : Nat) : Nat :=
  p / 256 ^ len * 256 ^ len + LittleEndian.word (fun i => mem (p + i)) len

/-- Concrete values of symbolic operands are erased, except for bounds,
comparisons and `fatoi`; a memory comparison keeps up to eight bytes of data. -/
def recordOperands (op : Operator) (size : Nat) (o : Operands) : Operands :=
  if op = .fmemcmp then
    let len := if 8 < size then 8 else size
    { o with
      op1 := if 1 ≤ o.l1 then copyPiece mem o.op1 len else o.op1
      op2 := if 1 ≤ o.l2 then copyPiece mem o.op2 len else o.op2 }
  else if op ≠ .alloca ∧ op.low ≠ 53 ∧ op ≠ .fatoi then
    { o with
      op1 := if 1 ≤ o.l1 then 0 else o.op1
      op2 := if 1 ≤ o.l2 then 0 else o.op2 }
  else o

/-- `(uint64_t)1 << size` -/
def oneShl (size : Nat) : Nat := 2 ^ (size % 64)

/-- Either a label to return or the opcode to go on with. -/
inductive Simplified where
  | ret (label : Nat)
  | keep (op : Operator)
  deriving DecidableEq, Repr

def simplifyLeft (op : Operator) (size : Nat) (o : Operands) : Simplified :=
  if o.l1 = 0 ∧ o.op1 = 0 then
    match op with
    | .and | .mul | .shl => .ret 0
    | .or | .xor | .add => .ret o.l2
    | _ => .keep op
  else if o.l1 = 0 ∧ o.op1 = oneShl size - 1 then
    if op = .and then .ret o.l2
    else if op = .or then .ret 0
    else if op = .xor ∧ size = 1 then .keep .not
    else .keep op
  else .keep op

def simplifyRight (op : Operator) (o : Operands) : Simplified :=
  if o.l2 = 0 ∧ o.op2 = 0 then
    match op with
    | .sub | .shl | .lshr | .ashr => .ret o.l1
    | _ => .keep op
  else .keep op

/-- Truncation of an extension back to the size of its base, and `x ^ x`. -/
def simplifyShape (s : Runtime) (op : Operator) (size : Nat) (o : Operands) : Simplified :=
  if op = .trunc then
    if (s.info o.l1).op = .zext ∨ (s.info o.l1).op = .sext then
      if size = (s.info (s.info o.l1).l1).size then .ret (s.info o.l1).l1 else .keep op
    else .keep op
  else if op = .xor ∧ o.l1 = o.l2 then .ret 0
  else .keep op

def simplify (s : Runtime) (op : Operator) (size : Nat) (o : Operands) : Simplified :=
  match simplifyLeft op size o with
  | .ret l => .ret l
  | .keep op => match simplifyRight op o with
    | .ret l => .ret l
    | .keep op => simplifyShape s op size o

/-- The record that is looked up and, if it is new, stored. -/
def unionKey (s : Runtime) (op : Operator) (size : Nat) (o : Operands) : LabelInfo :=
  let h1 := if o.l1 = 0 then 0 else (s.info o.l1).hash
  let h2 := if o.l2 = 0 then 0 else (s.info o.l2).hash
  ⟨o.l1, o.l2, o.op1, o.op2, op, size, xxhash h1 h2 (UInt32.ofNat (op.code * 65536 + size))⟩

/-- What is known before the hash table is consulted. -/
inductive Prepared where
  | ret (label : Nat)
  | key (key : LabelInfo) (orig : Operands)

def prepare (s : Runtime) (op : Operator) (size : Nat) (o : Operands) : Prepared :=
  if isValidOp op = false then .ret 0
  else
    let orig := orderOperands op o
    match earlyReturn s op orig with
    | some l => .ret l
    | none =>
      let rec' := recordOperands mem op size orig
      match simplify s op size rec' with
      | .ret l => .ret l
      | .keep op => .key (unionKey s op size rec') orig

variable (fl : Flags)

/-- Take a label for a record that the hash table does not hold. -/
def create (s : Runtime) (key : LabelInfo) : Option (Nat × Runtime) :=
  if s.checkLabel (s.last + 1) ∧ (fl.asserts → key.l1 < s.last + 1 ∧ key.l2 < s.last + 1) then
    some (s.last + 1, (s.push key).insert (s.last + 1))
  else none

/-- `__taint_union` on a call that meets no probe. Every probe is such a call. -/
def plainUnion (mem : Nat → Nat) (s : Runtime) (op : Operator) (size : Nat)
    (o : Operands) : Option (Nat × Runtime) :=
  match prepare mem s op size o with
  | .ret l => some (l, s)
  | .key key _ =>
    match s.lookup key with
    | some l => some (l, s)
    | none => create fl s key

/-- One probe: build the condition `l p b` and report it, if it is asked for. -/
def probe (mem : Nat → Nat) (asked : Bool) (l : Nat) (p : Predicate)
    (size a b : Nat) (check : UndefinedCheck) (s : Runtime) : Option Runtime :=
  if asked then
    match plainUnion fl mem s (.icmp p) size ⟨l, 0, a, b⟩ with
    | some (cond, s) => some (s.traceCond cond check)
    | none => none
  else some s

/-- `__builtin_clzl(x) - (64 - size)`, an `int` compared with a `uint64_t`. -/
def shiftSlack (x size : Nat) : Nat := (63 - Nat.log2 x + size + (2 ^ 64 - 64)) % 2 ^ 64

def signed64 (x : Nat) : Int := if x < 2 ^ 63 then x else (x : Int) - 2 ^ 64

/-- The probes issued before the label of a new record is taken. -/
def operandProbes (mem : Nat → Nat) (key : LabelInfo) (orig : Operands)
    (s : Runtime) : Option Runtime :=
  if key.l2 = 0 ∨ fl.solveUb = false then some s
  else if key.op.low ∈ [19, 20, 22, 23] then
    probe fl mem (orig.op2 ≠ 0) key.l2 .bveq key.size orig.op2 0 .divisionByZero s
  else if key.op.low ∈ [25, 26, 27] then
    let opSize := (s.info key.l2).size
    let slack := shiftSlack orig.op1 key.size
    (probe fl mem (orig.op2 < key.size) key.l2 .bvuge opSize orig.op2 key.size
      .shiftExponent s).bind fun s =>
    (probe fl mem (orig.op2 < 2 ^ 63) key.l2 .bvslt opSize orig.op2 0
      .shiftExponent s).bind fun s =>
    (probe fl mem (key.op = .shl ∧ orig.op1 ≠ 0 ∧ orig.op2 ≤ slack) key.l2 .bvugt opSize
      orig.op2 slack .shiftOverflow s).bind fun s =>
    probe fl mem (1 ≤ key.l1 ∧ orig.op1 < 2 ^ 63) key.l1 .bvslt (s.info key.l1).size
      orig.op1 0 .shiftBase s
  else some s

/-- `(int64_t)((~0UL >> (size-1)) << (size-1))` -/
def truncTarget (size : Nat) : Nat :=
  (2 ^ 64 - 1) / 2 ^ ((size + 63) % 64) * 2 ^ ((size + 63) % 64)

/-- The probes for data loss, issued after the label of a truncation exists. -/
def truncProbes (mem : Nat → Nat) (key : LabelInfo) (orig : Operands)
    (s : Runtime) : Option Runtime :=
  if 1 ≤ key.l1 ∧ key.op = .trunc ∧ fl.solveUb = true then
    let oldSize := (s.info key.l1).size
    let target := truncTarget key.size
    let masked :=
      if oldSize < 64 ∧ target.testBit oldSize then target - 2 ^ oldSize else target
    (probe fl mem (orig.op1 < oneShl key.size) key.l1 .bvuge oldSize orig.op1
      (oneShl key.size) .unsignedIntegerTruncation s).bind fun s =>
    probe fl mem (signed64 target ≤ signed64 orig.op1) key.l1 .bvslt oldSize orig.op1
      masked .signedIntegerTruncation s
  else some s

def buildLabel (mem : Nat → Nat) (s : Runtime) (key : LabelInfo)
    (orig : Operands) : Option (Nat × Runtime) :=
  (operandProbes fl mem key orig s).bind fun s =>
  (create fl s key).bind fun r =>
  (truncProbes fl mem key orig r.2).map fun s => (r.1, s)

/-- `__taint_union(l1, l2, op, size, op1, op2)` -/
def taintUnion (mem : Nat → Nat) (s : Runtime) (op : Operator) (size : Nat)
    (o : Operands) : Option (Nat × Runtime) :=
  match prepare mem s op size o with
  | .ret l => some (l, s)
  | .key key orig =>
    match s.lookup key with
    | some l => some (l, s)
    | none => buildLabel fl mem s key orig

/-! ## What a call writes -/

section Growth

variable {fl : Flags} {mem : Nat → Nat} {s s' : Runtime} {op op' : Operator} {size : Nat}
  {o orig : Operands} {key : LabelInfo} {l : Nat}

lemma orderOperands_cases (op : Operator) (o : Operands) :
    orderOperands op o = o ∨
      isCommutative op = true ∧ orderOperands op o = ⟨o.l2, o.l1, o.op2, o.op1⟩ := by
  by_cases h : o.l2 < o.l1 ∧ isCommutative op
  · exact .inr ⟨h.2, if_pos h⟩
  · exact .inl (if_neg h)

lemma orderOperands_of_not_commutative (h : isCommutative op = false) (o : Operands) :
    orderOperands op o = o := by
  simp [orderOperands, h]

lemma isCommutative_icmp (p : Predicate) : isCommutative (.icmp p) = false := by
  simp [isCommutative]

lemma recordOperands_labels (mem : Nat → Nat) (op : Operator) (size : Nat) (o : Operands) :
    (recordOperands mem op size o).l1 = o.l1 ∧ (recordOperands mem op size o).l2 = o.l2 := by
  unfold recordOperands
  split
  · exact ⟨rfl, rfl⟩
  · split
    · exact ⟨rfl, rfl⟩
    · exact ⟨rfl, rfl⟩

lemma simplifyLeft_keep (h : simplifyLeft op size o = .keep op') :
    op' = op ∨ op = .xor ∧ op' = .not ∧ size = 1 ∧ o.l1 = 0 ∧ o.op1 = 1 := by
  unfold simplifyLeft at h
  split at h
  · split at h <;> cases h
    exact .inl rfl
  split at h
  next ones =>
    split at h
    · cases h
    split at h
    · cases h
    split at h
    next hxor =>
      obtain ⟨hop, hsize⟩ := hxor
      cases h
      refine .inr ⟨hop, rfl, hsize, ones.1, ?_⟩
      rw [ones.2, hsize]
      rfl
    · exact .inl (by cases h; rfl)
  · exact .inl (by cases h; rfl)

lemma simplifyRight_keep (h : simplifyRight op o = .keep op') : op' = op := by
  unfold simplifyRight at h
  split at h
  · split at h <;> cases h
    rfl
  · cases h; rfl

lemma simplifyShape_keep (h : simplifyShape s op size o = .keep op') : op' = op := by
  unfold simplifyShape at h
  split at h
  · split at h
    · split at h
      · cases h
      · cases h; rfl
    · cases h; rfl
  · split at h
    · cases h
    · cases h; rfl

lemma simplify_cases (s : Runtime) (op : Operator) (size : Nat) (o : Operands) :
    (∃ l, simplifyLeft op size o = .ret l ∧ simplify s op size o = .ret l) ∨
    ∃ op', simplifyLeft op size o = .keep op' ∧
      ((∃ l, simplifyRight op' o = .ret l ∧ simplify s op size o = .ret l) ∨
        simplifyRight op' o = .keep op' ∧ simplify s op size o = simplifyShape s op' size o) := by
  unfold simplify
  cases hleft : simplifyLeft op size o with
  | ret l => exact .inl ⟨l, rfl, rfl⟩
  | keep op' =>
    refine .inr ⟨op', rfl, ?_⟩
    cases hright : simplifyRight op' o with
    | ret l => exact .inl ⟨l, rfl, by simp [hright]⟩
    | keep op'' =>
      have same := simplifyRight_keep hright
      subst same
      exact .inr ⟨rfl, by simp [hright]⟩

lemma simplify_keep (h : simplify s op size o = .keep op') :
    op' = op ∨ op = .xor ∧ op' = .not ∧ size = 1 ∧ o.l1 = 0 ∧ o.op1 = 1 := by
  rcases simplify_cases s op size o with ⟨l, _, hret⟩ | ⟨op1, hleft, ⟨l, _, hret⟩ | ⟨_, hshape⟩⟩
  · rw [hret] at h; cases h
  · rw [hret] at h; cases h
  · rw [hshape] at h
    rw [simplifyShape_keep h]
    exact simplifyLeft_keep hleft

lemma earlyReturn_cases (h : earlyReturn s op o = some l) :
    (l = 0 ∧ o.l1 = 0 ∧ o.l2 = 0) ∨
      (l = kInitializingLabel ∧ (o.l1 = kInitializingLabel ∨ o.l2 = kInitializingLabel)) ∨
      ((s.info o.l1).op = .alloca ∨ (s.info o.l2).op = .alloca) ∧
        (l = 0 ∨ op = .bitCast ∧ l = o.l1) := by
  unfold earlyReturn at h
  split at h
  next zero =>
    cases h
    exact .inl ⟨rfl, zero.1, zero.2.1⟩
  split at h
  next init =>
    cases h
    exact .inr (.inl ⟨rfl, init⟩)
  split at h
  next bounds =>
    refine .inr (.inr ⟨bounds.imp_right And.right, ?_⟩)
    split at h
    next cast =>
      cases h
      exact .inr ⟨cast, rfl⟩
    · repeat' split at h
      all_goals cases h
      all_goals exact .inl rfl
  · cases h

lemma earlyReturn_none_init (h : earlyReturn s op o = none) :
    o.l1 ≠ kInitializingLabel ∧ o.l2 ≠ kInitializingLabel := by
  simp only [earlyReturn] at h
  split at h
  · cases h
  · split at h
    · cases h
    next init =>
      exact not_or.mp init

/-- A call that reaches the hash table carries the ordered operand labels. -/
lemma prepare_key (h : prepare mem s op size o = .key key orig) :
    orig = orderOperands op o ∧ earlyReturn s op orig = none ∧
      ∃ op', simplify s op size (recordOperands mem op size orig) = .keep op' ∧
        key = unionKey s op' size (recordOperands mem op size orig) := by
  unfold prepare at h
  split at h
  · cases h
  cases hearly : earlyReturn s op (orderOperands op o) with
  | some l => simp [hearly] at h
  | none =>
    cases hsimp : simplify s op size (recordOperands mem op size (orderOperands op o)) with
    | ret l => simp [hearly, hsimp] at h
    | keep op' =>
      simp only [hearly, hsimp] at h
      obtain ⟨rfl, rfl⟩ := h
      exact ⟨rfl, hearly, op', hsimp, rfl⟩

lemma prepare_key_fields (h : prepare mem s op size o = .key key orig) :
    key.l1 = (orderOperands op o).l1 ∧ key.l2 = (orderOperands op o).l2 ∧ key.size = size ∧
      (key.op = op ∨ op = .xor ∧ key.op = .not) := by
  obtain ⟨rfl, _, _, hsimp, rfl⟩ := prepare_key h
  obtain ⟨h1, h2⟩ := recordOperands_labels mem op size (orderOperands op o)
  refine ⟨h1, h2, rfl, ?_⟩
  rcases simplify_keep hsimp with hop | ⟨hop, hop', _⟩
  · exact .inl hop
  · exact .inr ⟨hop, hop'⟩

lemma create_some (h : create fl s key = some (l, s')) :
    l = s.last + 1 ∧ s.last + 1 < s.stackTop ∧ s' = (s.push key).insert (s.last + 1) ∧
      (fl.asserts = true → key.l1 < s.last + 1 ∧ key.l2 < s.last + 1) := by
  obtain ⟨ok, ⟨⟩⟩ := Option.ite_none_right_eq_some.mp h
  exact ⟨rfl, Runtime.checkLabel_lt ok.1, rfl, ok.2⟩

lemma create_of_room (top : s.stackTop ≤ kInitializingLabel) (room : s.last + 1 < s.stackTop)
    (h1 : key.l1 ≤ s.last) (h2 : key.l2 ≤ s.last) :
    create fl s key = some (s.last + 1, (s.push key).insert (s.last + 1)) := by
  unfold create
  rw [if_pos]
  refine ⟨?_, fun _ => ⟨by omega, by omega⟩⟩
  have hne : s.last + 1 ≠ kInitializingLabel := by omega
  simp [Runtime.checkLabel, hne, room]

/-- What the assertion before a write gives. -/
def Asserted (fl : Flags) (s : Runtime) (r : LabelInfo) : Prop :=
  fl.asserts = true → r.l1 < s.last + 1 ∧ r.l2 < s.last + 1

lemma create_grows {P : Runtime → LabelInfo → Prop} (ok : Asserted fl s key → P s key)
    (h : create fl s key = some (l, s')) : Grows P s s' := by
  obtain ⟨_, room, rfl, asserted⟩ := create_some h
  exact Grows.refl.insert room (ok asserted)

lemma plainUnion_cases (h : plainUnion fl mem s op size o = some (l, s')) :
    s' = s ∨ ∃ key orig, prepare mem s op size o = .key key orig ∧ s.lookup key = none ∧
      create fl s key = some (l, s') := by
  unfold plainUnion at h
  cases hprep : prepare mem s op size o with
  | ret l' =>
    simp only [hprep, Option.some.injEq, Prod.mk.injEq] at h
    exact .inl h.2.symm
  | key key orig =>
    cases hlook : s.lookup key with
    | some l' =>
      simp only [hprep, hlook, Option.some.injEq, Prod.mk.injEq] at h
      exact .inl h.2.symm
    | none =>
      simp only [hprep, hlook] at h
      exact .inr ⟨key, orig, rfl, hlook, h⟩

/-- A probe writes at most one record, a comparison of the probed label. -/
lemma prepare_icmp_key {p : Predicate} {a b : Nat}
    (h : prepare mem s (.icmp p) size ⟨l, 0, a, b⟩ = .key key orig) :
    key.l1 = l ∧ key.l2 = 0 ∧ key.op = .icmp p := by
  obtain ⟨h1, h2, _, hop⟩ := prepare_key_fields h
  rw [orderOperands_of_not_commutative (isCommutative_icmp p)] at h1 h2
  rcases hop with hop | ⟨hop, _⟩
  · exact ⟨h1, h2, hop⟩
  · cases hop

section Probes

variable {P : Runtime → LabelInfo → Prop} {asked : Bool} {p : Predicate} {a b : Nat}
  {check : UndefinedCheck} {n m : Nat} {r : Option Runtime}

lemma probe_grows
    (ok : ∀ r : LabelInfo, Asserted fl s r → r.l1 = l → r.l2 = 0 → isIcmp r.op = true → P s r)
    (h : probe fl mem asked l p size a b check s = some s') : Grows P s s' := by
  unfold probe at h
  split at h
  · cases hunion : plainUnion fl mem s (.icmp p) size ⟨l, 0, a, b⟩ with
    | none => simp [hunion] at h
    | some r =>
      simp only [hunion, Option.some.injEq] at h
      subst h
      rcases plainUnion_cases hunion with rfl | ⟨key, orig, hprep, -, hcreate⟩
      · exact Grows.refl.trace
      · obtain ⟨h1, h2, hop⟩ := prepare_icmp_key hprep
        exact (create_grows (fun asserted => ok key asserted h1 h2 (by rw [hop]; rfl))
          hcreate).trace
  · cases h
    exact .refl

/-- The computation returns, takes at most `n` labels and leaves old labels alone. -/
def Returns (n : Nat) (s : Runtime) (r : Option Runtime) : Prop :=
  ∃ s', r = some s' ∧ Extends s s' ∧ s'.last ≤ s.last + n

lemma Returns.done (n : Nat) (s : Runtime) : Returns n s (some s) :=
  ⟨s, rfl, .refl s, Nat.le_add_right _ _⟩

lemma Returns.bind {f : Runtime → Option Runtime} (h : Returns n s r)
    (next : ∀ s1, Extends s s1 → s1.last ≤ s.last + n → Returns m s1 (f s1)) :
    Returns (n + m) s (r.bind f) := by
  obtain ⟨s1, rfl, e1, l1⟩ := h
  obtain ⟨s2, h2, e2, _⟩ := next s1 e1 l1
  exact ⟨s2, h2, e1.trans e2, by omega⟩

lemma Returns.weaken (h : Returns n s r) (le : n ≤ m) : Returns m s r := by
  obtain ⟨s1, h1, e1, _⟩ := h
  exact ⟨s1, h1, e1, by omega⟩

lemma probe_returns (top : s.stackTop ≤ kInitializingLabel) (room : s.last + 1 < s.stackTop)
    (hl : l ≤ s.last) : Returns 1 s (probe fl mem asked l p size a b check s) := by
  have bound : ∀ s', probe fl mem asked l p size a b check s = some s' → Extends s s' := by
    intro s' h
    exact (probe_grows (P := fun _ _ => True) (fun _ _ _ _ _ => trivial) h).toExtends
  suffices h : ∃ s', probe fl mem asked l p size a b check s = some s' ∧
      s'.last ≤ s.last + 1 by
    obtain ⟨s', h, le⟩ := h
    exact ⟨s', h, bound s' h, le⟩
  unfold probe
  split
  · unfold plainUnion
    cases hprep : prepare mem s (.icmp p) size ⟨l, 0, a, b⟩ with
    | ret l' => exact ⟨s.traceCond l' check, rfl, by simp⟩
    | key key orig =>
      cases hlook : s.lookup key with
      | some l' => exact ⟨s.traceCond l' check, by simp only [hlook], by simp⟩
      | none =>
        obtain ⟨h1, _, _⟩ := prepare_icmp_key hprep
        exact ⟨((s.push key).insert (s.last + 1)).traceCond (s.last + 1) check,
          by simp only [hlook, create_of_room top room (h1 ▸ hl) (by omega)], by simp⟩
  · exact ⟨s, rfl, by omega⟩

/-- Where a probe may point: at an operand of the record that is being built. -/
def ProbeOk (fl : Flags) (P : Runtime → LabelInfo → Prop) (s : Runtime) (key : LabelInfo) : Prop :=
  ∀ s' r, Extends s s' → Asserted fl s' r →
    r.l1 = key.l1 ∨ key.op ≠ .load ∧ r.l1 = key.l2 → r.l2 = 0 → isIcmp r.op = true → P s' r

section

variable (ok : ProbeOk fl P s key)

include ok

lemma ProbeOk.mono (h : Extends s s') : ProbeOk fl P s' key := by
  intro s'' r h'
  exact ok s'' r (h.trans h')

lemma ProbeOk.first (h : probe fl mem asked key.l1 p size a b check s = some s') : Grows P s s' :=
  probe_grows (fun r asserted h1 h2 hop =>
    ok s r (.refl s) asserted (.inl h1) h2 hop) h

lemma ProbeOk.second (notLoad : key.op ≠ .load)
    (h : probe fl mem asked key.l2 p size a b check s = some s') : Grows P s s' :=
  probe_grows (fun r asserted h1 h2 hop =>
    ok s r (.refl s) asserted (.inr ⟨notLoad, h1⟩) h2 hop) h

lemma operandProbes_grows (h : operandProbes fl mem key orig s = some s') : Grows P s s' := by
  unfold operandProbes at h
  split at h
  · cases h; exact .refl
  have notLoad : key.op.low ≠ 32 → key.op ≠ .load := fun hlow hop => hlow (by rw [hop]; rfl)
  split at h
  next hdiv =>
    exact ok.second (notLoad (by rintro hlow; rw [hlow] at hdiv; simp at hdiv)) h
  split at h
  next hshift =>
    have hload := notLoad (by rintro hlow; rw [hlow] at hshift; simp at hshift)
    obtain ⟨_, h1, h⟩ := Option.bind_eq_some_iff.mp h
    obtain ⟨_, h2, h⟩ := Option.bind_eq_some_iff.mp h
    obtain ⟨_, h3, h⟩ := Option.bind_eq_some_iff.mp h
    have g1 := ok.second hload h1
    have ok1 := ok.mono g1.toExtends
    have g2 := ok1.second hload h2
    have ok2 := ok1.mono g2.toExtends
    have g3 := ok2.second hload h3
    have g4 := (ok2.mono g3.toExtends).first h
    exact g1.trans (g2.trans (g3.trans g4))
  · cases h; exact .refl

lemma truncProbes_grows (h : truncProbes fl mem key orig s = some s') : Grows P s s' := by
  unfold truncProbes at h
  split at h
  · obtain ⟨_, h1, h⟩ := Option.bind_eq_some_iff.mp h
    have g1 := ok.first h1
    exact g1.trans ((ok.mono g1.toExtends).first h)
  · cases h; exact .refl

lemma buildLabel_some (own : ∀ s', Extends s s' → Asserted fl s' key → P s' key)
    (h : buildLabel fl mem s key orig = some (l, s')) :
    Grows P s s' ∧ s.last < l ∧ l ≤ s'.last ∧ s'.info l = key := by
  obtain ⟨s1, hbefore, h⟩ := Option.bind_eq_some_iff.mp h
  obtain ⟨⟨_, _⟩, hcreate, h⟩ := Option.bind_eq_some_iff.mp h
  obtain ⟨_, hafter, h⟩ := Option.map_eq_some_iff.mp h
  cases h
  have g1 := operandProbes_grows ok hbefore
  have g2 := create_grows (own s1 g1.toExtends) hcreate
  have g3 := truncProbes_grows (ok.mono (g1.trans g2).toExtends) hafter
  obtain ⟨rfl, _, rfl, _⟩ := create_some hcreate
  have le := g1.toExtends.last
  have le3 := g3.toExtends.last
  refine ⟨g1.trans (g2.trans g3), by omega, le3, ?_⟩
  rw [g3.toExtends.same _ (.inl (by simp))]
  simp

end

lemma taintUnion_cases (h : taintUnion fl mem s op size o = some (l, s')) :
    prepare mem s op size o = .ret l ∧ s' = s ∨
    ∃ key orig, prepare mem s op size o = .key key orig ∧
      (s.lookup key = some l ∧ s' = s ∨ buildLabel fl mem s key orig = some (l, s')) := by
  unfold taintUnion at h
  cases hprep : prepare mem s op size o with
  | ret l' =>
    simp only [hprep] at h
    obtain ⟨rfl, rfl⟩ := h
    exact .inl ⟨rfl, rfl⟩
  | key key orig =>
    refine .inr ⟨key, orig, rfl, ?_⟩
    cases hlook : s.lookup key with
    | some l' =>
      simp only [hprep, hlook] at h
      obtain ⟨rfl, rfl⟩ := h
      exact .inl ⟨rfl, rfl⟩
    | none =>
      simp only [hprep, hlook] at h
      exact .inr h

lemma taintUnion_grows
    (ok : ∀ key orig, prepare mem s op size o = .key key orig →
      ProbeOk fl P s key ∧ ∀ s', Extends s s' → Asserted fl s' key → P s' key)
    (h : taintUnion fl mem s op size o = some (l, s')) : Grows P s s' := by
  rcases taintUnion_cases h with ⟨_, rfl⟩ | ⟨key, orig, hprep, ⟨_, rfl⟩ | hbuild⟩
  · exact .refl
  · exact .refl
  · exact (buildLabel_some (ok key orig hprep).1 (ok key orig hprep).2 hbuild).1

lemma prepare_key_placed (h1 : Existing s o.l1) (h2 : op ≠ .load → Existing s o.l2)
    (h : prepare mem s op size o = .key key orig) :
    Placed s (s.last + 1) key.l1 ∧ (key.op ≠ .load → Placed s (s.last + 1) key.l2) := by
  obtain ⟨k1, k2, _, hop⟩ := prepare_key_fields h
  obtain ⟨rfl, early, _⟩ := prepare_key h
  have init := earlyReturn_none_init early
  have hload : key.op ≠ .load → op ≠ .load := by
    rintro ne rfl
    rcases hop with hop | ⟨hop, _⟩
    · exact ne hop
    · cases hop
  rcases orderOperands_cases op o with same | ⟨comm, swapped⟩
  · rw [k1, k2]
    rw [same] at init ⊢
    exact ⟨h1.placed init.1, fun ne => (h2 (hload ne)).placed init.2⟩
  have ne : op ≠ .load := by
    rintro rfl
    exact absurd comm (by decide)
  rw [k1, k2]
  rw [swapped] at init ⊢
  exact ⟨(h2 ne).placed init.1, fun _ => h1.placed init.2⟩

lemma taintUnion_legal (h1 : Existing s o.l1) (h2 : op ≠ .load → Existing s o.l2)
    (h : taintUnion fl mem s op size o = some (l, s')) : Grows Legal s s' := by
  refine taintUnion_grows (fun key orig hprep => ?_) h
  obtain ⟨k1, k2⟩ := prepare_key_placed h1 h2 hprep
  constructor
  · intro t r ext _ side zero _
    have last := ext.last
    refine ⟨?_, fun _ => .inl (by omega)⟩
    rcases side with side | ⟨ne, side⟩
    · rw [side]; exact k1.extends ext (by omega)
    · rw [side]; exact (k2 ne).extends ext (by omega)
  · intro t ext _
    have last := ext.last
    exact ⟨k1.extends ext (by omega), fun ne => (k2 ne).extends ext (by omega)⟩

/-- With assertions compiled in, every record that is written is in order. -/
lemma taintUnion_asserted (on : fl.asserts = true)
    (h : taintUnion fl mem s op size o = some (l, s')) : Grows Legal s s' := by
  refine taintUnion_grows (fun key orig _ => ?_) h
  constructor
  · intro t r _ asserted _ _ _
    exact ⟨.inl (asserted on).1, fun _ => .inl (asserted on).2⟩
  · intro t _ asserted
    exact ⟨.inl (asserted on).1, fun _ => .inl (asserted on).2⟩

lemma operandProbes_returns (topo : Topological s) (room : s.last + 4 < s.stackTop)
    (h1 : key.l1 ≤ s.last) (h2 : key.l2 ≤ s.last) :
    Returns 4 s (operandProbes fl mem key orig s) := by
  have top := topo.top
  unfold operandProbes
  split
  · exact .done 4 s
  split
  · exact (probe_returns top (by omega) h2).weaken (by omega)
  split
  · refine (probe_returns top (by omega) h2).bind (m := 3) fun s1 e1 l1 => ?_
    have t1 := e1.stackTop
    have m1 := e1.last
    refine (probe_returns (by omega) (by omega) (by omega)).bind (m := 2) fun s2 e2 l2 => ?_
    have t2 := e2.stackTop
    have m2 := e2.last
    refine (probe_returns (by omega) (by omega) (by omega)).bind (m := 1) fun s3 e3 l3 => ?_
    have t3 := e3.stackTop
    have m3 := e3.last
    exact probe_returns (by omega) (by omega) (by omega)
  · exact .done 4 s

lemma truncProbes_returns (top : s.stackTop ≤ kInitializingLabel) (room : s.last + 2 < s.stackTop)
    (h1 : key.l1 ≤ s.last) : Returns 2 s (truncProbes fl mem key orig s) := by
  unfold truncProbes
  split
  · refine (probe_returns top (by omega) h1).bind (m := 1) fun s1 e1 l1 => ?_
    have t1 := e1.stackTop
    have m1 := e1.last
    exact probe_returns (by omega) (by omega) (by omega)
  · exact .done 2 s

/-- A call on labels of the table returns when seven labels are free. -/
lemma taintUnion_of_room (topo : Topological s) (room : s.last + 7 < s.stackTop)
    (h1 : o.l1 ≤ s.last) (h2 : o.l2 ≤ s.last) : (taintUnion fl mem s op size o).isSome := by
  unfold taintUnion
  cases hprep : prepare mem s op size o with
  | ret l => rfl
  | key key orig =>
    cases hlook : s.lookup key with
    | some l => simp [hlook]
    | none =>
      obtain ⟨k1, k2, _⟩ := prepare_key_fields hprep
      have le : key.l1 ≤ s.last ∧ key.l2 ≤ s.last := by
        rcases orderOperands_cases op o with same | ⟨_, swapped⟩
        · rw [k1, k2, same]; exact ⟨h1, h2⟩
        · rw [k1, k2, swapped]; exact ⟨h2, h1⟩
      have before : Returns 4 s (operandProbes fl mem key orig s) :=
        operandProbes_returns topo (by omega) le.1 le.2
      obtain ⟨s1, hbefore, e1, _⟩ := before
      have top := topo.top
      have t1 := e1.stackTop
      have m1 := e1.last
      have hcreate : create fl s1 key =
          some (s1.last + 1, (s1.push key).insert (s1.last + 1)) :=
        create_of_room (by omega) (by omega) (by omega) (by omega)
      have after : Returns 2 ((s1.push key).insert (s1.last + 1))
          (truncProbes fl mem key orig ((s1.push key).insert (s1.last + 1))) := by
        refine truncProbes_returns ?_ ?_ ?_
        all_goals simp only [Runtime.insert_stackTop, Runtime.push_stackTop,
          Runtime.insert_last, Runtime.push_last]
        all_goals omega
      obtain ⟨_, hafter, _⟩ := after
      simp [hlook, buildLabel, hbefore, hcreate, hafter]

end Probes

/-! ## The labels a call returns -/

lemma simplifyLeft_ret (h : simplifyLeft op size o = .ret l) : l = 0 ∨ op ≠ .load ∧ l = o.l2 := by
  simp only [simplifyLeft] at h
  split at h
  · split at h <;> cases h <;> first | exact .inl rfl | exact .inr ⟨by decide, rfl⟩
  split at h
  · split at h
    next hand =>
      cases h
      exact .inr ⟨by simp [hand], rfl⟩
    · split at h
      · cases h; exact .inl rfl
      · split at h <;> cases h
  · cases h

lemma simplifyRight_ret (h : simplifyRight op o = .ret l) : l = o.l1 := by
  simp only [simplifyRight] at h
  split at h
  · split at h <;> cases h <;> rfl
  · cases h

lemma simplifyShape_ret (h : simplifyShape s op size o = .ret l) :
    l = 0 ∨ ((s.info o.l1).op = .zext ∨ (s.info o.l1).op = .sext) ∧ l = (s.info o.l1).l1 := by
  simp only [simplifyShape] at h
  split at h
  · split at h
    next hext =>
      split at h <;> cases h
      exact .inr ⟨hext, rfl⟩
    · cases h
  · split at h <;> cases h
    exact .inl rfl

/-- A label that is returned without a record is an operand, the base of one, or special. -/
lemma prepare_ret (h : prepare mem s op size o = .ret l) :
    l = 0 ∨ l = kInitializingLabel ∨ l = (orderOperands op o).l1 ∨
      op ≠ .load ∧ l = (orderOperands op o).l2 ∨
      (orderOperands op o).l1 ≠ kInitializingLabel ∧
        ((s.info (orderOperands op o).l1).op = .zext ∨
          (s.info (orderOperands op o).l1).op = .sext) ∧
        l = (s.info (orderOperands op o).l1).l1 := by
  simp only [prepare] at h
  split at h
  · cases h; exact .inl rfl
  cases early : earlyReturn s op (orderOperands op o) with
  | some l' =>
    simp only [early, Prepared.ret.injEq] at h
    subst h
    rcases earlyReturn_cases early with ⟨zero, -⟩ | ⟨init, -⟩ | ⟨-, zero | ⟨-, first⟩⟩
    · exact .inl zero
    · exact .inr (.inl init)
    · exact .inl zero
    · exact .inr (.inr (.inl first))
  | none =>
    obtain ⟨k1, k2⟩ := recordOperands_labels mem op size (orderOperands op o)
    cases hsimp : simplify s op size (recordOperands mem op size (orderOperands op o)) with
    | keep op' => simp only [early, hsimp, reduceCtorEq] at h
    | ret l' =>
      simp only [early, hsimp, Prepared.ret.injEq] at h
      subst h
      rcases simplify_cases s op size (recordOperands mem op size (orderOperands op o)) with
        ⟨l', hleft, hret⟩ | ⟨op', _, ⟨l', hright, hret⟩ | ⟨_, hshape⟩⟩
      · rw [hsimp, Simplified.ret.injEq] at hret
        subst hret
        rcases simplifyLeft_ret hleft with zero | ⟨ne, same⟩
        · exact .inl zero
        · exact .inr (.inr (.inr (.inl ⟨ne, same.trans k2⟩)))
      · rw [hsimp, Simplified.ret.injEq] at hret
        subst hret
        exact .inr (.inr (.inl ((simplifyRight_ret hright).trans k1)))
      · rw [hsimp] at hshape
        rcases simplifyShape_ret hshape.symm with zero | ⟨hext, same⟩
        · exact .inl zero
        · rw [k1] at hext same
          exact .inr (.inr (.inr (.inr ⟨(earlyReturn_none_init early).1, hext, same⟩)))

lemma base_existing (topo : Topological s) {x : Nat} (h : Existing s x)
    (init : x ≠ kInitializingLabel)
    (hext : (s.info x).op = .zext ∨ (s.info x).op = .sext ∨ (s.info x).op = .extract) :
    Existing s (s.info x).l1 := by
  rcases h with le | h | bounds
  · have pos : 1 ≤ x := by
      by_contra zero
      rw [show x = 0 by omega, topo.const] at hext
      rcases hext with hext | hext | hext <;> cases hext
    exact (topo.first x pos le).imp (fun before => by omega) .inr
  · exact absurd h init
  · rw [bounds.2] at hext
    rcases hext with hext | hext | hext <;> cases hext

/-- A label is usable where it exists, or where assertions guard every write. -/
def Usable (fl : Flags) (s : Runtime) (l : Nat) : Prop := fl.asserts = true ∨ Existing s l

lemma Usable.extends (h : Usable fl s l) (e : Extends s s') : Usable fl s' l :=
  h.imp_right fun exists' => exists'.extends e

lemma taintUnion_usable (topo : Topological s) (h1 : Usable fl s o.l1)
    (h2 : op ≠ .load → Usable fl s o.l2)
    (h : taintUnion fl mem s op size o = some (l, s')) : Grows Legal s s' ∧ Usable fl s' l := by
  by_cases on : fl.asserts = true
  · exact ⟨taintUnion_asserted on h, .inl on⟩
  have e1 : Existing s o.l1 := h1.resolve_left on
  have e2 : op ≠ .load → Existing s o.l2 := fun ne => (h2 ne).resolve_left on
  have grows : Grows Legal s s' := taintUnion_legal e1 e2 h
  refine ⟨grows, .inr ?_⟩
  rcases taintUnion_cases h with ⟨hret, rfl⟩ | ⟨key, orig, hprep, ⟨hit, rfl⟩ | hbuild⟩
  · -- the ordered operands exist as well
    have ordered : Existing s' (orderOperands op o).l1 ∧
        (op ≠ .load → Existing s' (orderOperands op o).l2) := by
      rcases orderOperands_cases op o with same | ⟨comm, swapped⟩
      · rw [same]; exact ⟨e1, e2⟩
      · have ne : op ≠ .load := by
          rintro rfl
          exact absurd comm (by decide)
        rw [swapped]; exact ⟨e2 ne, fun _ => e1⟩
    rcases prepare_ret hret with rfl | rfl | rfl | ⟨ne, rfl⟩ | ⟨init, hext, rfl⟩
    · exact .inl (Nat.zero_le _)
    · exact .inr (.inl rfl)
    · exact ordered.1
    · exact ordered.2 ne
    · exact base_existing topo ordered.1 init (hext.imp_right .inl)
  · exact .inl (topo.lookup_some hit).2.1
  · have built := buildLabel_some (P := fun _ _ => True) (fun _ _ _ _ _ _ _ => trivial)
      (fun _ _ _ => trivial) hbuild
    exact .inl built.2.2.1

/-! ## Unions without probes -/

/-- Opcodes that `__taint_union` has no probe for. -/
def Quiet (op : Operator) : Prop :=
  op.low ∉ [19, 20, 22, 23] ∧ op.low ∉ [25, 26, 27] ∧ op ≠ .trunc

instance (op : Operator) : Decidable (Quiet op) := by
  unfold Quiet
  infer_instance

lemma quiet_icmp (p : Predicate) : Quiet (.icmp p) := by
  simp [Quiet]

/-- A label that has the fields of the key, found in the table or written to it. -/
structure Answer (s : Runtime) (key : LabelInfo) (l : Nat) (s' : Runtime) : Prop where
  pos : 1 ≤ l
  le : l ≤ s'.last
  bound : s'.last ≤ s.last + 1
  fields : sameKey (s'.info l) key = true
  conds : s'.conds = s.conds
  grows : Grows (fun t r => t = s ∧ r = key) s s'

lemma buildLabel_quiet (quiet : Quiet key.op) :
    buildLabel fl mem s key orig = create fl s key := by
  have before : operandProbes fl mem key orig s = some s := by
    rw [operandProbes, if_neg quiet.1, if_neg quiet.2.1, ite_self]
  have after : ∀ t, truncProbes fl mem key orig t = some t := by
    simp [truncProbes, quiet.2.2]
  simp [buildLabel, before, after]

lemma taintUnion_quiet (prepared : prepare mem s op size o = .key key orig)
    (quiet : Quiet key.op) : taintUnion fl mem s op size o = plainUnion fl mem s op size o := by
  simp only [taintUnion, plainUnion, prepared, buildLabel_quiet quiet]

section

variable (topo : Topological s) (prepared : prepare mem s op size o = .key key orig)

include topo prepared

lemma plainUnion_answer (union : plainUnion fl mem s op size o = some (l, s')) :
    Answer s key l s' := by
  simp only [plainUnion, prepared] at union
  cases look : s.lookup key with
  | some found =>
    simp only [look] at union
    obtain ⟨rfl, rfl⟩ := union
    obtain ⟨pos, le, same⟩ := topo.lookup_some look
    exact ⟨pos, le, Nat.le_succ _, same, rfl, .refl⟩
  | none =>
    simp only [look] at union
    obtain ⟨rfl, room, rfl, -⟩ := create_some union
    refine ⟨Nat.le_add_left 1 _, by simp, Nat.le_refl _, ?_, rfl, Grows.refl.insert room ⟨rfl, rfl⟩⟩
    simpa using sameKey_refl key

lemma taintUnion_answer (quiet : Quiet key.op)
    (union : taintUnion fl mem s op size o = some (l, s')) : Answer s key l s' := by
  rw [taintUnion_quiet prepared quiet] at union
  exact plainUnion_answer topo prepared union

end

namespace Answer

lemma ext (answer : Answer s key l s') : Extends s s' := answer.grows.toExtends

variable (answer : Answer s key l s') (topo : Topological s) (first : key.l1 ≤ s.last)
  (second : key.l2 ≤ s.last)

include answer topo first second

lemma topological : Topological s' := by
  refine topo.grows (answer.grows.mono ?_)
  rintro t r ⟨rfl, rfl⟩
  exact ⟨.inl (by omega), fun _ => .inl (by omega)⟩

lemma ordered : Denotation.Ordered s'.info l := by
  have topo' := answer.topological topo first second
  obtain ⟨_, _, -⟩ := (sameKey_iff _ _).mp answer.fields
  have room := topo'.room
  have last := answer.ext.last
  exact topo'.ordered answer.pos answer.le (by omega) (fun _ => by omega)

end Answer

/-! ## Opcodes that only move bytes -/

/-- Load, Extract and Concat are never simplified and never probed. -/
def IsByteMove (op : Operator) : Prop := op = .load ∨ op = .extract ∨ op = .concat

section ByteMoves

lemma byteMove_simplify (move : IsByteMove op) (s : Runtime) (size : Nat) (o : Operands) :
    simplify s op size o = .keep op := by
  rcases move with rfl | rfl | rfl
  all_goals simp [simplify, simplifyLeft, simplifyRight, simplifyShape]

lemma byteMove_order (move : IsByteMove op) (o : Operands) : orderOperands op o = o := by
  rcases move with rfl | rfl | rfl
  all_goals exact orderOperands_of_not_commutative (by decide) o

lemma byteMove_quiet (move : IsByteMove op) : Quiet op := by
  rcases move with rfl | rfl | rfl
  all_goals decide

/-- The record of a call that moves bytes. -/
def moveKey (mem : Nat → Nat) (s : Runtime) (op : Operator) (size : Nat) (o : Operands) :
    LabelInfo :=
  unionKey s op size (recordOperands mem op size o)

section

variable (move : IsByteMove op)

include move

lemma moveKey_fields (mem : Nat → Nat) (s : Runtime) (size : Nat) (o : Operands) :
    sameKey (moveKey mem s op size o) ⟨o.l1, o.l2, if 1 ≤ o.l1 then 0 else o.op1,
      if 1 ≤ o.l2 then 0 else o.op2, op, size, 0⟩ = true := by
  have record : recordOperands mem op size o = ⟨o.l1, o.l2, if 1 ≤ o.l1 then 0 else o.op1,
      if 1 ≤ o.l2 then 0 else o.op2⟩ := by
    rcases move with rfl | rfl | rfl
    all_goals simp [recordOperands, Operator.low, Operator.code]
  rw [moveKey, record]
  exact (sameKey_iff _ _).mpr ⟨rfl, rfl, rfl, rfl, rfl, rfl⟩

lemma byteMove_prepare (early : earlyReturn s op o = none) :
    prepare mem s op size o = .key (moveKey mem s op size o) o := by
  have valid : isValidOp op = true := by
    rcases move with rfl | rfl | rfl
    all_goals decide
  simp [prepare, valid, byteMove_order move, early, byteMove_simplify move, moveKey]

lemma taintUnion_byteMove (early : earlyReturn s op o = none) :
    taintUnion fl mem s op size o =
      match s.lookup (moveKey mem s op size o) with
      | some l => some (l, s)
      | none => create fl s (moveKey mem s op size o) := by
  have prepared : prepare mem s op size o = .key (moveKey mem s op size o) o :=
    byteMove_prepare move early
  have quiet : Quiet (moveKey mem s op size o).op := byteMove_quiet move
  rw [taintUnion_quiet prepared quiet, plainUnion, prepared]

lemma byteMove_early (h : earlyReturn s op o = some l) : l = 0 ∨ l = kInitializingLabel := by
  rcases earlyReturn_cases h with ⟨zero, -⟩ | ⟨init, -⟩ | ⟨-, zero | ⟨rfl, -⟩⟩
  · exact .inl zero
  · exact .inr init
  · exact .inl zero
  · rcases move with op | op | op <;> cases op

end

lemma taintUnion_byteMove_some (topo : Topological s) (move : IsByteMove op)
    (early : earlyReturn s op o = none)
    (h : taintUnion fl mem s op size o = some (l, s')) : Answer s (moveKey mem s op size o) l s' :=
  taintUnion_answer topo (byteMove_prepare move early) (byteMove_quiet move) h

lemma taintUnion_byteMove_of_room (fl : Flags) (mem : Nat → Nat) (size : Nat) (o : Operands)
    (topo : Topological s) (move : IsByteMove op)
    (room : s.last + 1 < s.stackTop) (h1 : o.l1 ≤ s.last) (h2 : o.l2 ≤ s.last) :
    ∃ l s', taintUnion fl mem s op size o = some (l, s') := by
  cases early : earlyReturn s op o with
  | some l =>
    have valid : isValidOp op = true := by
      rcases move with rfl | rfl | rfl
      all_goals decide
    exact ⟨l, s, by simp [taintUnion, prepare, valid, byteMove_order move, early]⟩
  | none =>
    rw [taintUnion_byteMove move early]
    cases look : s.lookup (moveKey mem s op size o) with
    | some l => exact ⟨l, s, rfl⟩
    | none =>
      obtain ⟨k1, k2⟩ := recordOperands_labels mem op size o
      refine ⟨_, _, create_of_room topo.top room ?_ ?_⟩
      · exact Nat.le_trans (Nat.le_of_eq k1) h1
      · exact Nat.le_trans (Nat.le_of_eq k2) h2

end ByteMoves

end Growth

end TaintUnion
