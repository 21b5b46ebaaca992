import SymSan.RuntimeOps

/-!
# Labels are shared

`__taint_union` and `__taint_trace_global` look a record up before they create a
label for it. The hash of a record is not a function of its fields: a union
mixes in the hashes stored with its operands, a global mixes in its address, and
a freed allocation changes its opcode while it stays where it was filed. The
invariant below says what is left: on live labels equal fields mean equal hashes,
because operands keep the hash they had, and every live label is filed under its
own hash. From it follows what a call answers and that no two live labels are
twins. Input labels come from `dfsan_create_label`, which never looks up.
-/

namespace HashConsing

open LabelTable TableGrowth TaintUnion
open RuntimeOps (createLabel traceGlobal)
open Option (bind_eq_some_iff map_eq_some_iff)

variable (fl : Flags)

/-- `__dfsw_free` on the label table: the allocation is marked, not removed. -/
def dfswFree (s : Runtime) (ptr ptrLabel : Nat) : Runtime :=
  if ptr ≠ 0 ∧ fl.traceBounds = true ∧ (s.info ptrLabel).op = .alloca then
    { s with
      info := fun l => if l = ptrLabel then { s.info l with op := .free } else s.info l }
  else s

inductive Call where
  | source (offset : Nat)
  | union (mem : Nat → Nat) (op : Operator) (size : Nat) (o : Operands)
  | global (addr size : Nat)
  | free (ptr ptrLabel : Nat)

/-- The label a call returns and the table it leaves; `none` when the process dies. -/
def exec (s : Runtime) : Call → Option (Nat × Runtime)
  | .source offset => createLabel s offset
  | .union mem op size o => taintUnion fl mem s op size o
  | .global addr size => traceGlobal fl s addr size
  | .free ptr ptrLabel => some (0, dfswFree fl s ptr ptrLabel)

def runCalls (fl : Flags) : Runtime → List Call → Option Runtime
  | s, [] => some s
  | s, c :: rest => (exec fl s c).bind fun r => runCalls fl r.2 rest

/-! ## What the runs promise -/

/-- A label whose record the calls below leave alone, up to a free. -/
def Stable (s : Runtime) (l : Nat) : Prop := l ≤ s.last ∨ s.stackTop ≤ l

/-- Operands are labels of the table or of the stack; the second operand of a Load
is a number of labels. No caller asks for the opcode that marks freed memory. -/
def Call.Passes (s : Runtime) : Call → Prop
  | .union _ op _ o => op ≠ .free ∧ Stable s o.l1 ∧ Stable s o.l2
  | _ => True

/-- The address ranges that are reported as globals. -/
def GlobalRange (calls : List Call) (lower upper : Nat) : Prop :=
  ∃ size, Call.global lower size ∈ calls ∧ upper = (lower + size) % 2 ^ 64

/-- No allocation of a concrete size has the bounds of a global. -/
def Apart (calls : List Call) : Prop :=
  ∀ mem lower upper, Call.union mem .alloca 64 ⟨0, 0, lower, upper⟩ ∈ calls →
    ¬ GlobalRange calls lower upper

/-- A table as the process starts with it: input labels only, nothing filed. -/
structure Started (s : Runtime) : Prop where
  room : s.last < s.stackTop
  inputs : ∀ l, 1 ≤ l → l ≤ s.last → (s.info l).op = .input
  empty : ∀ b, s.bucket b = []

/-- A label made by a union or a global that has not been freed. -/
def Live (s : Runtime) (l : Nat) : Prop :=
  1 ≤ l ∧ l ≤ s.last ∧ (s.info l).op ≠ .input ∧ (s.info l).op ≠ .free

instance (s : Runtime) (l : Nat) : Decidable (Live s l) :=
  inferInstanceAs (Decidable (_ ∧ _))

def NoTwins (s : Runtime) : Prop :=
  ∀ l l', Live s l → Live s l' → sameKey (s.info l) (s.info l') = true → l = l'

/-- A condition about undefined behaviour: an operand of the record under
construction, compared with a constant. -/
def IsProbe (key r : LabelInfo) : Prop :=
  isIcmp r.op = true ∧ r.l2 = 0 ∧ (r.l1 = key.l1 ∨ r.l1 = key.l2)

/-- The answer for a record: the live label that has its fields, or else one new
label that gets it, beside the probes of a run that solves for undefined behaviour. -/
structure Shares (s : Runtime) (key : LabelInfo) (r : Option (Nat × Runtime)) : Prop where
  found : ∀ l, Live s l → sameKey (s.info l) key = true → r = some (l, s)
  fresh : (∀ l, Live s l → sameKey (s.info l) key = false) → ∀ l s', r = some (l, s') →
    s.last < l ∧ l ≤ s'.last ∧ s'.info l = key ∧ (∀ k, k ≤ s.last → s'.info k = s.info k) ∧
      ∀ k, s.last < k → k ≤ s'.last → k ≠ l → fl.solveUb = true ∧ IsProbe key (s'.info k)

def globalKey (addr size : Nat) : LabelInfo :=
  ⟨0, 0, addr, (addr + size) % 2 ^ 64, .alloca, 64,
    xxhash (UInt32.ofNat addr) (UInt32.ofNat (addr / 2 ^ 32)) 31⟩

def Answers (s : Runtime) : Call → Prop
  | .union mem op size o => match prepare mem s op size o with
    | .ret l => taintUnion fl mem s op size o = some (l, s)
    | .key key _ => Shares fl s key (taintUnion fl mem s op size o)
  | .global addr size =>
    if fl.traceBounds = true then
      Shares fl s (globalKey addr size) (traceGlobal fl s addr size)
    else traceGlobal fl s addr size = some (0, s)
  | _ => True

/-! ## Hashes -/

/-- The hash `__taint_union` gives to a record. -/
def treeHash (s : Runtime) (r : LabelInfo) : UInt32 :=
  (unionKey s r.op r.size ⟨r.l1, r.l2, r.op1, r.op2⟩).hash

section Invariant

variable {G : Nat → Nat → Prop} {fl : Flags} {mem : Nat → Nat} {s s' : Runtime} {key r : LabelInfo}
  {orig : Operands} {l addr : Nat}

/-- Bounds of a global, as a predicate of the fields alone. -/
def IsGlobal (G : Nat → Nat → Prop) (r : LabelInfo) : Prop :=
  r.op = .alloca ∧ r.l1 = 0 ∧ r.l2 = 0 ∧ r.size = 64 ∧ G r.op1 r.op2

/-- The hash is the one that the fields ask for. -/
structure Hashed (G : Nat → Nat → Prop) (s : Runtime) (r : LabelInfo) : Prop where
  global : IsGlobal G r → r.hash = xxhash (UInt32.ofNat r.op1) (UInt32.ofNat (r.op1 / 2 ^ 32)) 31
  tree : ¬ IsGlobal G r → r.hash = treeHash s r

lemma Stable.extends (h : Stable s l) (e : Extends s s') : Stable s' l := by
  have last := e.last
  have top := e.stackTop
  exact h.imp (fun h => by omega) fun h => by omega

lemma Hashed.congr (h : Hashed G s r) (h1 : (s'.info r.l1).hash = (s.info r.l1).hash)
    (h2 : (s'.info r.l2).hash = (s.info r.l2).hash) : Hashed G s' r := by
  constructor
  · exact h.global
  · intro tree
    simp only [treeHash, unionKey, h1, h2]
    exact h.tree tree

lemma Hashed.unique {a b : LabelInfo} (ha : Hashed G s a) (hb : Hashed G s b)
    (same : sameKey a b = true) : a.hash = b.hash := by
  obtain ⟨a1, a2, ac1, ac2, aop, asize, ahash⟩ := a
  obtain ⟨_, _, _, _, _, _, _⟩ := b
  rw [sameKey_iff] at same
  obtain ⟨rfl, rfl, rfl, rfl, rfl, rfl⟩ := same
  by_cases global : IsGlobal G ⟨a1, a2, ac1, ac2, aop, asize, ahash⟩
  · exact (ha.global global).trans (hb.global global).symm
  · exact (ha.tree global).trans (hb.tree global).symm

/-! ## The invariant -/

structure Consed (G : Nat → Nat → Prop) (s : Runtime) : Prop where
  room : s.last < s.stackTop
  entries : ∀ b l, l ∈ s.bucket b → 1 ≤ l ∧ l ≤ s.last
  filed : ∀ l, Live s l → l ∈ s.bucket (bucketOf (s.info l))
  operands : ∀ l, Live s l → Stable s (s.info l).l1 ∧ Stable s (s.info l).l2
  hashed : ∀ l, Live s l → Hashed G s (s.info l)
  unique : NoTwins s

/-- A record that a call may look up and create. -/
structure Storable (G : Nat → Nat → Prop) (s : Runtime) (r : LabelInfo) : Prop where
  notInput : r.op ≠ .input
  notFree : r.op ≠ .free
  first : Stable s r.l1
  second : Stable s r.l2
  hashed : Hashed G s r

lemma Started.consed (start : Started s) : Consed G s := by
  have none : ∀ l, ¬ Live s l := fun l live => live.2.2.1 (start.inputs l live.1 live.2.1)
  constructor
  · exact start.room
  · intro b l mem
    rw [start.empty] at mem
    cases mem
  iterate 3
    · exact fun l live => absurd live (none l)
  · exact fun l _ live => absurd live (none l)

lemma Storable.extends (h : Storable G s key) (e : Extends s s') : Storable G s' key where
  notInput := h.notInput
  notFree := h.notFree
  first := h.first.extends e
  second := h.second.extends e
  hashed := h.hashed.congr (by rw [e.same _ h.first]) (by rw [e.same _ h.second])

section

variable (h : Consed G s) (ok : Storable G s key)

include h ok

lemma Consed.lookup_live (hit : s.lookup key = some l) :
    Live s l ∧ sameKey (s.info l) key = true := by
  have same := List.find?_some hit
  obtain ⟨pos, le⟩ := h.entries _ l (List.mem_of_find?_eq_some hit)
  obtain ⟨_, _, hop, _⟩ := (sameKey_iff _ _).mp same
  exact ⟨⟨pos, le, hop ▸ ok.notInput, hop ▸ ok.notFree⟩, same⟩

lemma Consed.lookup_eq (live : Live s l) (same : sameKey (s.info l) key = true) :
    s.lookup key = some l := by
  have hash : (s.info l).hash = key.hash := (h.hashed l live).unique ok.hashed same
  have filed : l ∈ s.bucket (bucketOf key) := by
    have := h.filed l live
    simp only [bucketOf, hash] at this
    exact this
  cases hit : s.lookup key with
  | none => exact absurd same (List.find?_eq_none.mp hit l filed)
  | some k =>
    obtain ⟨liveK, sameK⟩ := h.lookup_live ok hit
    rw [h.unique k l liveK live (sameKey_trans sameK (sameKey_symm same))]

lemma Consed.absent (miss : s.lookup key = none) :
    ∀ l, Live s l → sameKey (s.info l) key = false := by
  intro l live
  by_contra same
  rw [h.lookup_eq ok live (by simpa using same)] at miss
  cases miss

lemma Consed.miss (absent : ∀ l, Live s l → sameKey (s.info l) key = false) :
    s.lookup key = none := by
  cases hit : s.lookup key with
  | none => rfl
  | some k =>
    obtain ⟨live, same⟩ := h.lookup_live ok hit
    rw [absent k live] at same
    cases same

end

/-! ## Writing to the table -/

lemma live_push (h : Live (s.push r) l) :
    l = s.last + 1 ∧ r.op ≠ .input ∧ r.op ≠ .free ∨ Live s l ∧ (s.push r).info l = s.info l := by
  obtain ⟨pos, le, input, free⟩ := h
  by_cases new : l = s.last + 1
  · subst new
    rw [Runtime.push_info_new] at input free
    exact .inl ⟨rfl, input, free⟩
  · have old := Runtime.push_info_of_ne s r new
    rw [old] at input free
    rw [Runtime.push_last] at le
    exact .inr ⟨⟨pos, by omega, input, free⟩, old⟩

lemma Consed.source (h : Consed G s) (room : s.last + 1 < s.stackTop) (input : r.op = .input) :
    Consed G (s.push r) := by
  have ext : Extends s (s.push r) := .push room r
  have old : ∀ l, Live (s.push r) l → Live s l ∧ (s.push r).info l = s.info l := by
    intro l live
    rcases live_push live with ⟨_, no, _⟩ | old
    · exact absurd input no
    · exact old
  constructor
  · exact room
  · intro b l mem
    obtain ⟨pos, le⟩ := h.entries b l mem
    exact ⟨pos, Nat.le_succ_of_le le⟩
  · intro l live
    obtain ⟨live, info⟩ := old l live
    rw [info]
    exact h.filed l live
  · intro l live
    obtain ⟨live, info⟩ := old l live
    rw [info]
    exact ⟨(h.operands l live).1.extends ext, (h.operands l live).2.extends ext⟩
  · intro l live
    obtain ⟨live, info⟩ := old l live
    rw [info]
    refine (h.hashed l live).congr ?_ ?_
    · rw [ext.same _ (h.operands l live).1]
    · rw [ext.same _ (h.operands l live).2]
  · intro l l' live live' same
    obtain ⟨live, info⟩ := old l live
    obtain ⟨live', info'⟩ := old l' live'
    rw [info, info'] at same
    exact h.unique l l' live live' same

lemma Consed.file (h : Consed G s) (room : s.last + 1 < s.stackTop)
    (ok : Storable G s key) (absent : ∀ l, Live s l → sameKey (s.info l) key = false) :
    Consed G ((s.push key).insert (s.last + 1)) := by
  have ext : Extends s ((s.push key).insert (s.last + 1)) :=
    (Extends.push room key).trans (Extends.insert _ _)
  have cases : ∀ l, Live ((s.push key).insert (s.last + 1)) l →
      l = s.last + 1 ∧ (s.push key).info l = key ∨ Live s l ∧ (s.push key).info l = s.info l := by
    intro l live
    rcases live_push live with ⟨rfl, _⟩ | old
    · exact .inl ⟨rfl, Runtime.push_info_new s key⟩
    · exact .inr old
  have apart : ∀ l, Live s l → sameKey (s.info l) key = true → False := by
    intro l live same
    rw [absent l live] at same
    cases same
  constructor
  · exact room
  · intro b l mem
    rw [Runtime.insert_last, Runtime.push_last]
    rcases Runtime.mem_insert_bucket mem with rfl | old
    · exact ⟨by omega, by omega⟩
    · obtain ⟨pos, _⟩ := h.entries b l old
      exact ⟨pos, by omega⟩
  · intro l live
    simp only [Runtime.insert]
    rcases cases l live with ⟨rfl, info⟩ | ⟨live, info⟩
    · rw [info]
      simp
    · rw [info]
      split
      · exact List.mem_cons_of_mem _ (h.filed l live)
      · exact h.filed l live
  · intro l live
    rw [Runtime.insert_info]
    rcases cases l live with ⟨rfl, info⟩ | ⟨live, info⟩
    · rw [info]
      exact ⟨ok.first.extends ext, ok.second.extends ext⟩
    · rw [info]
      exact ⟨(h.operands l live).1.extends ext, (h.operands l live).2.extends ext⟩
  · intro l live
    rw [Runtime.insert_info]
    rcases cases l live with ⟨rfl, info⟩ | ⟨live, info⟩
    · rw [info]
      exact (ok.extends ext).hashed
    · rw [info]
      refine (h.hashed l live).congr ?_ ?_
      · rw [ext.same _ (h.operands l live).1]
      · rw [ext.same _ (h.operands l live).2]
  · intro l l' live live' same
    rw [Runtime.insert_info] at same
    rcases cases l live with ⟨rfl, info⟩ | ⟨live, info⟩
    · rcases cases l' live' with ⟨rfl, _⟩ | ⟨live', info'⟩
      · rfl
      · rw [info, info'] at same
        exact (apart l' live' (sameKey_symm same)).elim
    rcases cases l' live' with ⟨rfl, info'⟩ | ⟨live', info'⟩
    · rw [info, info'] at same
      exact (apart l live same).elim
    · rw [info, info'] at same
      exact h.unique l l' live live' same

lemma Consed.traceCond (h : Consed G s) (l : Nat) (c : UndefinedCheck) :
    Consed G (s.traceCond l c) :=
  ⟨h.room, h.entries, h.filed, h.operands, fun k live => (h.hashed k live).congr rfl rfl, h.unique⟩

/-- A free takes one label out of the live ones and keeps every stored hash. -/
lemma Consed.free (h : Consed G s) (ptr ptrLabel : Nat) :
    Consed G (dfswFree fl s ptr ptrLabel) := by
  unfold dfswFree
  split
  swap
  · exact h
  have hash : ∀ l, (if l = ptrLabel then { s.info l with op := Operator.free }
      else s.info l).hash = (s.info l).hash := by
    intro l
    split <;> rfl
  have old : ∀ l, Live { s with info := fun l =>
      if l = ptrLabel then { s.info l with op := Operator.free } else s.info l } l →
      Live s l ∧ l ≠ ptrLabel := by
    rintro l ⟨pos, le, input, free⟩
    by_cases freed : l = ptrLabel
    · simp [freed] at free
    · simp only [if_neg freed] at input free
      exact ⟨⟨pos, le, input, free⟩, freed⟩
  constructor
  · exact h.room
  · exact h.entries
  · intro l live
    obtain ⟨live, kept⟩ := old l live
    simp only [if_neg kept]
    exact h.filed l live
  · intro l live
    obtain ⟨live, kept⟩ := old l live
    simp only [if_neg kept]
    exact h.operands l live
  · intro l live
    obtain ⟨live, kept⟩ := old l live
    simp only [if_neg kept]
    exact (h.hashed l live).congr (hash _) (hash _)
  · intro l l' live live' same
    obtain ⟨live, kept⟩ := old l live
    obtain ⟨live', kept'⟩ := old l' live'
    simp only [if_neg kept, if_neg kept'] at same
    exact h.unique l l' live live' same

lemma Consed.create (h : Consed G s) (ok : Storable G s key)
    (absent : ∀ l, Live s l → sameKey (s.info l) key = false)
    (made : create fl s key = some (l, s')) :
    Consed G s' ∧ Extends s s' ∧ l = s.last + 1 ∧ s'.last = s.last + 1 ∧ s'.info l = key := by
  obtain ⟨rfl, room, rfl, _⟩ := create_some made
  refine ⟨h.file room ok absent, (Extends.push room key).trans (Extends.insert _ _), rfl, rfl, ?_⟩
  exact Runtime.push_info_new s key

/-! ## Probes -/

/-- Only conditions on operands of `key` were added. -/
structure Probed (fl : Flags) (G : Nat → Nat → Prop) (key : LabelInfo) (s s' : Runtime) : Prop where
  consed : Consed G s'
  ext : Extends s s'
  new : ∀ k, s.last < k → k ≤ s'.last → fl.solveUb = true ∧ IsProbe key (s'.info k)

lemma Probed.refl (h : Consed G s) : Probed fl G key s s :=
  ⟨h, .refl s, fun k lt le => absurd lt (by omega)⟩

lemma Probed.trans {s1 s2 : Runtime} (h : Probed fl G key s s1) (h' : Probed fl G key s1 s2) :
    Probed fl G key s s2 := by
  refine ⟨h'.consed, h.ext.trans h'.ext, ?_⟩
  intro k lt le
  by_cases early : k ≤ s1.last
  · rw [h'.ext.same k (.inl early)]
    exact h.new k lt early
  · exact h'.new k (by omega) le

variable {op : Operator} {size : Nat} {o : Operands}

/-- The record of a union, with its hash from the operands it names. -/
lemma storable_of_prepare (prep : prepare mem s op size o = .key key orig)
    (notFree : op ≠ .free) (h1 : Stable s o.l1) (h2 : Stable s o.l2)
    (apart : op = .alloca → size = 64 → o.l1 = 0 → o.l2 = 0 → ¬ G o.op1 o.op2) :
    Storable G s key := by
  obtain ⟨k1, k2, ksize, kop⟩ := prepare_key_fields prep
  have valid : op ≠ .input := by
    rintro rfl
    simp [prepare, isValidOp, Operator.low, Operator.code] at prep
  have stable : Stable s key.l1 ∧ Stable s key.l2 := by
    rw [k1, k2]
    rcases orderOperands_cases op o with same | ⟨_, swapped⟩
    · rw [same]
      exact ⟨h1, h2⟩
    · rw [swapped]
      exact ⟨h2, h1⟩
  have notGlobal : ¬ IsGlobal G key := by
    rintro ⟨alloca, l1, l2, size64, range⟩
    rcases kop with kop | ⟨_, kop⟩
    · rw [alloca] at kop
      subst kop
      obtain ⟨rfl, _, _, _, rfl⟩ := prepare_key prep
      have plain : orderOperands .alloca o = o := orderOperands_of_not_commutative (by decide) o
      simp only [plain] at l1 l2 range
      exact apart rfl (ksize.symm.trans size64) l1 l2 range
    · rw [alloca] at kop
      cases kop
  constructor
  · rcases kop with kop | ⟨_, kop⟩
    · rw [kop]
      exact valid
    · rw [kop]
      decide
  · rcases kop with kop | ⟨_, kop⟩
    · rw [kop]
      exact notFree
    · rw [kop]
      decide
  · exact stable.1
  · exact stable.2
  · constructor
    · exact fun global => absurd global notGlobal
    · intro _
      obtain ⟨_, _, _, _, rfl⟩ := prepare_key prep
      rfl

section Probe

variable {asked : Bool} {p : Predicate} {a b : Nat} {check : UndefinedCheck}

lemma Consed.probe (h : Consed G s) (on : fl.solveUb = true) (stable : Stable s l)
    (operand : l = key.l1 ∨ l = key.l2)
    (run : probe fl mem asked l p size a b check s = some s') : Probed fl G key s s' := by
  unfold TaintUnion.probe at run
  split at run
  · cases made : plainUnion fl mem s (.icmp p) size ⟨l, 0, a, b⟩ with
    | none => simp [made] at run
    | some r =>
      obtain ⟨cond, _⟩ := r
      simp only [made, Option.some.injEq] at run
      subst run
      rcases plainUnion_cases made with rfl | ⟨record, _, prep, miss, made⟩
      · refine ⟨h.traceCond _ _, .traceCond _ _ _, ?_⟩
        intro k lt le
        exact absurd lt (by simpa using le)
      obtain ⟨k1, k2, kop⟩ := prepare_icmp_key prep
      have ok : Storable G s record :=
        storable_of_prepare prep (by simp) stable (.inl (Nat.zero_le _))
          (fun alloca => by cases alloca)
      obtain ⟨consed, ext, _, _, info⟩ := h.create ok (h.absent ok miss) made
      refine ⟨consed.traceCond _ _, ext.trans (.traceCond _ _ _), ?_⟩
      intro k lt le
      simp only [Runtime.traceCond_last] at le
      rw [Runtime.traceCond_info, show k = cond by omega, info]
      refine ⟨on, ?_, k2, ?_⟩
      · rw [kop]
        rfl
      · rw [k1]
        exact operand
  · cases run
    exact .refl h

lemma Consed.operandProbes (h : Consed G s) (ok : Storable G s key)
    (run : operandProbes fl mem key orig s = some s') : Probed fl G key s s' := by
  unfold TaintUnion.operandProbes at run
  split at run
  · cases run
    exact .refl h
  rename_i asks
  have on : fl.solveUb = true := by
    by_contra off
    exact asks (.inr (by simpa using off))
  split at run
  · exact h.probe on ok.second (.inr rfl) run
  split at run
  · obtain ⟨s1, run1, run⟩ := bind_eq_some_iff.mp run
    obtain ⟨s2, run2, run⟩ := bind_eq_some_iff.mp run
    obtain ⟨s3, run3, run⟩ := bind_eq_some_iff.mp run
    have p1 : Probed fl G key s s1 := h.probe on ok.second (.inr rfl) run1
    have ok1 := ok.extends p1.ext
    have p2 : Probed fl G key s1 s2 := p1.consed.probe on ok1.second (.inr rfl) run2
    have ok2 := ok1.extends p2.ext
    have p3 : Probed fl G key s2 s3 := p2.consed.probe on ok2.second (.inr rfl) run3
    have ok3 := ok2.extends p3.ext
    have p4 : Probed fl G key s3 s' := p3.consed.probe on ok3.first (.inl rfl) run
    exact p1.trans (p2.trans (p3.trans p4))
  · cases run
    exact .refl h

lemma Consed.truncProbes (h : Consed G s) (ok : Storable G s key)
    (run : truncProbes fl mem key orig s = some s') : Probed fl G key s s' := by
  unfold TaintUnion.truncProbes at run
  split at run
  next asks =>
    obtain ⟨s1, run1, run⟩ := bind_eq_some_iff.mp run
    have p1 : Probed fl G key s s1 := h.probe asks.2.2 ok.first (.inl rfl) run1
    exact p1.trans (p1.consed.probe asks.2.2 (ok.extends p1.ext).first (.inl rfl) run)
  · cases run
    exact .refl h

end Probe

lemma operandProbes_icmp (icmp : isIcmp key.op = true) :
    operandProbes fl mem key orig s = some s := by
  have low : key.op.low = 53 := by
    cases hop : key.op with
    | icmp p => exact low_icmp p
    | _ => simp [hop, isIcmp] at icmp
  simp [operandProbes, low]

/-- The probes before a label is taken do not create its record. -/
lemma Consed.absent_after (h : Consed G s) (ok : Storable G s key)
    (run : TaintUnion.operandProbes fl mem key orig s = some s')
    (absent : ∀ l, Live s l → sameKey (s.info l) key = false) :
    ∀ l, Live s' l → sameKey (s'.info l) key = false := by
  intro l live
  obtain ⟨_, ext, new⟩ := h.operandProbes ok run
  by_cases old : l ≤ s.last
  · have info := ext.same l (.inl old)
    have live' : Live s l := ⟨live.1, old, info ▸ live.2.2.1, info ▸ live.2.2.2⟩
    rw [info]
    exact absent l live'
  obtain ⟨_, probe, _⟩ := new l (by omega) live.2.1
  by_contra same
  have same : sameKey (s'.info l) key = true := by simpa using same
  obtain ⟨_, _, hop, _⟩ := (sameKey_iff _ _).mp same
  rw [hop] at probe
  rw [operandProbes_icmp probe] at run
  cases run
  exact old live.2.1

lemma Consed.buildLabel (h : Consed G s) (ok : Storable G s key)
    (absent : ∀ l, Live s l → sameKey (s.info l) key = false)
    (made : buildLabel fl mem s key orig = some (l, s')) :
    Consed G s' ∧ Extends s s' ∧ s.last < l ∧ l ≤ s'.last ∧ s'.info l = key ∧
      ∀ k, s.last < k → k ≤ s'.last → k ≠ l → fl.solveUb = true ∧ IsProbe key (s'.info k) := by
  obtain ⟨s1, before, made⟩ := bind_eq_some_iff.mp made
  obtain ⟨⟨_, s2⟩, created, made⟩ := bind_eq_some_iff.mp made
  obtain ⟨_, after, made⟩ := map_eq_some_iff.mp made
  cases made
  have p1 : Probed fl G key s s1 := h.operandProbes ok before
  have ok1 := ok.extends p1.ext
  obtain ⟨consed, ext, new, last, info⟩ :=
    p1.consed.create ok1 (h.absent_after ok before absent) created
  have p3 : Probed fl G key s2 s' := consed.truncProbes (ok1.extends ext) after
  have le1 := p1.ext.last
  have le3 := p3.ext.last
  refine ⟨p3.consed, p1.ext.trans (ext.trans p3.ext), by omega, by omega, ?_, ?_⟩
  · rw [p3.ext.same _ (.inl (by omega))]
    exact info
  intro k lt le ne
  by_cases late : s2.last < k
  · exact p3.new k late le
  · have early : k ≤ s1.last := by omega
    rw [p3.ext.same k (.inl (by omega)), ext.same k (.inl early)]
    exact p1.new k lt early

/-! ## Calls -/

lemma taintUnion_shares (h : Consed G s) (prep : prepare mem s op size o = .key key orig)
    (ok : Storable G s key) : Shares fl s key (taintUnion fl mem s op size o) := by
  constructor
  · intro l live same
    simp only [taintUnion, prep, h.lookup_eq ok live same]
  · intro absent l s' made
    simp only [taintUnion, prep, h.miss ok absent] at made
    obtain ⟨_, ext, lt, le, info, probes⟩ := h.buildLabel ok absent made
    exact ⟨lt, le, info, fun k old => ext.same k (.inl old), probes⟩

lemma taintUnion_consed (h : Consed G s) (notFree : op ≠ .free) (h1 : Stable s o.l1)
    (h2 : Stable s o.l2) (apart : op = .alloca → size = 64 → o.l1 = 0 → o.l2 = 0 → ¬ G o.op1 o.op2)
    (made : taintUnion fl mem s op size o = some (l, s')) : Consed G s' := by
  rcases taintUnion_cases made with ⟨_, rfl⟩ | ⟨key, orig, prep, answer⟩
  · exact h
  have ok : Storable G s key := storable_of_prepare prep notFree h1 h2 apart
  cases look : s.lookup key with
  | some k =>
    simp only [taintUnion, prep, look, Option.some.injEq, Prod.mk.injEq] at made
    exact made.2 ▸ h
  | none =>
    rcases answer with ⟨hit, rfl⟩ | built
    · exact h
    · exact (h.buildLabel ok (h.absent ok look) built).1

lemma globalKey_storable (range : G addr ((addr + size) % 2 ^ 64)) :
    Storable G s (globalKey addr size) where
  notInput := by simp [globalKey]
  notFree := by simp [globalKey]
  first := .inl (Nat.zero_le _)
  second := .inl (Nat.zero_le _)
  hashed := ⟨fun _ => rfl, fun tree => absurd ⟨rfl, rfl, rfl, rfl, range⟩ tree⟩

/-- A global takes its label as a union without operands does. -/
lemma traceGlobal_create (on : fl.traceBounds = true) (s : Runtime) (addr size : Nat) :
    traceGlobal fl s addr size =
      match s.lookup (globalKey addr size) with
      | some l => some (l, s)
      | none => create fl s (globalKey addr size) := by
  have assert : (globalKey addr size).l1 < s.last + 1 ∧
      (globalKey addr size).l2 < s.last + 1 := ⟨Nat.succ_pos _, Nat.succ_pos _⟩
  simp [traceGlobal, on, create, assert]
  rfl

lemma traceGlobal_shares (h : Consed G s) (on : fl.traceBounds = true)
    (range : G addr ((addr + size) % 2 ^ 64)) :
    Shares fl s (globalKey addr size) (traceGlobal fl s addr size) := by
  have ok : Storable G s (globalKey addr size) := globalKey_storable range
  rw [traceGlobal_create on]
  constructor
  · intro l live same
    simp only [h.lookup_eq ok live same]
  intro absent l s' made
  simp only [h.miss ok absent] at made
  obtain ⟨_, ext, _, _, info⟩ := h.create ok absent made
  refine ⟨by omega, by omega, info, fun k old => ext.same k (.inl old), ?_⟩
  omega

lemma traceGlobal_consed (h : Consed G s) (range : G addr ((addr + size) % 2 ^ 64))
    (made : traceGlobal fl s addr size = some (l, s')) : Consed G s' := by
  by_cases on : fl.traceBounds = true
  · have ok : Storable G s (globalKey addr size) := globalKey_storable range
    rw [traceGlobal_create on] at made
    cases look : s.lookup (globalKey addr size) with
    | some k =>
      simp only [look, Option.some.injEq, Prod.mk.injEq] at made
      exact made.2 ▸ h
    | none =>
      simp only [look] at made
      exact (h.create ok (h.absent ok look) made).1
  · rw [traceGlobal, if_neg on] at made
    cases made
    exact h

end Invariant

/-! ## Runs -/

section Runs

variable {fl : Flags} {s s' start : Runtime} {c : Call} {calls : List Call}

lemma Apart.union (apart : Apart calls) {mem : Nat → Nat} {op : Operator} {size : Nat}
    {o : Operands} (made : Call.union mem op size o ∈ calls) :
    op = .alloca → size = 64 → o.l1 = 0 → o.l2 = 0 → ¬ GlobalRange calls o.op1 o.op2 := by
  rintro rfl rfl l1 l2
  obtain ⟨_, _, lower, upper⟩ := o
  subst l1 l2
  exact apart mem lower upper made

section

variable (h : Consed (GlobalRange calls) s) (apart : Apart calls) (made : c ∈ calls)
  (passes : c.Passes s)

include h apart made passes

lemma exec_consed {l : Nat} (run : exec fl s c = some (l, s')) :
    Consed (GlobalRange calls) s' := by
  cases c with
  | source offset =>
    obtain ⟨checked, ⟨⟩⟩ := Option.ite_none_right_eq_some.mp run
    exact h.source (Runtime.checkLabel_lt checked) rfl
  | union mem op size o =>
    exact taintUnion_consed h passes.1 passes.2.1 passes.2.2 (apart.union made) run
  | global addr size => exact traceGlobal_consed h ⟨size, made, rfl⟩ run
  | free ptr ptrLabel =>
    simp only [exec, Option.some.injEq, Prod.mk.injEq] at run
    rw [← run.2]
    exact h.free ptr ptrLabel

lemma exec_answers : Answers fl s c := by
  cases c with
  | source offset | free ptr ptrLabel => trivial
  | union mem op size o =>
    simp only [Answers]
    cases prep : prepare mem s op size o with
    | ret l => simp only [taintUnion, prep]
    | key key orig =>
      refine taintUnion_shares h prep ?_
      exact storable_of_prepare prep passes.1 passes.2.1 passes.2.2 (apart.union made)
  | global addr size =>
    simp only [Answers]
    split
    next on =>
      exact traceGlobal_shares h on ⟨size, made, rfl⟩
    next off =>
      simp only [traceGlobal, off]
      rfl

end

lemma runCalls_consed (apart : Apart calls) {done : List Call} (part : ∀ c ∈ done, c ∈ calls)
    (h : Consed (GlobalRange calls) start)
    (passes : ∀ before c after s, done = before ++ c :: after →
      runCalls fl start before = some s → c.Passes s)
    (run : runCalls fl start done = some s) : Consed (GlobalRange calls) s := by
  induction done generalizing start with
  | nil =>
    simp only [runCalls, Option.some.injEq] at run
    exact run ▸ h
  | cons c rest ih =>
    obtain ⟨⟨l, s1⟩, first, run⟩ := bind_eq_some_iff.mp run
    have next : Consed (GlobalRange calls) s1 :=
      exec_consed h apart (part c List.mem_cons_self) (passes [] c rest start rfl rfl) first
    refine ih (fun c' mem => part c' (List.mem_cons_of_mem c mem)) next ?_ run
    intro before c' after t split ran
    refine passes (c :: before) c' after t (by rw [split]; rfl) ?_
    simp only [runCalls, first]
    exact ran

/-- In every run that starts with input labels only, whose calls pass labels of the
table and in which no allocation has the bounds of a global, each call is answered
by the live label with its fields or by one new label, and no two live labels have
equal fields. -/
theorem calls_share_labels (fl : Flags) (start : Runtime) (calls : List Call)
    (started : Started start) (apart : Apart calls)
    (passes : ∀ before c after s, calls = before ++ c :: after →
      runCalls fl start before = some s → c.Passes s) :
    ∀ before after s, calls = before ++ after → runCalls fl start before = some s →
      NoTwins s ∧ ∀ c rest, after = c :: rest → Answers fl s c := by
  intro before after s split run
  have consed : Consed (GlobalRange calls) s := by
    refine runCalls_consed apart ?_ started.consed ?_ run
    · intro c mem
      rw [split]
      exact List.mem_append_left after mem
    · intro first c last t cut ran
      refine passes first c (last ++ after) t ?_ ran
      rw [split, cut, List.append_assoc, List.cons_append]
  refine ⟨consed.unique, ?_⟩
  rintro c rest rfl
  refine exec_answers consed apart ?_ (passes before c rest s split run)
  rw [split]
  exact List.mem_append_right before List.mem_cons_self

/-- An input byte and a division by it. -/
def division : List Call :=
  [.source 0, .union (fun _ => 0) .udiv 8 ⟨0, 1, 100, 5⟩]

theorem calls_share_labels_division :
    ∃ s, runCalls ⟨true, true, false, true⟩ (tableOf [] 100) [.source 0] = some s ∧
      NoTwins s ∧
      Answers ⟨true, true, false, true⟩ s (.union (fun _ => 0) .udiv 8 ⟨0, 1, 100, 5⟩) := by
  have last : (runCalls ⟨true, true, false, true⟩ (tableOf [] 100) [.source 0]).map
      Runtime.last = some 1 := by decide +kernel
  obtain ⟨s, run, -⟩ := map_eq_some_iff.mp last
  have started : Started (tableOf [] 100) := by
    refine ⟨by decide, ?_, fun _ => rfl⟩
    intro l pos le
    exact absurd le (by simp only [tableOf, List.length_nil]; omega)
  have apart : Apart division := by
    intro mem lower upper made
    simp [division] at made
  have passes : ∀ before c after s, division = before ++ c :: after →
      runCalls ⟨true, true, false, true⟩ (tableOf [] 100) before = some s → c.Passes s := by
    intro before c after s split run
    rcases before with _ | ⟨c1, before⟩
    · cases split
      trivial
    rcases before with _ | ⟨c2, before⟩
    · cases split
      rw [run, Option.map_some, Option.some.injEq] at last
      exact ⟨by simp, .inl (Nat.zero_le _), .inl (Nat.le_of_eq last.symm)⟩
    · simp [division] at split
  obtain ⟨noTwins, answers⟩ := calls_share_labels _ _ division started apart passes
    [.source 0] [.union (fun _ => 0) .udiv 8 ⟨0, 1, 100, 5⟩] s rfl run
  exact ⟨s, run, noTwins, answers _ _ rfl⟩

/-- A division asks about a zero divisor and so takes two labels, and a heap block
with the bounds of a global gets a second label for equal fields. -/
theorem division_probed_and_global_twin :
    (∃ s l s', runCalls ⟨true, true, false, true⟩ (tableOf [] 100) [.source 0] = some s ∧
      exec ⟨true, true, false, true⟩ s (.union (fun _ => 0) .udiv 8 ⟨0, 1, 100, 5⟩) = some (l, s') ∧
      (∀ k, ¬ Live s k) ∧ s'.last = s.last + 2) ∧
    ∃ s, runCalls ⟨false, true, false, true⟩ (tableOf [] 100)
        [.global 4096 16, .union (fun _ => 0) .alloca 64 ⟨0, 0, 4096, 4112⟩] = some s ∧
      ¬ NoTwins s := by
  constructor
  · have one : ((runCalls ⟨true, true, false, true⟩ (tableOf [] 100)
        [.source 0]).map fun s => (s.last, (s.info 1).op)) = some (1, .input) := by
      decide +kernel
    have two : ((runCalls ⟨true, true, false, true⟩ (tableOf [] 100) [.source 0]).bind fun s =>
        (exec ⟨true, true, false, true⟩ s (.union (fun _ => 0) .udiv 8 ⟨0, 1, 100, 5⟩)).map
          fun r => r.2.last) = some 3 := by
      decide +kernel
    obtain ⟨s, run, fields⟩ := map_eq_some_iff.mp one
    rw [run, Option.bind_some] at two
    obtain ⟨⟨l, s'⟩, made, last⟩ := map_eq_some_iff.mp two
    simp only [Prod.mk.injEq] at fields
    refine ⟨s, l, s', run, made, ?_, ?_⟩
    · rintro k ⟨pos, le, input, _⟩
      rw [show k = 1 by omega] at input
      exact input fields.2
    · simp only at last
      omega
  · have twins : ((runCalls ⟨false, true, false, true⟩ (tableOf [] 100)
        [.global 4096 16, .union (fun _ => 0) .alloca 64 ⟨0, 0, 4096, 4112⟩]).map fun s =>
        decide (Live s 1 ∧ Live s 2 ∧ sameKey (s.info 1) (s.info 2) = true)) = some true := by
      decide +kernel
    obtain ⟨s, run, both⟩ := map_eq_some_iff.mp twins
    simp only [decide_eq_true_eq] at both
    refine ⟨s, run, ?_⟩
    intro alone
    exact absurd (alone 1 2 both.1 both.2.1 both.2.2) (by decide)

end Runs

end HashConsing
