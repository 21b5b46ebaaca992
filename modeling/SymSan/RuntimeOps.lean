import SymSan.UnionLoad

/-!
# The runtime as a machine

The other producers of labels (input bytes, stores, globals, bounds probes) and
the machine they act on: a union table together with the shadow memory that
holds one label a byte. A call of the instrumented program is one step; the
labels it passes are in its registers, those of a load are read from shadow
memory. Addresses name shadow cells; `ptr` is the numeric shadow address that
the null check looks at. Pointers, indices and sizes are 64-bit words.
-/

namespace RuntimeOps

open LabelTable TableGrowth TaintUnion UnionLoad

def createLabel (s : Runtime) (offset : Nat) : Option (Nat × Runtime) :=
  if s.checkLabel (s.last + 1) then
    some (s.last + 1, s.push
      ⟨0, 0, offset % 2 ^ 64, 0, .input, 8, xxhash (UInt32.ofNat offset) 0 8⟩)
  else none

/-! ## Stores -/

def setCell (ls : Nat → Nat) (i l : Nat) : Nat → Nat := fun j => if j = i then l else ls j

def fillCells (ls : Nat → Nat) (n : Nat) (label : Nat → Nat) : Nat → Nat :=
  fun j => if j < n then label j else ls j

/-- The default path: one Extract a byte. -/
def storeExtracts (fl : Flags) (mem : Nat → Nat) (l : Nat) :
    Nat → Nat → (Nat → Nat) → Runtime → Option ((Nat → Nat) × Runtime)
  | 0, _, ls, s => some (ls, s)
  | k + 1, i, ls, s =>
    (taintUnion fl mem s .extract 8 ⟨l, 0, 0, i * 8⟩).bind fun r =>
    storeExtracts fl mem l k (i + 1) (setCell ls i r.1) r.2

/-- A Load label is broken up into the labels that follow its first one. -/
def BreaksUp (s : Runtime) (l n : Nat) : Prop :=
  l ≠ 0 ∧ l ≠ kInitializingLabel ∧ ¬ (n = 1 ∧ (s.info l).size = 8) ∧ (s.info l).op = .load

variable (fl : Flags) (mem : Nat → Nat)

/-- `__taint_union_store(l, ls, n, align)`; the alignment only produces a warning. -/
def unionStore (s : Runtime) (ptr l : Nat) (ls : Nat → Nat)
    (n : Nat) : Option ((Nat → Nat) × Runtime) :=
  if ptr < 4096 then some (ls, s)
  else if l = kInitializingLabel then some (fillCells ls n fun _ => l, s)
  else if fl.asserts = true ∧ ¬ (l ≤ s.last ∨ s.stackTop ≤ l) then none
  else if l = 0 ∨ (s.info l).op = .alloca then some (fillCells ls n fun _ => l, s)
  else if n = 1 ∧ (s.info l).size = 8 then some (setCell ls 0 l, s)
  else if (s.info l).op = .load then
    some (fillCells ls n fun i => ((s.info l).l1 + i) % 2 ^ 32, s)
  else storeExtracts fl mem l n 0 ls s

lemma unionStore_cases {fl : Flags} {mem : Nat → Nat} {s s' : Runtime} {ptr l n : Nat}
    {ls ls' : Nat → Nat} (h : unionStore fl mem s ptr l ls n = some (ls', s')) :
    s' = s ∧ (ls' = ls ∨ ls' = (fillCells ls n fun _ => l) ∨ ls' = setCell ls 0 l ∨
      BreaksUp s l n ∧ ls' = fillCells ls n fun i => ((s.info l).l1 + i) % 2 ^ 32) ∨
    storeExtracts fl mem l n 0 ls s = some (ls', s') := by
  simp only [unionStore] at h
  split at h
  · cases h; exact .inl ⟨rfl, .inl rfl⟩
  split at h
  · cases h; exact .inl ⟨rfl, .inr (.inl rfl)⟩
  rename_i init
  split at h
  · cases h
  split at h
  · cases h; exact .inl ⟨rfl, .inr (.inl rfl)⟩
  rename_i plain
  split at h
  · cases h; exact .inl ⟨rfl, .inr (.inr (.inl rfl))⟩
  rename_i wide
  split at h
  next load =>
    cases h
    have breaks : BreaksUp s l n := ⟨fun zero => plain (.inl zero), init, wide, load⟩
    exact .inl ⟨rfl, .inr (.inr (.inr ⟨breaks, rfl⟩))⟩
  · exact .inr h

/-! ## Globals and bounds -/

def traceGlobal (s : Runtime) (addr size : Nat) : Option (Nat × Runtime) :=
  if fl.traceBounds then
    let key : LabelInfo := ⟨0, 0, addr, (addr + size) % 2 ^ 64, .alloca, 64,
      xxhash (UInt32.ofNat addr) (UInt32.ofNat (addr / 2 ^ 32)) 31⟩
    match s.lookup key with
    | some l => some (l, s)
    | none =>
      if s.checkLabel (s.last + 1) then some (s.last + 1, (s.push key).insert (s.last + 1))
      else none
  else some (0, s)

structure BoundsCall where
  ptrLabel : Nat
  ptr : Nat
  indexLabel : Nat
  index : Nat
  numElems : Nat
  elemSize : Nat
  currentOffset : Nat

def sub64 (a b : Nat) : Nat := (a + (2 ^ 64 - b % 2 ^ 64)) % 2 ^ 64

/-- Build a condition and hand it to the tracer. -/
def report (op : Operator) (size : Nat) (o : Operands)
    (check : UndefinedCheck) (s : Runtime) : Option Runtime :=
  (taintUnion fl mem s op size o).map fun r => r.2.traceCond r.1 check

variable (c : BoundsCall)

/-- The offset of the access from the start of the buffer, without the index. -/
def BoundsCall.offset (lower : Nat) : Nat :=
  sub64 (c.currentOffset + c.ptr) lower

/-- Known bounds and a concrete size: both ends are checked against the index. -/
def solveConcrete (lower upper label : Nat) (s : Runtime) : Option Runtime :=
  if c.elemSize = 0 then none
  else
    (report fl mem (.icmp .bvult) 64 ⟨label, 0, c.index,
      sub64 (sub64 lower c.currentOffset) c.ptr / c.elemSize⟩ .indexUnderflow s).bind fun s =>
    report fl mem (.icmp .bvuge) 64 ⟨label, 0, c.index,
      sub64 (sub64 upper c.currentOffset) c.ptr / c.elemSize⟩ .indexOverflow s

/-- Known bounds and a symbolic size: the access is compared with the allocation.
Where the offset is zero the source assigns the *value* of the scaled index to
the label variable. -/
def solveSymbolic (bounds : LabelInfo) (label : Nat) (s : Runtime) : Option Runtime :=
  let size := c.index * c.elemSize % 2 ^ 64
  let offset := c.offset bounds.op1
  (if c.elemSize = 1 then some (label, s)
    else taintUnion fl mem s .mul 64 ⟨label, 0, c.index, c.elemSize⟩).bind fun r =>
  (if offset = 0 then some (size % 2 ^ 32, r.2)
    else taintUnion fl mem r.2 .add 64 ⟨r.1, 0, size, offset⟩).bind fun r =>
  report fl mem (.icmp .bvugt) 64
    ⟨r.1, bounds.l2, (size + offset) % 2 ^ 64, sub64 bounds.op2 bounds.op1⟩
    .integerToBufferOverflow r.2

def solveBounds (s : Runtime) : Option Runtime :=
  if c.indexLabel = 0 ∨ fl.solveUb = false then some s
  else if c.indexLabel = kInitializingLabel ∨ c.ptrLabel = kInitializingLabel then
    if fl.exitOnMemerror then none else some s
  else
    let indexBits := (s.info c.indexLabel).size
    if 0 < c.numElems then
      (report fl mem (.icmp .bvslt) indexBits ⟨c.indexLabel, 0, c.index, 0⟩
        .indexUnderflow s).bind fun s =>
      report fl mem (.icmp .bvsge) indexBits ⟨c.indexLabel, 0, c.index, c.numElems⟩ .indexOverflow s
    else
      let bounds := s.info c.ptrLabel
      if bounds.op = .alloca then
        (if indexBits < 64 then taintUnion fl mem s .zext 64 ⟨c.indexLabel, 0, c.index, 0⟩
          else some (c.indexLabel, s)).bind fun r =>
        if bounds.l2 = 0 then solveConcrete fl mem c bounds.op1 bounds.op2 r.1 r.2
        else solveSymbolic fl mem c bounds r.1 r.2
      else
        -- the opcode passed here is the bare predicate 32, which is the number of Load
        report fl mem .load 64 ⟨c.ptrLabel, 0, c.ptr, 0⟩ .nullPointer s

/-! ## The machine -/

structure Machine where
  table : Runtime
  shadow : Nat → Nat

inductive Call where
  | input (addr offset : Nat)
  | union (op : Operator) (size : Nat) (o : Operands)
  | load (ptr addr n : Nat) (app : Nat → BitVec 8)
  | store (ptr l addr n : Nat)
  | global (addr size : Nat)
  | bounds (c : BoundsCall)

/-- The shadow cells from an address on. -/
def Machine.cells (m : Machine) (addr : Nat) : Nat → Nat := fun i => m.shadow (addr + i)

/-- Write a shadow array back at its address. -/
def Machine.putCells (m : Machine) (addr : Nat) (ls : Nat → Nat) : Nat → Nat :=
  fun a => if addr ≤ a then ls (a - addr) else m.shadow a

def exec (m : Machine) : Call → Option Machine
  | .input addr offset =>
    (createLabel m.table offset).map fun r => ⟨r.2, setCell m.shadow addr r.1⟩
  | .union op size o => (taintUnion fl mem m.table op size o).map fun r => ⟨r.2, m.shadow⟩
  | .load ptr addr n app =>
    (unionLoad fl mem m.table ptr (m.cells addr) app n).map fun r => ⟨r.2, m.shadow⟩
  | .store ptr l addr n =>
    (unionStore fl mem m.table ptr l (m.cells addr) n).map fun r =>
      ⟨r.2, m.putCells addr r.1⟩
  | .global addr size => (traceGlobal fl m.table addr size).map fun r => ⟨r.2, m.shadow⟩
  | .bounds c => (solveBounds fl mem c m.table).map fun s => ⟨s, m.shadow⟩

/-- The labels a call passes are labels that the program holds. -/
def Call.Passes (m : Machine) : Call → Prop
  | .union op _ o => Existing m.table o.l1 ∧ (op ≠ .load → Existing m.table o.l2)
  | .store _ l _ _ => Existing m.table l
  | .bounds c => Existing m.table c.ptrLabel ∧ Existing m.table c.indexLabel
  | _ => True

/-- A call together with the application memory it finds. -/
structure Step where
  mem : Nat → Nat
  call : Call

def runAll (fl : Flags) : Machine → List Step → Option Machine
  | m, [] => some m
  | m, c :: rest => (exec fl c.mem m c.call).bind fun m' => runAll fl m' rest

/-- `P` holds of every call of a run in the state where it is made. -/
def Throughout (fl : Flags) (P : Machine → Call → Prop) : Machine → List Step → Prop
  | _, [] => True
  | m, c :: rest => P m c.call ∧
    ∀ m', exec fl c.mem m c.call = some m' → Throughout fl P m' rest

/-- An invariant that every call with `P` preserves holds after a run. -/
lemma runAll_invariant {fl : Flags} {P : Machine → Call → Prop} {I : Machine → Prop}
    (step : ∀ m mem c m', I m → P m c → exec fl mem m c = some m' → I m')
    {m m' : Machine} {steps : List Step} (start : I m) (holds : Throughout fl P m steps)
    (run : runAll fl m steps = some m') : I m' := by
  induction steps generalizing m with
  | nil =>
    simp only [runAll, Option.some.injEq] at run
    exact run ▸ start
  | cons c rest ih =>
    obtain ⟨m1, first, run⟩ := Option.bind_eq_some_iff.mp run
    exact ih (step m c.mem c.call m1 start holds.1 first) (holds.2 m1 first) run

end RuntimeOps
