import SymSan.RoundTrip
import SymSan.PipeMessages

/-!
# The tracing hooks of the out-of-process backend

What the instrumented process writes to its event pipe. Each hook of the
backend is one action of the process; so are the runtime calls that build
labels, whose probes for undefined behaviour report conditions of their own.
Writes are complete and come from one thread. A process that dies has written
the messages before its death. A memory comparison is traced with the label
that the union of its two sides returns; the other comparison wrappers differ
in how they find the length only.
-/

namespace TraceHooks

open LabelTable TableGrowth TaintUnion UnionLoad RuntimeOps PipeMessages

variable {s : Runtime}

structure Options extends Flags where
  alwaysReportCoverage : Bool

structure SwitchTrueCase where
  label : Nat
  cid : Nat

/-- The variables of the backend. `probeSite` gives the return addresses inside
the runtime from which its probes call the tracer. -/
structure Tracer where
  pipeFd : Int
  instanceId : Nat
  callstack : Nat
  switchTrueCase : SwitchTrueCase
  lineCovered : Nat → Bool
  branchCoverage : Nat → Nat
  probeSite : UndefinedCheck → Nat

structure Process where
  machine : Machine
  tracer : Tracer

/-- What an action writes and the state it ends in; not alive after `Die`. -/
structure Reaction where
  sent : List Message
  process : Process
  alive : Bool

def Reaction.andThen (r : Reaction) (f : Process → Reaction) : Reaction :=
  if r.alive then ⟨r.sent ++ (f r.process).sent, (f r.process).process, (f r.process).alive⟩ else r

def silent (p : Process) : Reaction := ⟨[], p, true⟩

def Tracer.header (t : Tracer) (type : MsgType) (flags addr id label result : Nat) : PipeMsg where
  msgType := type.code
  flags := .ofNat 16 flags
  instanceId := .ofNat 32 t.instanceId
  addr := .ofNat 64 addr
  context := .ofNat 32 t.callstack
  id := .ofNat 64 id
  label := .ofNat 32 label
  result := .ofNat 64 result

/-! ## Conditions -/

/-- The loop flags are set according to the branching result. -/
def loopFlags (loopFlag : Nat) (result : Bool) : Nat :=
  match loopFlag with
  | 2 => if result then 2 else 4 -- TrueBranchLoopExit
  | 8 => if result then 4 else 2 -- TrueBranchLoopLatch
  | 1 => if result then 4 else 2 -- FalseBranchLoopExit
  | 4 => if result then 2 else 4 -- FalseBranchLoopLatch
  | _ => 0

def solveCond (t : Tracer) (label result : Nat) (addNested : Bool) (loopFlag cid addr : Nat) :
    List Message :=
  if t.pipeFd < 0 then []
  else
    let flags := (if addNested then 1 else 0) ||| loopFlags loopFlag (result ≠ 0)
    [⟨t.header .cond flags addr cid label result, .none⟩]

/-- `__send_ubi`, with `F_MEMERR_UBI` -/
def sendUbi (t : Tracer) (label result cid addr : Nat) : List Message :=
  if t.pipeFd < 0 then [] else [⟨t.header .memerr 8 addr cid label result, .none⟩]

variable (opts : Options)

/-- What every hook does with an uninitialised label. -/
def uninitialised (p : Process) (label result cid addr : Nat) : Reaction where
  sent := if opts.solveUb then sendUbi p.tracer label result cid addr else []
  process := p
  alive := !opts.exitOnMemerror

def traceCond (p : Process) (label : Nat) (r : Bool) (flag cid addr : Nat) : Reaction :=
  -- without a label only a real loop exit is reported
  if label = 0 ∧ ¬ (flag.testBit 0 = true ∧ r = false ∨ flag.testBit 1 = true ∧ r = true) then
    silent p
  else if label = kInitializingLabel then uninitialised opts p label r.toNat cid addr
  else ⟨solveCond p.tracer label r.toNat (!flag.testBit 4) (flag % 16) cid addr, p, true⟩

/-- `undefined_check_ids` -/
def checkId : UndefinedCheck → Nat
  | .integerOverflow => 1 | .divisionByZero => 2 | .shiftExponent => 3 | .shiftOverflow => 4
  | .shiftBase => 5 | .indexUnderflow => 6 | .indexOverflow => 7
  | .integerToBufferOverflow => 8 | .nullPointer => 9
  | .unsignedIntegerTruncation => 10 | .signedIntegerTruncation => 11

/-- The conditions that the probes of the runtime report, with flag `UndefinedCheck`. -/
def traceProbes (opts : Options) (p : Process) : List TraceCond → Reaction
  | [] => silent p
  | c :: rest => (traceCond opts p c.label false 16 (checkId c.check)
      (p.tracer.probeSite c.check)).andThen fun p => traceProbes opts p rest

/-- A runtime call that ends with a new table; the conditions it added are traced. -/
def update {α : Type} (opts : Options) (p : Process) (result : Option (α × Runtime))
    (k : α → Process → Reaction) : Reaction :=
  match result with
  | none => ⟨[], p, false⟩
  | some (a, table) =>
    (traceProbes opts ⟨⟨table, p.machine.shadow⟩, p.tracer⟩
      (table.conds.drop p.machine.table.conds.length)).andThen (k a)

def getConstResult (c1 c2 : Nat) : Predicate → Bool
  | .bveq => c1 = c2
  | .bvneq => c1 ≠ c2
  | .bvugt => c2 < c1
  | .bvuge => c2 ≤ c1
  | .bvult => c1 < c2
  | .bvule => c1 ≤ c2
  | .bvsgt => signed64 c2 < signed64 c1
  | .bvsge => signed64 c2 ≤ signed64 c1
  | .bvslt => signed64 c1 < signed64 c2
  | .bvsle => signed64 c1 ≤ signed64 c2
  | .other _ => false

variable (mem : Nat → Nat)

/-- `__taint_trace_cmp`; the case that is taken waits for the end of the switch. -/
def traceCmp (p : Process) (op1 op2 size : Nat)
    (predicate : Predicate) (c1 c2 cid addr : Nat) : Reaction :=
  if op1 = 0 ∧ op2 = 0 then silent p
  else if op1 = kInitializingLabel then uninitialised opts p op1 c1 cid addr
  else if op2 = kInitializingLabel then uninitialised opts p op2 c2 cid addr
  else
    update opts p (taintUnion opts.toFlags mem p.machine.table (.icmp predicate) (size % 2 ^ 16)
      ⟨op1, op2, c1, c2⟩) fun temp p =>
    if getConstResult c1 c2 predicate then
      silent { p with tracer := { p.tracer with switchTrueCase := ⟨temp, cid⟩ } }
    else ⟨solveCond p.tracer temp 0 false 0 cid addr, p, true⟩

def traceSwitchEnd (p : Process) (cid addr : Nat) : Reaction :=
  let case := p.tracer.switchTrueCase
  if case.label = 0 ∨ case.cid ≠ cid then silent p
  else
    ⟨solveCond p.tracer case.label 1 true 0 cid addr,
      { p with tracer := { p.tracer with switchTrueCase := ⟨0, case.cid⟩ } }, true⟩

/-- `__taint_trace_select`; the label it returns goes to the program. -/
def traceSelect (p : Process)
    (condLabel trueLabel falseLabel r trueOp falseOp cid addr : Nat) : Reaction :=
  if condLabel = 0 then silent p
  else if condLabel = kInitializingLabel then uninitialised opts p condLabel r cid addr
  else if trueLabel ≠ 0 ∧ falseOp = 0 then
    -- a logical and: select cond, label, false
    update opts p (taintUnion opts.toFlags mem p.machine.table .and 1
      ⟨condLabel, trueLabel, r, trueOp⟩) fun land p =>
    ⟨solveCond p.tracer land (if r ≠ 0 ∧ trueOp ≠ 0 then 1 else 0) true 0 cid addr, p, true⟩
  else if falseLabel ≠ 0 ∧ trueOp = 1 then
    -- a logical or: select cond, true, label
    update opts p (taintUnion opts.toFlags mem p.machine.table .or 1
      ⟨condLabel, falseLabel, r, falseOp⟩) fun lor p =>
    ⟨solveCond p.tracer lor (if r ≠ 0 ∨ falseOp ≠ 0 then 1 else 0) true 0 cid addr, p, true⟩
  else ⟨solveCond p.tracer condLabel r true 0 cid addr, p, true⟩

/-! ## The other events -/

/-- `__line_coverage` with `recordBranchCoverage` and `markLineCovered` -/
def lineCoverage (p : Process) (lineId : Nat) (result symbolic : Bool) (cid : Nat) : Reaction :=
  let t := p.tracer
  if t.pipeFd < 0 then silent p
  else
    let old := t.branchCoverage cid
    let new := old ||| ((if result then 1 else 2) ||| if symbolic then 4 else 0)
    let send := opts.alwaysReportCoverage || (cid ≠ 0 && new ≠ old) || !t.lineCovered lineId
    let t' := { t with
      branchCoverage := fun c => if c = cid ∧ cid ≠ 0 then new else t.branchCoverage c
      lineCovered := fun l => l = lineId || t.lineCovered l }
    let msg : PipeMsg :=
      { msgType := MsgType.cover.code
        flags := .ofNat 16 (if cid ≠ 0 then new else 0)
        instanceId := 0
        addr := 0
        context := .ofNat 32 (lineId / 2 ^ 32)
        id := .ofNat 64 cid
        label := .ofNat 32 lineId
        result := .ofNat 64 result.toNat }
    ⟨if send then [⟨msg, .none⟩] else [], { p with tracer := t' }, true⟩

/-- The arguments of `__taint_trace_gep`; signed arguments as words. -/
structure GepCall where
  ptrLabel : Nat
  ptr : Nat
  indexLabel : Nat
  index : Nat
  numElems : Nat
  elemSize : Nat
  currentOffset : Nat

def traceGep (p : Process) (c : GepCall) (cid addr : Nat) : Reaction :=
  if c.indexLabel = 0 then silent p
  else if c.indexLabel = kInitializingLabel then
    uninitialised opts p c.indexLabel c.index cid addr
  else if c.ptrLabel = kInitializingLabel then uninitialised opts p c.ptrLabel c.ptr cid addr
  else if p.tracer.pipeFd < 0 then silent p
  else
    let gmsg : GepMsg :=
      { ptrLabel := .ofNat 32 c.ptrLabel
        indexLabel := .ofNat 32 c.indexLabel
        ptr := .ofNat 64 c.ptr
        index := .ofNat 64 c.index
        numElems := .ofNat 64 c.numElems
        elemSize := .ofNat 64 c.elemSize
        currentOffset := .ofNat 64 c.currentOffset }
    ⟨[⟨p.tracer.header .gep 0 addr cid c.indexLabel c.index, .gep gmsg⟩], p, true⟩

/-- `size` bytes of application memory -/
def content (mem : Nat → Nat) (start size : Nat) : List (BitVec 8) :=
  (List.range size).map fun i => .ofNat 8 (mem (start + i))

/-- `__taint_trace_memcmp`; without a concrete side there is no content to send. -/
def traceMemcmp (p : Process) (label addr : Nat) : Reaction :=
  if label = 0 then silent p
  else if label = kInitializingLabel then uninitialised opts p label 0 0 addr
  else if p.tracer.pipeFd < 0 then silent p
  else
    let info := p.machine.table.info label
    let msg : Message :=
      if info.l1 ≠ 0 ∧ info.l2 ≠ 0 then ⟨p.tracer.header .memcmp 0 addr 0 label info.size, .none⟩
      else
        -- the concrete operand is always in op1
        ⟨p.tracer.header .memcmp 1 addr 0 label info.size,
          .memcmp (.ofNat 32 label) (content mem info.op1 info.size)⟩
    ⟨[msg], p, true⟩

/-- `dfsan_read_label` of `n` bytes at an address; `ptr` is the address of its shadow. -/
def readLabel (p : Process) (ptr addr n : Nat) (k : Nat → Process → Reaction) : Reaction :=
  if n = 0 then k 0 p
  else
    update opts p (unionLoad opts.toFlags mem p.machine.table ptr (p.machine.cells addr)
      (fun i => .ofNat 8 (mem (addr + i))) n) k

structure CompareCall where
  s1 : Nat
  s2 : Nat
  shadow1 : Nat
  shadow2 : Nat
  n : Nat

def taintMemcmp (p : Process) (c : CompareCall) (addr : Nat) : Reaction :=
  readLabel opts mem p c.shadow1 c.s1 c.n fun l1 p =>
  readLabel opts mem p c.shadow2 c.s2 c.n fun l2 p =>
  update opts p (taintUnion opts.toFlags mem p.machine.table .fmemcmp (c.n % 2 ^ 16)
    ⟨l1, l2, c.s1, c.s2⟩) fun ret p =>
  if ret = 0 then silent p else traceMemcmp opts mem p ret addr

/-- `__taint_trace_memerr`; a null pointer or a double free is not sent. -/
def traceMemerr (p : Process) (ptrLabel ptr sizeLabel size flag addr : Nat) : Reaction :=
  if ptrLabel = 0 ∧ sizeLabel = 0 then silent p
  else if p.tracer.pipeFd < 0 then silent p
  else
    let send (r : Nat) : Reaction :=
      ⟨[⟨p.tracer.header .memerr flag addr 0 ptrLabel r, .none⟩], p, true⟩
    match flag with
    | 1 => send ptr -- F_MEMERR_UAF
    | 2 => send ptr -- F_MEMERR_OLB
    | 4 => send (ptr + size) -- F_MEMERR_OUB
    | 8 => send ptr -- F_MEMERR_UBI
    | _ => silent p

/-! ## Runs -/

/-- One thing the instrumented process does, with the memory it finds. -/
inductive Action where
  | call (step : Step)
  | callstack (context : Nat)
  | cond (label : Nat) (r : Bool) (flag cid addr : Nat)
  | cmp (mem : Nat → Nat) (op1 op2 size : Nat) (predicate : Predicate) (c1 c2 cid addr : Nat)
  | switchEnd (cid addr : Nat)
  | select (mem : Nat → Nat) (condLabel trueLabel falseLabel r trueOp falseOp cid addr : Nat)
  | line (lineId : Nat) (result symbolic : Bool) (cid : Nat)
  | gep (c : GepCall) (cid addr : Nat)
  | memcmp (mem : Nat → Nat) (c : CompareCall) (addr : Nat)
  | memerr (ptrLabel ptr sizeLabel size flag addr : Nat)

def perform (p : Process) : Action → Reaction
  | .call step =>
    match exec opts.toFlags step.mem p.machine step.call with
    | none => ⟨[], p, false⟩
    | some m => traceProbes opts ⟨m, p.tracer⟩ (m.table.conds.drop p.machine.table.conds.length)
  | .callstack context => silent { p with tracer := { p.tracer with callstack := context } }
  | .cond label r flag cid addr => traceCond opts p label r flag cid addr
  | .cmp mem op1 op2 size predicate c1 c2 cid addr =>
    traceCmp opts mem p op1 op2 size predicate c1 c2 cid addr
  | .switchEnd cid addr => traceSwitchEnd p cid addr
  | .select mem condLabel trueLabel falseLabel r trueOp falseOp cid addr =>
    traceSelect opts mem p condLabel trueLabel falseLabel r trueOp falseOp cid addr
  | .line lineId result symbolic cid => lineCoverage opts p lineId result symbolic cid
  | .gep c cid addr => traceGep opts p c cid addr
  | .memcmp mem c addr => taintMemcmp opts mem p c addr
  | .memerr ptrLabel ptr sizeLabel size flag addr =>
    traceMemerr p ptrLabel ptr sizeLabel size flag addr

/-- The messages of one action and the table after it. -/
structure Stage where
  sent : List Message
  table : Runtime

def stages (opts : Options) : Process → List Action → List Stage
  | _, [] => []
  | p, a :: rest =>
    let r := perform opts p a
    ⟨r.sent, r.process.machine.table⟩ :: if r.alive then stages opts r.process rest else []

/-- All messages of a run, in order. -/
def sentBy (run : List Stage) : List Message := run.flatMap Stage.sent

/-- `uniontable_size / sizeof(dfsan_label_info)` -/
def maxLabel : Nat := 0xc00000000 / 32

/-- The process after `dfsan_init` and `InitializeSolver`. -/
def Process.start (pipeFd : Int) (instanceId : Nat) (probeSite : UndefinedCheck → Nat) :
    Process where
  machine :=
    { table := tableOf [] (maxLabel - 2)
      shadow := fun _ => 0 }
  tracer :=
    { pipeFd := pipeFd
      instanceId := instanceId
      callstack := 0
      switchTrueCase := ⟨0, 0⟩
      lineCovered := fun _ => false
      branchCoverage := fun _ => 0
      probeSite := probeSite }

/-! ## What is on the pipe -/

/-- The table has room below the stack and its hash table names its labels. -/
structure Stocked (s : Runtime) : Prop where
  room : s.last < s.stackTop
  top : s.stackTop < maxLabel
  entries : ∀ b l, l ∈ s.bucket b → 1 ≤ l ∧ l ≤ s.last

/-- The label of a memory comparison in its header; the result is its length. -/
structure Traced (s : Runtime) (h : PipeMsg) : Prop where
  pos : 1 ≤ h.label.toNat
  known : h.label.toNat ≤ s.last
  below : h.label.toNat < maxLabel
  small : h.result.toNat < 2 ^ 16

lemma Traced.ne_zero {h : PipeMsg} (label : Traced s h) : h.label ≠ 0 := by
  intro zero
  have pos := label.pos
  rw [zero] at pos
  exact absurd pos (by decide)

/-- A message that the runtime writes while its table is `s`. -/
inductive Written (s : Runtime) : Message → Prop
  | plain {h : PipeMsg} {t : MsgType} (type : h.msgType = t.code) (notGep : t ≠ .gep)
      (notMemcmp : t ≠ .memcmp) : Written s ⟨h, .none⟩
  | gep {h : PipeMsg} {g : GepMsg} (type : h.msgType = MsgType.gep.code)
      (same : g.indexLabel = h.label) : Written s ⟨h, .gep g⟩
  | concrete {h : PipeMsg} {data : List (BitVec 8)} (type : h.msgType = MsgType.memcmp.code)
      (label : Traced s h) (flag : h.flags = 1)
      (side : ¬ ((s.info h.label.toNat).l1 ≠ 0 ∧ (s.info h.label.toNat).l2 ≠ 0))
      (length : data.length = h.result.toNat) : Written s ⟨h, .memcmp h.label data⟩
  | symbolic {h : PipeMsg} (type : h.msgType = MsgType.memcmp.code) (label : Traced s h)
      (flag : h.flags = 0)
      (sides : (s.info h.label.toNat).l1 ≠ 0 ∧ (s.info h.label.toNat).l2 ≠ 0) :
      Written s ⟨h, .none⟩

lemma Written.extends {s' : Runtime} {m : Message} (w : Written s m) (ext : Extends s s') :
    Written s' m := by
  have last := ext.last
  cases w with
  | plain type notGep notMemcmp => exact .plain type notGep notMemcmp
  | gep type same => exact .gep type same
  | concrete type label flag side length =>
    have known := label.known
    refine .concrete type { label with known := by omega } flag ?_ length
    rw [ext.same _ (.inl known)]
    exact side
  | symbolic type label flag sides =>
    have known := label.known
    refine .symbolic type { label with known := by omega } flag ?_
    rw [ext.same _ (.inl known)]
    exact sides

/-! ### Growth, whatever the labels are -/

/-- Growth with no condition on the records. -/
abbrev Grown : Runtime → Runtime → Prop := Grows fun _ _ => True

section Growth

variable {fl : Flags} {mem : Nat → Nat} {s s' : Runtime} {l size : Nat} {o : Operands}

lemma Grown.of {P : Runtime → LabelInfo → Prop} (g : Grows P s s') : Grown s s' :=
  g.mono fun _ _ _ => trivial

lemma taintUnion_grown {op : Operator} (h : taintUnion fl mem s op size o = some (l, s')) :
    Grown s s' :=
  taintUnion_grows (fun _ _ _ => ⟨fun _ _ _ _ _ _ _ => trivial, fun _ _ _ => trivial⟩) h

/-- Unions add records whatever their operands are. -/
lemma grownRule (fl : Flags) (mem : Nat → Nat) :
    TableOrder.UnionRule fl mem Grown fun _ _ => True where
  refl _ := .refl
  trans := .trans
  trace _ _ g := g.trace
  keep _ _ := trivial
  union _ _ h := ⟨taintUnion_grown h, trivial⟩

lemma solveBounds_grown {c : BoundsCall} (h : solveBounds fl mem c s = some s') : Grown s s' :=
  (grownRule fl mem).solveBounds trivial trivial trivial (fun _ => trivial) (fun _ => trivial) h

lemma exec_grown {m m' : Machine} {c : Call} (h : exec fl mem m c = some m') :
    Grown m.table m'.table := by
  cases c with
  | input addr offset =>
    obtain ⟨r, made, rfl⟩ := Option.map_eq_some_iff.mp h
    exact .of (TableOrder.createLabel_grows made).1
  | union op size o =>
    obtain ⟨r, made, rfl⟩ := Option.map_eq_some_iff.mp h
    exact taintUnion_grown made
  | load ptr addr n app =>
    obtain ⟨r, made, rfl⟩ := Option.map_eq_some_iff.mp h
    exact .of (RoundTrip.unionLoad_counted made)
  | store ptr l addr n =>
    obtain ⟨r, made, rfl⟩ := Option.map_eq_some_iff.mp h
    exact .of (RoundTrip.unionStore_counted made)
  | global addr size =>
    obtain ⟨r, made, rfl⟩ := Option.map_eq_some_iff.mp h
    exact .of (TableOrder.traceGlobal_grows made)
  | bounds c =>
    obtain ⟨r, made, rfl⟩ := Option.map_eq_some_iff.mp h
    exact solveBounds_grown made

lemma Stocked.grown (stocked : Stocked s) (g : Grown s s') : Stocked s' := by
  refine Grows.invariant g stocked ?_ ?_ ?_
  · intro t r h room _
    refine ⟨room, h.top, ?_⟩
    intro b l mem
    obtain ⟨pos, _⟩ := h.entries b l mem
    exact ⟨pos, by simp only [Runtime.push_last]; omega⟩
  · intro t r h
    refine ⟨h.room, h.top, ?_⟩
    intro b l mem
    rcases Runtime.mem_insert_bucket mem with rfl | old
    · simp
    · exact h.entries b l old
  · intro t l c h
    exact ⟨h.room, h.top, h.entries⟩

lemma prepare_fmemcmp_ret (h : prepare mem s .fmemcmp size o = .ret l) :
    l = 0 ∨ l = kInitializingLabel := by
  have keep : ∀ o', simplify s .fmemcmp size o' = .keep .fmemcmp := by
    simp [simplify, simplifyLeft, simplifyRight, simplifyShape]
  simp only [prepare, keep] at h
  split at h
  · cases h
    exact .inl rfl
  cases early : earlyReturn s .fmemcmp (orderOperands .fmemcmp o) with
  | none => simp [early] at h
  | some l' =>
    simp only [early, Prepared.ret.injEq] at h
    subst h
    rcases earlyReturn_cases early with ⟨zero, -⟩ | ⟨init, -⟩ | ⟨-, zero | ⟨cast, -⟩⟩
    · exact .inl zero
    · exact .inr init
    · exact .inl zero
    · cases cast

lemma fmemcmp_label (stocked : Stocked s)
    (h : taintUnion fl mem s .fmemcmp size o = some (l, s')) :
    l = 0 ∨ l = kInitializingLabel ∨ 1 ≤ l ∧ l ≤ s'.last ∧ (s'.info l).size = size := by
  rcases taintUnion_cases h with ⟨ret, rfl⟩ | ⟨key, orig, prepared, ⟨hit, rfl⟩ | built⟩
  · rcases prepare_fmemcmp_ret ret with zero | init
    · exact .inl zero
    · exact .inr (.inl init)
  · obtain ⟨pos, le⟩ := stocked.entries _ l (List.mem_of_find?_eq_some hit)
    have found := List.find?_some hit
    have same := (sameKey_iff _ _).mp found
    exact .inr (.inr ⟨pos, le, same.2.2.2.1.trans (prepare_key_fields prepared).2.2.1⟩)
  · obtain ⟨_, _, le, record⟩ := buildLabel_some (P := fun _ _ => True)
      (fun _ _ _ _ _ _ _ => trivial) (fun _ _ _ => trivial) built
    exact .inr (.inr ⟨by omega, le, by rw [record]; exact (prepare_key_fields prepared).2.2.1⟩)

end Growth

/-! ### One action -/

/-- What every hook guarantees: the table only grows, and each message fits the
table at the end of the action. -/
structure Sound (p : Process) (r : Reaction) : Prop where
  grown : Grown p.machine.table r.process.machine.table
  sent : ∀ m ∈ r.sent, Written r.process.machine.table m

section Actions

variable {opts : Options} {mem : Nat → Nat} {p : Process} {p' : Process}

lemma silent_sound (same : p'.machine = p.machine) : Sound p (silent p') := by
  refine ⟨?_, fun m mem => absurd mem List.not_mem_nil⟩
  simp only [silent, same]
  exact .refl

lemma Sound.andThen {r : Reaction} {f : Process → Reaction} (first : Sound p r)
    (second : Sound r.process (f r.process)) : Sound p (r.andThen f) := by
  unfold Reaction.andThen
  split
  · exact ⟨first.grown.trans second.grown, List.forall_mem_append.mpr
      ⟨fun m old => (first.sent m old).extends second.grown.toExtends, second.sent⟩⟩
  · exact first

lemma plain_sound {messages : List Message} {alive : Bool} (same : p'.machine = p.machine)
    (plain : ∀ m ∈ messages, Written p.machine.table m) : Sound p ⟨messages, p', alive⟩ := by
  refine ⟨?_, ?_⟩
  · simp only [same]
    exact .refl
  · simp only [same]
    exact plain

lemma solveCond_written (t : Tracer) (label result : Nat) (addNested : Bool)
    (loopFlag cid addr : Nat) :
    ∀ m ∈ solveCond t label result addNested loopFlag cid addr, Written s m := by
  intro m mem
  unfold solveCond at mem
  split at mem
  · cases mem
  · rw [List.mem_singleton.mp mem]
    exact .plain (t := .cond) rfl (by decide) (by decide)

lemma uninitialised_sound (label result cid addr : Nat) :
    Sound p (uninitialised opts p label result cid addr) := by
  refine plain_sound rfl ?_
  intro m mem
  unfold sendUbi at mem
  split at mem
  · split at mem
    · cases mem
    · rw [List.mem_singleton.mp mem]
      exact .plain (t := .memerr) rfl (by decide) (by decide)
  · cases mem

lemma traceCond_sound (label : Nat) (r : Bool) (flag cid addr : Nat) :
    Sound p (traceCond opts p label r flag cid addr) := by
  unfold traceCond
  split
  · exact silent_sound rfl
  · split
    · exact uninitialised_sound label r.toNat cid addr
    · exact plain_sound rfl (solveCond_written _ _ _ _ _ _ _)

lemma traceProbes_sound (opts : Options) (p : Process) (conds : List TraceCond) :
    Sound p (traceProbes opts p conds) := by
  induction conds generalizing p with
  | nil => exact silent_sound rfl
  | cons c rest ih => exact (traceCond_sound _ _ _ _ _).andThen (ih _)

lemma traceCond_process (opts : Options) (p : Process) (label : Nat) (r : Bool)
    (flag cid addr : Nat) : (traceCond opts p label r flag cid addr).process = p := by
  unfold traceCond
  split
  · rfl
  · split <;> rfl

lemma traceProbes_process (conds : List TraceCond) : (traceProbes opts p conds).process = p := by
  induction conds with
  | nil => rfl
  | cons c rest ih =>
    have first := traceCond_process opts p c.label false 16 (checkId c.check)
      (p.tracer.probeSite c.check)
    unfold traceProbes Reaction.andThen
    split
    · simp only [first, ih]
    · exact first

/-- A runtime call inside a hook: the rest of the hook finds the grown table. -/
lemma update_sound {α : Type} {result : Option (α × Runtime)} {k : α → Process → Reaction}
    (stocked : Stocked p.machine.table)
    (grown : ∀ a s, result = some (a, s) → Grown p.machine.table s)
    (next : ∀ a p', result = some (a, p'.machine.table) → Stocked p'.machine.table →
      Sound p' (k a p')) : Sound p (update opts p result k) := by
  rcases made : result with _ | r
  · exact plain_sound rfl fun m mem => absurd mem List.not_mem_nil
  obtain ⟨a, s⟩ := r
  have grows := grown a s made
  have probes := traceProbes_sound opts ⟨⟨s, p.machine.shadow⟩, p.tracer⟩
    (s.conds.drop p.machine.table.conds.length)
  have rest := next a ⟨⟨s, p.machine.shadow⟩, p.tracer⟩ made (stocked.grown grows)
  have whole : Sound ⟨⟨s, p.machine.shadow⟩, p.tracer⟩ (update opts p (some (a, s)) k) := by
    refine probes.andThen ?_
    rw [traceProbes_process]
    exact rest
  exact ⟨grows.trans whole.grown, whole.sent⟩

lemma traceCmp_sound (stocked : Stocked p.machine.table) (op1 op2 size : Nat)
    (predicate : Predicate) (c1 c2 cid addr : Nat) :
    Sound p (traceCmp opts mem p op1 op2 size predicate c1 c2 cid addr) := by
  unfold traceCmp
  split
  · exact silent_sound rfl
  split
  · exact uninitialised_sound _ _ _ _
  split
  · exact uninitialised_sound _ _ _ _
  refine update_sound stocked (fun a s made => taintUnion_grown made) ?_
  intro temp p' _ _
  split
  · exact silent_sound rfl
  · exact plain_sound rfl (solveCond_written _ _ _ _ _ _ _)

lemma traceSwitchEnd_sound (cid addr : Nat) : Sound p (traceSwitchEnd p cid addr) := by
  simp only [traceSwitchEnd]
  split
  · exact silent_sound rfl
  · exact plain_sound rfl (solveCond_written _ _ _ _ _ _ _)

lemma traceSelect_sound (stocked : Stocked p.machine.table)
    (condLabel trueLabel falseLabel r trueOp falseOp cid addr : Nat) :
    Sound p (traceSelect opts mem p condLabel trueLabel falseLabel r trueOp falseOp cid addr) := by
  unfold traceSelect
  split
  · exact silent_sound rfl
  split
  · exact uninitialised_sound _ _ _ _
  split
  · refine update_sound stocked (fun a s made => taintUnion_grown made) ?_
    intro land p' _ _
    exact plain_sound rfl (solveCond_written _ _ _ _ _ _ _)
  split
  · refine update_sound stocked (fun a s made => taintUnion_grown made) ?_
    intro lor p' _ _
    exact plain_sound rfl (solveCond_written _ _ _ _ _ _ _)
  · exact plain_sound rfl (solveCond_written _ _ _ _ _ _ _)

lemma lineCoverage_sound (lineId : Nat) (result symbolic : Bool) (cid : Nat) :
    Sound p (lineCoverage opts p lineId result symbolic cid) := by
  simp only [lineCoverage]
  split
  · exact silent_sound rfl
  refine plain_sound rfl ?_
  intro m mem
  rw [List.mem_ite_nil_right, List.mem_singleton] at mem
  rw [mem.2]
  exact .plain (t := .cover) rfl (by decide) (by decide)

lemma traceGep_sound (c : GepCall) (cid addr : Nat) : Sound p (traceGep opts p c cid addr) := by
  simp only [traceGep]
  split
  · exact silent_sound rfl
  split
  · exact uninitialised_sound _ _ _ _
  split
  · exact uninitialised_sound _ _ _ _
  split
  · exact silent_sound rfl
  · refine plain_sound rfl ?_
    intro m mem
    rw [List.mem_singleton.mp mem]
    exact .gep rfl rfl

lemma traceMemerr_sound (ptrLabel ptr sizeLabel size flag addr : Nat) :
    Sound p (traceMemerr p ptrLabel ptr sizeLabel size flag addr) := by
  have send : ∀ r,
      Sound p ⟨[⟨p.tracer.header .memerr flag addr 0 ptrLabel r, .none⟩], p, true⟩ := by
    intro r
    refine plain_sound rfl ?_
    intro m mem
    rw [List.mem_singleton.mp mem]
    exact .plain (t := .memerr) rfl (by decide) (by decide)
  unfold traceMemerr
  split
  · exact silent_sound rfl
  split
  · exact silent_sound rfl
  · split
    iterate 4
      · exact send _
    · exact silent_sound rfl

section

variable (stocked : Stocked p.machine.table)

include stocked

lemma traceMemcmp_sound {label : Nat}
    (traced : label = 0 ∨ label = kInitializingLabel ∨ 1 ≤ label ∧
      label ≤ p.machine.table.last ∧ (p.machine.table.info label).size < 2 ^ 16) (addr : Nat) :
    Sound p (traceMemcmp opts mem p label addr) := by
  simp only [traceMemcmp]
  split
  · exact silent_sound rfl
  rename_i nonzero
  split
  · exact uninitialised_sound _ _ _ _
  rename_i init
  obtain ⟨pos, le, small⟩ : 1 ≤ label ∧ label ≤ p.machine.table.last ∧
      (p.machine.table.info label).size < 2 ^ 16 := by
    rcases traced with zero | uninit | known
    · exact absurd zero nonzero
    · exact absurd uninit init
    · exact known
  have room := stocked.room
  have top := stocked.top
  have named : (BitVec.ofNat 32 label).toNat = label := by
    rw [BitVec.toNat_ofNat]
    simp only [maxLabel] at top
    omega
  have sized : (BitVec.ofNat 64 (p.machine.table.info label).size).toNat =
      (p.machine.table.info label).size := by
    rw [BitVec.toNat_ofNat, Nat.mod_eq_of_lt (by omega)]
  have traced' : ∀ flags, Traced p.machine.table
      (p.tracer.header .memcmp flags addr 0 label (p.machine.table.info label).size) := by
    intro flags
    constructor
    all_goals simp only [Tracer.header, named, sized]
    · exact pos
    · exact le
    · omega
    · exact small
  split
  · exact silent_sound rfl
  refine plain_sound rfl ?_
  intro m mem
  rw [List.mem_singleton.mp mem]
  split
  next sides =>
    refine .symbolic rfl (traced' 0) rfl ?_
    simp only [Tracer.header, named]
    exact sides
  next side =>
    refine .concrete rfl (traced' 1) rfl ?_ ?_
    · simp only [Tracer.header, named]
      exact side
    · simp [Tracer.header, sized, content]

lemma readLabel_sound (ptr addr n : Nat) {k : Nat → Process → Reaction}
    (next : ∀ l p', Stocked p'.machine.table → Sound p' (k l p')) :
    Sound p (readLabel opts mem p ptr addr n k) := by
  unfold readLabel
  split
  · exact next 0 p stocked
  · refine update_sound stocked (fun a s made => .of (RoundTrip.unionLoad_counted made)) ?_
    intro l p' _ stocked'
    exact next l p' stocked'

lemma taintMemcmp_sound (c : CompareCall) (addr : Nat) :
    Sound p (taintMemcmp opts mem p c addr) := by
  refine readLabel_sound stocked _ _ _ ?_
  intro l1 p1 stocked1
  refine readLabel_sound stocked1 _ _ _ ?_
  intro l2 p2 stocked2
  refine update_sound stocked2 (fun a s made => taintUnion_grown made) ?_
  intro ret p3 made stocked3
  split
  · exact silent_sound rfl
  refine traceMemcmp_sound stocked3 ?_ addr
  rcases fmemcmp_label stocked2 made with zero | init | ⟨pos, le, size⟩
  · exact .inl zero
  · exact .inr (.inl init)
  · exact .inr (.inr ⟨pos, le, by rw [size]; exact Nat.mod_lt _ (by decide)⟩)

end

/-- The step lemma: one case for each kind of action. -/
lemma perform_sound (opts : Options) (stocked : Stocked p.machine.table) (a : Action) :
    Sound p (perform opts p a) := by
  cases a with
  | call step =>
    simp only [perform]
    split
    · exact plain_sound rfl fun m mem => absurd mem List.not_mem_nil
    next m made =>
      have probes := traceProbes_sound opts ⟨m, p.tracer⟩
        (m.table.conds.drop p.machine.table.conds.length)
      exact ⟨(exec_grown made).trans probes.grown, probes.sent⟩
  | callstack context => exact silent_sound rfl
  | cond label r flag cid addr => exact traceCond_sound _ _ _ _ _
  | cmp mem op1 op2 size predicate c1 c2 cid addr => exact traceCmp_sound stocked _ _ _ _ _ _ _ _
  | switchEnd cid addr => exact traceSwitchEnd_sound _ _
  | select mem condLabel trueLabel falseLabel r trueOp falseOp cid addr =>
    exact traceSelect_sound stocked _ _ _ _ _ _ _ _
  | line lineId result symbolic cid => exact lineCoverage_sound _ _ _ _
  | gep c cid addr => exact traceGep_sound _ _ _
  | memcmp mem c addr => exact taintMemcmp_sound stocked _ _
  | memerr ptrLabel ptr sizeLabel size flag addr => exact traceMemerr_sound _ _ _ _ _ _

end Actions

/-! ### Whole runs -/

/-- The tables of the stages after `s`, each an extension of the one before. -/
inductive Chain : Runtime → List Stage → Prop
  | nil {s : Runtime} : Chain s []
  | cons {s : Runtime} {st : Stage} {rest : List Stage} (ext : Extends s st.table)
      (sent : ∀ m ∈ st.sent, Written st.table m) (tail : Chain st.table rest) :
      Chain s (st :: rest)

lemma stages_chain (opts : Options) {p : Process} (stocked : Stocked p.machine.table)
    (actions : List Action) : Chain p.machine.table (stages opts p actions) := by
  induction actions generalizing p with
  | nil => exact .nil
  | cons a rest ih =>
    have sound := perform_sound opts stocked a
    refine .cons sound.grown.toExtends sound.sent ?_
    split
    · exact ih (stocked.grown sound.grown)
    · exact .nil

lemma start_stocked (pipeFd : Int) (instanceId : Nat) (probeSite : UndefinedCheck → Nat) :
    Stocked (Process.start pipeFd instanceId probeSite).machine.table := by
  constructor
  · exact (by decide : 0 < maxLabel - 2)
  · exact (by decide : maxLabel - 2 < maxLabel)
  · intro b l mem
    cases mem

/-- What a reader of the shared table sees: when it looks at message number
`n + i` of the stages, it finds the table of the message's stage or a later one. -/
def SeenLater (views : Nat → Runtime) : Nat → List Stage → Prop
  | _, [] => True
  | n, st :: rest =>
    (∀ i, i < st.sent.length → ∃ later ∈ st :: rest, views (n + i) = later.table) ∧
      SeenLater views (n + st.sent.length) rest

/-- A reader that only starts when the process has ended sees the last table. -/
lemma seenLater_last (before : List Stage) (last : Stage) (n : Nat) :
    SeenLater (fun _ => last.table) n (before ++ [last]) := by
  induction before generalizing n with
  | nil => exact ⟨fun _ _ => ⟨last, List.mem_cons_self, rfl⟩, trivial⟩
  | cons st before ih => exact ⟨fun _ _ => ⟨last, by simp, rfl⟩, ih _⟩

variable {run : List Stage}

lemma Chain.later (chain : Chain s run) : ∀ st ∈ run, Extends s st.table := by
  induction chain with
  | nil => intro st mem; cases mem
  | cons ext _ _ ih => exact List.forall_mem_cons.mpr ⟨ext, fun st rest => ext.trans (ih st rest)⟩

lemma Chain.fits (chain : Chain s run) : ∀ m ∈ sentBy run, ∃ s, Written s m := by
  induction chain with
  | nil => intro m mem; cases mem
  | cons _ sent _ ih => exact List.forall_mem_append.mpr ⟨fun m here => ⟨_, sent m here⟩, ih⟩

lemma Chain.seen (chain : Chain s run) {views : Nat → Runtime} {n : Nat}
    (seen : SeenLater views n run) :
    ∀ k m, (sentBy run)[k]? = some m → Written (views (n + k)) m := by
  induction chain generalizing n with
  | nil => intro k m found; simp [sentBy] at found
  | @cons s st rest ext sent tail ih =>
    intro k m found
    simp only [sentBy, List.flatMap_cons] at found
    by_cases here : k < st.sent.length
    · rw [List.getElem?_append_left here] at found
      obtain ⟨later, mem, view⟩ := seen.1 k here
      have fits := sent m (List.mem_of_getElem? found)
      rw [view]
      rcases List.mem_cons.mp mem with rfl | behind
      · exact fits
      · exact fits.extends (tail.later later behind)
    · rw [List.getElem?_append_right (by omega)] at found
      have := ih seen.2 (k - st.sent.length) m found
      rwa [show n + st.sent.length + (k - st.sent.length) = n + k by omega] at this

end TraceHooks
