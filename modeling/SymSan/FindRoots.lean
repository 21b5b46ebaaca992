import SymSan.ScanTables
import SymSan.RgdAst

/-!
# `scan_labels` and `find_roots`

Before a branch condition is parsed, one scan of the table records for every
label the size of its AST and how many comparisons it contains, in 8 bits. The
traversal then builds a formula whose leaves are comparisons. It is iterative,
with a stack of labels and a stack of the nodes under construction, and it skips
a label that it has finished before. A frame here is a label with its node; the
node of a finished frame is written into the frame below it.
-/

namespace FindRoots

open LabelTable RgdAst

structure Parser where
  info : Nat → LabelInfo
  size : Nat
  maxAstSize : Nat
  /-- Nodes that fit into the arena of a root expression, the dummy included. -/
  capacity : Nat
  /-- Sizes of the input buffers. -/
  inputs : List Nat

structure Caches where
  astSize : List Nat
  nestedCmp : List Nat
  /-- 0 for a label that is not in the map. -/
  concretize : Nat → Nat

variable (p : Parser)

def Parser.getLabelInfo (l : Nat) : Option LabelInfo :=
  if p.size ≤ l then none else some (p.info l)

lemma getLabelInfo_eq {p : Parser} {l : Nat} {r : LabelInfo}
    (h : p.getLabelInfo l = some r) : r = p.info l := by
  simp only [Parser.getLabelInfo, Option.ite_none_left_eq_some] at h
  exact (Option.some.inj h.2).symm

def isCmp (op : Operator) : Bool := isIcmp op || decide (op = .fmemcmp)

/-! ## The scan -/

/-- `nested_cmp_cache[l]`, which is indexed without a check. -/
def Caches.nested (c : Caches) (l : Nat) : Nat := c.nestedCmp.getD l 0

def Caches.push (c : Caches) (size nested : Nat) : Caches :=
  { c with astSize := c.astSize ++ [size], nestedCmp := c.nestedCmp ++ [nested] }

/-- One round of the loop; false if the label is refused. An input label with a
bad position leaves its size behind. -/
def scanLabel (c : Caches) : Bool × Caches :=
  let i := c.astSize.length
  if i = 0 then (true, c.push 1 0)
  else match p.getLabelInfo i with
  | none => (false, c)
  | some r =>
    if p.size ≤ r.l1 ∨ p.size ≤ r.l2 then (false, c)
    else
      let refused : Bool × Caches := (false, { c with astSize := c.astSize ++ [1] })
      match r.op with
      | .input =>
        match p.inputs[r.op2 % 2 ^ 32]? with
        | none => refused
        | some bufSize =>
          if bufSize ≤ r.op1 % 2 ^ 32 then refused else (true, c.push 1 0)
      | .load =>
        match p.inputs[(p.info r.l1).op2 % 2 ^ 32]? with
        | none => refused
        | some bufSize =>
          if bufSize < ((p.info r.l1).op1 + r.l2) % 2 ^ 32 then refused else (true, c.push 1 0)
      | op =>
        let left := if r.l1 = 0 then 1 else c.astSize.getD r.l1 0
        let right := if r.l2 = 0 then 1 else c.astSize.getD r.l2 0
        let nested := (if r.l1 = 0 then 0 else c.nested r.l1) +
          (if r.l2 = 0 then 0 else c.nested r.l2) + (if isCmp op then 1 else 0)
        (true, c.push ((left + right + 1) % 2 ^ 32) (nested % 256))

def scanMany (p : Parser) : Nat → Caches → Bool × Caches
  | 0, c => (true, c)
  | k + 1, c =>
    match scanLabel p c with
    | (true, c') => scanMany p k c'
    | (false, c') => (false, c')

def scanLabels (c : Caches) (label : Nat) : Bool × Caches :=
  scanMany p (label + 1 - c.astSize.length) c

/-! ## Nodes -/

/-- `strip_zext`, from `cur` on; a cycle of extensions would never end. -/
def stripLoop (p : Parser) (label : Nat) : Nat → Nat → Option Nat
  | 0, _ => none
  | fuel + 1, cur =>
    (p.getLabelInfo cur).bind fun r =>
    if r.op = .zext then
      (p.getLabelInfo r.l1).bind fun child =>
      if child.size = 1 then some r.l1
      else if isCmp child.op then some r.l1
      else stripLoop p label fuel r.l1
    else some label

def stripZext (label : Nat) : Option Nat := stripLoop p label (label + 1) label

/-- `eval_icmp` on 64-bit operands. -/
def evalIcmp (q : Predicate) (op1 op2 : Nat) : Bool :=
  match q with
  | .bveq => op1 = op2
  | .bvneq => op1 ≠ op2
  | .bvugt => op1 > op2
  | .bvuge => op1 ≥ op2
  | .bvult => op1 < op2
  | .bvule => op1 ≤ op2
  | .bvsgt => (BitVec.ofNat 64 op2).slt (BitVec.ofNat 64 op1)
  | .bvsge => (BitVec.ofNat 64 op2).sle (BitVec.ofNat 64 op1)
  | .bvslt => (BitVec.ofNat 64 op1).slt (BitVec.ofNat 64 op2)
  | .bvsle => (BitVec.ofNat 64 op1).sle (BitVec.ofNat 64 op2)
  | .other _ => false

/-- Logical negation of the child. -/
def processNot (r : LabelInfo) (node : AstNode) : Option AstNode :=
  if node.childrenSize ≠ 1 then none
  else if r.size ≠ 1 then none
  else
    let child := node.child 0
    let node := node.update (·.setBits 1)
    if child.kind = .bool then
      some (node.setBool (if child.data.boolvalue = 0 then 1 else 0))
    else some (node.update (·.setKind .lnot))

/-- The nodes of the two operands; an operand without comparison has none. -/
def sides (c : Caches) (r : LabelInfo) (node : AstNode) : Option AstNode × Option AstNode :=
  let left := if 0 < c.nested r.l1 then some (node.child 0) else none
  let right :=
    if 0 < c.nested r.l2 then some (node.child (if left.isSome then 1 else 0)) else none
  (left, right)

/-- And and Or: `absorbing` is the constant that decides the result. -/
def processLogic (absorbing : Nat) (kind : AstKind) (c : Caches) (r : LabelInfo)
    (node : AstNode) : Option AstNode :=
  if node.childrenSize = 0 then none
  else if r.size ≠ 1 then none
  else
    let (left, right) := sides c r node
    let node := node.update (·.setBits 1)
    if r.l1 = 0 then
      if r.op1 = absorbing then some (node.setBool absorbing)
      else if r.op1 = 1 - absorbing then right
      else none
    else
      left.bind fun left => right.bind fun right =>
      if left.kind = .bool then
        if left.data.boolvalue = absorbing then some (node.setBool absorbing)
        else if right.kind = .bool then some (node.setBool right.data.boolvalue)
        else some right
      else if right.kind = .bool then
        if right.data.boolvalue = absorbing then some (node.setBool absorbing)
        else some left
      else some (node.update (·.setKind kind))

def processAnd : Caches → LabelInfo → AstNode → Option AstNode := processLogic 0 .land

def processOr : Caches → LabelInfo → AstNode → Option AstNode := processLogic 1 .lor

def processXor (c : Caches) (r : LabelInfo) (node : AstNode) : Option AstNode :=
  if node.childrenSize = 0 then none
  else if r.size ≠ 1 then none
  else
    let (left, right) := sides c r node
    let node := node.update (·.setBits 1)
    if r.l1 = 0 then
      right.bind fun right =>
      if right.kind = .bool then
        some (node.setBool (right.data.boolvalue ^^^ r.op1 % 2 ^ 32))
      else if r.op1 = 1 then some (node.update (·.setKind .lnot))
      else some right
    else
      left.bind fun left => right.bind fun right =>
      if left.kind = .bool then
        if right.kind = .bool then
          some (node.setBool (right.data.boolvalue ^^^ left.data.boolvalue))
        else if left.data.boolvalue = 0 then some right
        else some (node.update (·.setKind .lnot))
      else if right.kind = .bool then
        if right.data.boolvalue = 0 then some left
        else some (node.update (·.setKind .lnot))
      else some (node.update (·.setKind .xor))

/-- The operands of a comparison to be made concrete because their ASTs are too
large (bit 0 the left one, bit 1 the right one), and the caches with the new size. -/
def concretizeLeaf (c : Caches) (r : LabelInfo) (label : Nat) : Option (Nat × Caches) :=
  c.astSize[label]?.bind fun size =>
  let concretize := c.concretize label
  if p.maxAstSize < size then
    c.astSize[r.l1]?.bind fun leftSize =>
    c.astSize[r.l2]?.bind fun rightSize =>
    let left := p.maxAstSize < leftSize
    let right := p.maxAstSize < rightSize
    let concretize := if left then concretize ||| 1 else concretize
    let size := if left then (size + 2 ^ 32 - (leftSize - 1)) % 2 ^ 32 else size
    let concretize := if right then concretize ||| 2 else concretize
    let size := if right then (size + 2 ^ 32 - (rightSize - 1)) % 2 ^ 32 else size
    some (concretize, { c with
      astSize := c.astSize.set label size
      concretize := fun k => if k = label then concretize else c.concretize k })
  else some (concretize, c)

/-- A constant operand counts as concrete. -/
def concreteOps (r : LabelInfo) (concretize : Nat) : Nat :=
  concretize ||| (if r.l1 = 0 then 1 else 0) ||| (if r.l2 = 0 then 2 else 0)

/-- A comparison with no comparison in its operands. -/
def processLeaf (c : Caches) (q : Predicate) (r : LabelInfo) (label : Nat)
    (node : AstNode) : Option (AstNode × Caches) :=
  (concretizeLeaf p c r label).bind fun (concretize, c) =>
  if concreteOps r concretize = 3 then
    some (node.update fun d => (d.setKind .bool).setBoolvalue (evalIcmp q r.op1 r.op2).toNat, c)
  else
    (opMap r.op).map fun kind => (node.update fun d => (d.setKind kind).setLabel label, c)

/-- Comparison of a boolean with a constant, on either side. -/
def compareBool (q : Predicate) (child node : AstNode) (other const : Nat) : Option AstNode :=
  if child.data.bits ≠ 1 then none
  else if other = 0 then
    if q = .bveq then
      if const = 1 then some child else some (node.update (·.setKind .lnot))
    else
      if const = 0 then some child else some (node.update (·.setKind .lnot))
  else some (node.setBool 0)

def processIcmp (c : Caches) (q : Predicate) (r : LabelInfo) (label : Nat)
    (node : AstNode) : Option (AstNode × Caches) :=
  let node := node.update (·.setBits 1)
  if node.childrenSize = 0 then processLeaf p c q r label node
  else if node.childrenSize = 1 then
    if q ≠ .bveq ∧ q ≠ .bvneq then
      some (node.update fun d => (d.setKind .bool).setBoolvalue (evalIcmp q r.op1 r.op2).toNat, c)
    else if c.nested r.l1 ≠ 0 then
      (compareBool q (node.child 0) node r.l2 r.op2).map (·, c)
    else if 0 < c.nested r.l2 then
      (compareBool q (node.child 0) node r.l1 r.op1).map (·, c)
    else none
  else some (node.setBool (evalIcmp q r.op1 r.op2).toNat, c)

def processMemcmp (label : Nat) (node : AstNode) : Option AstNode :=
  if node.childrenSize ≠ 0 then none
  else some (node.update fun d => ((d.setBits 1).setKind .memcmp).setLabel label)

/-- A node whose children are finished. -/
def processNode (c : Caches) (r : LabelInfo) (label : Nat) (node : AstNode) :
    Option (AstNode × Caches) :=
  match r.op with
  | .not => (processNot r node).map (·, c)
  | .and => (processAnd c r node).map (·, c)
  | .or => (processOr c r node).map (·, c)
  | .xor => (processXor c r node).map (·, c)
  | .icmp q => processIcmp p c q r label node
  | .fmemcmp => (processMemcmp label node).map (·, c)
  | _ => none

/-! ## The traversal -/

structure Frame where
  label : Nat
  node : AstNode

structure Walk where
  root : Nat
  prev : Nat
  frames : List Frame
  visited : List Nat
  /-- Nodes in the arena. -/
  arena : Nat
  caches : Caches

inductive Outcome where
  | running (w : Walk)
  | finished (t : AstNode) (c : Caches)
  | invalid

/-- Add a child to the frame on top and go down to it. -/
def goDown (w : Walk) (f : Frame) (rest : List Frame) (root : Nat) : Outcome :=
  if p.capacity ≤ w.arena then .invalid
  else match f.node.addChild with
  | none => .invalid
  | some node =>
    .running { w with root := root, frames := ⟨f.label, node⟩ :: rest, arena := w.arena + 1 }

/-- A label is reached: it is put on the stack unless it has been visited. -/
def stepDown (w : Walk) : Outcome :=
  if w.root ∈ w.visited then .running { w with prev := w.root, root := 0 }
  else match p.getLabelInfo w.root with
  | none => .invalid
  | some r =>
    let frame : Frame := ⟨w.root, .fresh⟩
    if w.caches.nested r.l1 = 0 then .running { w with root := 0, frames := frame :: w.frames }
    else match stripZext p r.l1 with
    | none => .invalid
    | some left =>
      if left = 0 then .running { w with root := 0, frames := frame :: w.frames }
      else goDown p w frame w.frames left

/-- The frame on top is finished: it is taken off and its node is the child that
the frame below was waiting for. -/
def popFrame (w : Walk) (label : Nat) (t : AstNode) (c : Caches) (rest : List Frame) : Outcome :=
  match rest with
  | [] => .finished t c
  | g :: rest =>
    .running { w with
      root := 0, prev := label, frames := ⟨g.label, g.node.setLast t⟩ :: rest
      visited := label :: w.visited, caches := c }

/-- Back at the frame on top: its right operand, or the node itself. -/
def stepUp (w : Walk) (f : Frame) (rest : List Frame) : Outcome :=
  match p.getLabelInfo f.label with
  | none => .invalid
  | some r =>
    match stripZext p r.l2 with
    | none => .invalid
    | some right =>
      if 0 < w.caches.nested right ∧ w.prev ≠ right then goDown p w f rest right
      else match processNode p w.caches r f.label f.node with
      | none => .invalid
      | some (t, c) => popFrame w f.label t c rest

def step (w : Walk) : Outcome :=
  if w.root ≠ 0 then stepDown p w
  else match w.frames with
  | [] => .invalid
  | f :: rest => stepUp p w f rest

def walk (p : Parser) : Nat → Walk → Option (AstNode × Caches)
  | 0, _ => none
  | fuel + 1, w =>
    match step p w with
    | .running w' => walk p fuel w'
    | .finished t c => some (t, c)
    | .invalid => none

/-- `find_roots` in a new arena, which holds the dummy root. -/
def findRoots (c : Caches) (fuel label : Nat) : Option (AstNode × Caches) :=
  walk p fuel ⟨label, 0, [], [], 1, c⟩

end FindRoots
