import SymSan.BranchForms
import SymSan.DataFlowSets
import SymSan.UtaRel

/-!
# `RGDAstParser::parse_cond`

The parser with everything it keeps since `restart`. A branch becomes one task for
every clause of its negation. With nested solving a second task adds the constraints
that earlier branches have left in the buckets of related input bytes, and the branch
leaves its own constraints there.

`parse_cond` calls `finalize` on a task, which only lays out the arguments of the
constraints; it is modelled with the tasks of the code generator. Task identifiers are
left out.
-/

namespace BranchTasks

open LabelTable RgdAst FindRoots JigsawTask UtaRel BranchForms DataFlowSets

/-- What does not change between two calls of `restart`. -/
structure Setting where
  parser : Parser
  bytes : Nat → Nat → BitVec 8
  solveNested : Bool
  /-- The order in which a set of bytes is walked. -/
  walkSet : List Nat → List Nat
  walks : ∀ set, (walkSet set).Perm set

structure State where
  caches : Caches
  /-- `branch_to_inputs`, a bit set for every scanned label. -/
  branchToInputs : List (Nat → Bool)
  memcmp : Nat → Option (Nat → BitVec 8)
  rootExprs : Nat → Option AstNode
  constraints : Nat → Option Constraint
  dataFlow : UnionFind
  /-- `input_to_branches` -/
  buckets : Nat → List AstNode

structure Task where
  constraints : List (Constraint × AstKind)
  /-- The constraints of the base task, for a nested one. -/
  base : Option (List (Constraint × AstKind))

variable (p : Parser)

def inputSize : Nat := p.inputs.sum

def restart : State :=
  ⟨⟨[], [], fun _ => 0⟩, [], fun _ => none, fun _ => none, fun _ => none, reset (inputSize p),
    fun _ => []⟩

/-- `record_memcmp`; a label that has a content keeps it. -/
def recordMemcmp (s : State) (label : Nat) (content : Nat → BitVec 8) : State :=
  { s with memcmp := Function.update s.memcmp label ((s.memcmp label).or (some content)) }

/-! ## Root expressions -/

def inputToDepIdx (id offset : Nat) : Nat := (p.inputs.take id).sum + offset

/-- The bytes of a label over those of the earlier ones. -/
def inputsOf (earlier : Nat → Nat → Bool) (l : Nat) : Nat → Bool :=
  if l = 0 then fun _ => false
  else match (p.info l).op with
  | .input =>
    fun i => i = inputToDepIdx p ((p.info l).op2 % 2 ^ 32) ((p.info l).op1 % 2 ^ 32)
  | .load =>
    let first := p.info (p.info l).l1
    let start := inputToDepIdx p (first.op2 % 2 ^ 32) (first.op1 % 2 ^ 32)
    fun i => start ≤ i ∧ i < start + (p.info l).l2
  | _ => fun i => ((p.info l).l1 ≠ 0 ∧ earlier (p.info l).l1 i) ∨
      ((p.info l).l2 ≠ 0 ∧ earlier (p.info l).l2 i)

def State.inputs (s : State) (l : Nat) : Nat → Bool := s.branchToInputs.getD l fun _ => false

def scanNext (p : Parser) : Nat → State → Bool × State
  | 0, s => (true, s)
  | k + 1, s =>
    match scanLabel p s.caches with
    | (true, c) =>
      scanNext p k { s with
        caches := c
        branchToInputs := s.branchToInputs ++ [inputsOf p s.inputs s.caches.astSize.length] }
    | (false, c) => (false, { s with caches := c })

/-- What a step that fails leaves in the caches: a comparison with an unknown predicate
is refused after its operands have been concretized. -/
def refused (w : Walk) : Caches :=
  match w.frames with
  | [] => w.caches
  | f :: _ =>
    let r := p.info f.label
    let leaf := w.root = 0 ∧ f.node.childrenSize = 0 ∧ isIcmp r.op = true ∧ opMap r.op = none
    match stripZext p r.l2 with
    | none => w.caches
    | some right =>
      if leaf ∧ ¬(0 < w.caches.nested right ∧ w.prev ≠ right) then
        ((concretizeLeaf p w.caches r f.label).map Prod.snd).getD w.caches
      else w.caches

/-- The caches after a traversal. -/
def leftBehind (p : Parser) : Nat → Walk → Caches
  | 0, w => w.caches
  | fuel + 1, w =>
    match step p w with
    | .running w' => leftBehind p fuel w'
    | .finished _ c => c
    | .invalid => refused p w

/-- Every step down takes a node from the arena, so more rounds are not possible. -/
def rounds : Nat := 3 * p.capacity + 3

def getRootExpr (s : State) (label : Nat) : Option AstNode × State :=
  if label < 1 ∨ label = kInitializingLabel ∨ p.size ≤ label then (none, s)
  else match s.rootExprs label with
  | some t => (some t, s)
  | none =>
    match scanNext p (label + 1 - s.caches.astSize.length) s with
    | (false, s) => (none, s)
    | (true, s) =>
      match findRoots p s.caches (rounds p) label with
      | some (t, c) =>
        (some t, { s with caches := c, rootExprs := Function.update s.rootExprs label (some t) })
      | none =>
        (none, { s with caches := leftBehind p (rounds p) ⟨label, 0, [], [], 1, s.caches⟩ })

/-! ## Tasks -/

variable (σ : Setting)

def context (s : State) : Context :=
  ⟨σ.parser, σ.bytes, s.memcmp, s.caches.concretize⟩

/-- `parse_constraint`. Every recursive call follows an allocation, so its depth is
bounded by the recorded size. -/
def drawConstraint (s : State) (label : Nat) : Option Constraint :=
  parseConstraint (context σ s) s.caches.astSize (s.caches.astSize.getD label 0 + 2) label

/-- The constraint of an atom, from the cache if it is there. -/
def atomConstraint (s : State) (label : Nat) : Option Constraint × State :=
  match s.constraints label with
  | some c => (some c, s)
  | none =>
    match drawConstraint σ s label with
    | some c => (some c, { s with constraints := Function.update s.constraints label (some c) })
    | none => (none, s)

/-- `construct_task`: the constraints of a clause with the operators of its atoms. An
atom that cannot be parsed is passed over. -/
def constructTask (σ : Setting) : State → List AstNode → List (Constraint × AstKind) × State
  | s, [] => ([], s)
  | s, node :: clause =>
    match atomConstraint σ s node.data.label with
    | (some c, s) =>
      let (rest, s) := constructTask σ s clause
      ((c, node.kind) :: rest, s)
    | (none, s) => constructTask σ s clause

/-! ## Nested tasks -/

/-- The bits of the atom are replaced, in the table, by those of the operand that is
not concretized. -/
def useInputs (s : State) (l : Nat) : State :=
  if s.caches.concretize l = 1 then
    { s with branchToInputs := s.branchToInputs.set l (s.inputs (σ.parser.info l).l2) }
  else if s.caches.concretize l = 2 then
    { s with branchToInputs := s.branchToInputs.set l (s.inputs (σ.parser.info l).l1) }
  else s

/-- The bytes of a label in ascending order. -/
def bytesOf (s : State) (l : Nat) : List Nat :=
  (List.range (inputSize σ.parser)).filter (s.inputs l)

/-- The set that is left after `get_set` has been called for every byte. -/
def relatedInputs (uf : UnionFind) (bytes : List Nat) : List Nat :=
  bytes.foldl (fun related input => (uf.getSet input).getD related) []

structure Nested where
  clause : List AstNode
  inserted : List Nat
  hasNested : Bool

/-- A constraint for a label that is in the clause already is passed over. -/
def Nested.add (n : Nested) (nc : AstNode) : Nested :=
  if nc.data.label ∈ n.inserted then n
  else ⟨n.clause ++ [nc], nc.data.label :: n.inserted, true⟩

def collectVar (s : State) (n : Nested) (var : AstNode) : Nested × State :=
  let s := useInputs σ s var.data.label
  let bytes := bytesOf σ s var.data.label
  if bytes = [] then (n, s)
  else (((σ.walkSet (relatedInputs s.dataFlow bytes)).flatMap s.buckets).foldl .add n, s)

def collectVars (σ : Setting) : State → Nested → List AstNode → Nested × State
  | s, n, [] => (n, s)
  | s, n, var :: clause =>
    let (n, s) := collectVar σ s n var
    collectVars σ s n clause

def parseClause (s : State) (clause : List AstNode) : List Task × State :=
  let (constraints, s) := constructTask σ s clause
  if constraints = [] then ([], s)
  else if σ.solveNested then
    let (n, s) := collectVars σ s ⟨clause, clause.map (·.data.label), false⟩ clause
    if n.hasNested then
      let (more, s) := constructTask σ s n.clause
      if more = [] then ([⟨constraints, none⟩], s)
      else ([⟨constraints, none⟩, ⟨more, some constraints⟩], s)
    else ([⟨constraints, none⟩], s)
  else ([⟨constraints, none⟩], s)

def parseClauses (σ : Setting) : State → List (List AstNode) → List Task × State
  | s, [] => ([], s)
  | s, clause :: dnf =>
    let (tasks, s) := parseClause σ s clause
    let (more, s) := parseClauses σ s dnf
    (tasks ++ more, s)

/-! ## Saved constraints -/

/-- The bytes of an atom become one set; the root of the set. -/
def mergeAll : UnionFind → Nat → List Nat → Option (Nat × UnionFind)
  | uf, root, [] => some (root, uf)
  | uf, root, input :: rest => (uf.merge root input).bind fun (root, uf) => mergeAll uf root rest

/-- An atom goes into the bucket of the root of its bytes; false if the sets refuse. -/
def saveVar (s : State) (var : AstNode) : Bool × State :=
  let s := useInputs σ s var.data.label
  match bytesOf σ s var.data.label with
  | [] => (true, s)
  | first :: rest =>
    match mergeAll s.dataFlow first rest with
    | none => (false, s)
    | some (root, uf) =>
      (true, { s with
        dataFlow := uf
        buckets := Function.update s.buckets root (s.buckets root ++ [var]) })

def saveVars (σ : Setting) : State → List AstNode → State
  | s, [] => s
  | s, var :: rest =>
    match saveVar σ s var with
    | (true, s) => saveVars σ s rest
    | (false, s) => s

def saveConstraint (s : State) (root : AstNode) (result : Bool) : State :=
  match toNnf result root with
  | none => s
  | some t => saveVars σ s (toDnf t []).flatten

/-! ## Branches -/

/-- `parse_cond`: whether it succeeds, and the tasks. -/
def parseCond (s : State) (label : Nat) (result addNested : Bool) : Bool × List Task × State :=
  match getRootExpr σ.parser s label with
  | (none, s) => (false, [], s)
  | (some root, s) =>
    if root.kind = .bool then (true, [], s)
    else match toNnf (!result) root with
    | none => (false, [], s)
    | some t =>
      let (tasks, s) := parseClauses σ s (toDnf t [])
      if σ.solveNested ∧ addNested then (true, tasks, saveConstraint σ s root result)
      else (true, tasks, s)

end BranchTasks
