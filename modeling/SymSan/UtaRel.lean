import SymSan.FindRoots
import SymSan.JigsawTask
import SymSan.LittleEndian

/-!
# `parse_constraint` and `do_uta_rel`

The AST of one comparison is drawn from the union table together with the arguments
of its function. A label whose node has been drawn in the same constraint is not
expanded again: its second node only has the label and the size. A constant is
passed as an argument of its own.

The set of operators that occur, the recorded operands of the comparison, the number
of constants and the information on string conversions are left out; nothing below
reads them.
-/

namespace UtaRel

open LabelTable RgdAst FindRoots JigsawTask

/-- What the parser knows besides the table: the input buffers, the contents of memory
comparisons and the comparisons with an operand to be concretized. -/
structure Context where
  parser : Parser
  bytes : Nat → Nat → BitVec 8
  memcmp : Nat → Option (Nat → BitVec 8)
  /-- 0, or the operand to be replaced by its recorded value. -/
  concretize : Nat → Nat

/-- A constraint under construction. -/
structure Draft where
  args : ArgMap
  visited : List Nat
  /-- Nodes in the arena, the dummy included. -/
  nodes : Nat

def Draft.visit (s : Draft) (label : Nat) : Draft := { s with visited := label :: s.visited }

/-- `add_children`, without a node that has two children already. -/
def Draft.addNode (capacity : Nat) (s : Draft) : Option Draft :=
  if capacity ≤ s.nodes then none else some { s with nodes := s.nodes + 1 }

/-- The number of a kind in the enumeration. -/
def kindCode (k : AstKind) : UInt32 := UInt32.ofNat k.ctorIdx

/-! ## Nodes without children -/

def visitedNode (label size : Nat) : AstNode :=
  .leaf ((NodeData.fresh.setLabel label).setBits size)

/-- The hash that `map_arg` returns. -/
def readHash (a : ArgMap) (offset length : Nat) : UInt32 :=
  if length = 0 then 0
  else xxhash (UInt32.ofNat (length * 8)) (kindCode .read)
    (UInt32.ofNat ((a.localMap.find offset).getD 0))

variable (ctx : Context)

/-- A read of `length` bytes, mapped to arguments. -/
def readNode (label id offset length : Nat) (s : Draft) : AstNode × Draft :=
  let args := mapArg (ctx.bytes id) offset length s.args
  let d := (((NodeData.fresh.setKind .read).setBits (length * 8)).setLabel label).setIndex offset
  (.leaf (d.setHash (readHash args offset length)), { s with args := args })

def constantNode (bits hashed index : Nat) : AstNode :=
  let d := ((NodeData.fresh.setKind .constant).setBits bits).setIndex index
  .leaf (d.setHash (xxhash (UInt32.ofNat hashed) (kindCode .constant) (UInt32.ofNat index)))

/-- A constant operand of a Concat takes what the size of the other operand leaves. -/
def constantSize (r : LabelInfo) (other : Nat) : Option Nat :=
  if r.op = .concat then
    if other = 0 then none
    else (ctx.parser.getLabelInfo other).map fun o => (r.size + 2 ^ 32 - o.size) % 2 ^ 32
  else some r.size

/-- The bytes of a memory comparison in words of 8 bytes. -/
def contentWords (content : Nat → BitVec 8) (size : Nat) : List Nat :=
  (List.range ((size + 7) / 8)).map fun i =>
    LittleEndian.word (fun j => if 8 * i + j < size then (content (8 * i + j)).toNat else 0) 8

/-- One byte of the number that stands for a converted string. -/
def fakeByte (length offset : Nat) (a : ArgMap) (i : Nat) : ArgMap :=
  { localMap := a.localMap.insert (offset + i) a.inputArgs.length
    inputArgs := a.inputArgs ++ [(true, 0)]
    inputs := Function.update a.inputs (offset + i) ((a.inputs (offset + i)).or (some 0))
    shapes := Function.update a.shapes (offset + i) (some (if i = 0 then length else 0)) }

def atoiNode (label offset size : Nat) (s : Draft) : Option (AstNode × Draft) :=
  match s.args.localMap.find offset with
  | some _ => none
  | none =>
    let length := size / 8
    let args := (List.range length).foldl (fakeByte length offset) s.args
    let d := (((NodeData.fresh.setKind .read).setBits size).setLabel label).setIndex offset
    some (.leaf (d.setHash (readHash args offset length)), { s with args := args })

/-! ## Operators -/

variable (capacity : Nat) (draw : Nat → Draft → Option (AstNode × Draft))

/-- An operand of a common operation: its node, or a constant. `draw` is the recursive
call and `mark` tells which operand is to be concretized. -/
def operandNode (r : LabelInfo) (kind : AstKind)
    (mark side label const other : Nat) (s : Draft) : Option (AstNode × Draft) :=
  (s.addNode capacity).bind fun s =>
    if mark ≠ side ∧ 1 ≤ label then
      (draw label s).map fun (node, s) => (node, s.visit label)
    else if mark ≠ 0 ∧ isRelationalKind kind = false then none
    else
      (constantSize ctx r other).map fun size =>
        (constantNode size size s.args.inputArgs.length, { s with args := s.args.pushConst const })

def isUnary (op : Operator) : Bool :=
  match op with
  | .zext | .sext | .extract | .trunc => true
  | _ => false

/-- The node of a common operation without its hash. -/
def operatorData (label : Nat) (r : LabelInfo) (kind : AstKind) : NodeData :=
  ((NodeData.fresh.setKind kind).setBits r.size).setLabel label

/-- The operator of a comparison does not enter its hash. -/
def operatorHash (d : NodeData) (left right : AstNode) : UInt32 :=
  let kind := if isRelationalKind d.kind then kindCode .bool else kindCode d.kind
  xxhash left.data.hash ((kind <<< 16) ||| UInt32.ofNat d.bits) right.data.hash

def operatorNode (label : Nat) (r : LabelInfo) (s : Draft) : Option (AstNode × Draft) :=
  (opMap r.op).bind fun kind =>
    let d := operatorData label r kind
    let mark := ctx.concretize label
    (operandNode ctx capacity draw r kind mark 1 r.l1 r.op1 r.l2 s).bind fun (left, s) =>
      if isUnary r.op then
        let d := d.setHash (xxhash (UInt32.ofNat r.size) (kindCode kind) left.data.hash)
        some (.node1 (d.setIndex (if r.op = .extract then r.op2 else 0)) left, s)
      else
        (operandNode ctx capacity draw r kind mark 2 r.l2 r.op2 r.l1 s).map fun (right, s) =>
          (.node2 (d.setHash (operatorHash d left right)) left right, s)

/-- A memory comparison; the concrete side, if there is one, is the left one. -/
def memcmpNode (label : Nat) (r : LabelInfo) (s : Draft) : Option (AstNode × Draft) :=
  (s.addNode capacity).bind fun s =>
    let left :=
      if 1 ≤ r.l1 then (draw r.l1 s).map fun (node, s) => (node, s.visit r.l1)
      else (ctx.memcmp label).map fun content =>
        (constantNode (r.size * 8) r.size s.args.inputArgs.length,
          { s with args := (contentWords content r.size).foldl ArgMap.pushConst s.args })
    left.bind fun (left, s) =>
      (s.addNode capacity).bind fun s =>
        (draw r.l2 s).map fun (right, s) =>
          let d := ((NodeData.fresh.setKind .memcmp).setBits 1).setLabel label
          (.node2 (d.setHash (xxhash left.data.hash (kindCode .memcmp) right.data.hash)) left right,
            s.visit r.l2)

/-! ## Labels -/

/-- `do_uta_rel`; no result also stands for an exception. -/
def doUtaRel (ctx : Context) (capacity : Nat) : Nat → Nat → Draft → Option (AstNode × Draft)
  | 0, _, _ => none
  | fuel + 1, label, s =>
    if label < 1 ∨ label = kInitializingLabel then none
    else
      (ctx.parser.getLabelInfo label).bind fun r =>
        if label ∈ s.visited then some (visitedNode label r.size, s)
        else
          match r.op with
          | .input => some (readNode ctx label (r.op2 % 2 ^ 32) (r.op1 % 2 ^ 32) 1 s)
          | .load =>
            (ctx.parser.getLabelInfo r.l1).map fun first =>
              readNode ctx label (first.op2 % 2 ^ 32) (first.op1 % 2 ^ 32) r.l2 s
          | .fmemcmp => memcmpNode ctx capacity (doUtaRel ctx capacity fuel) label r s
          | .fatoi =>
            if r.l1 ≠ 0 ∨ r.l2 < 1 then none
            else
              (ctx.parser.getLabelInfo r.l2).bind fun src =>
                if src.op ≠ .load then none
                else
                  (ctx.parser.getLabelInfo src.l1).bind fun first =>
                    atoiNode label (first.op1 % 2 ^ 32) r.size (s.visit r.l2)
          | .fsize => none
          | _ => operatorNode ctx capacity (doUtaRel ctx capacity fuel) label r s

/-- `parse_constraint`; the size of the AST has been recorded by `scan_labels`. -/
def parseConstraint (astSize : List Nat) (fuel label : Nat) : Option Constraint :=
  (ctx.parser.getLabelInfo label).bind fun r =>
    if isCmp r.op = false then none
    else
      match astSize[label]? with
      | none => none
      | some size =>
        if size = 0 then none
        else
          (doUtaRel ctx (size + 1) fuel label ⟨.empty, [], 1⟩).map fun (ast, s) => ⟨ast, s.args⟩

/-- A parser over a table, without contents of memory comparisons and without marks. -/
def plainContext (info : Nat → LabelInfo) (inputSizes : List Nat) : Context :=
  ⟨⟨info, 1000, 100, 200, inputSizes⟩, fun _ _ => 0, fun _ => none, fun _ => 0⟩

end UtaRel
