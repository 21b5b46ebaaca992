import SymSan.LabelTable

/-!
# The AST of the RGD front end

`rgd::AstNode` as a value. A node has at most two children; the arena that holds
the nodes of a tree only matters for its capacity and for its entry 0, the dummy
root, which is what the child accessor returns for a child that does not exist.
Copying a node over another one of the same tree moves the whole subtree.
-/

namespace RgdAst

open LabelTable

inductive AstKind where
  | bool | constant | read | concat | extract
  | zext | sext
  | add | sub | mul | udiv | sdiv | urem | srem | neg
  | not | and | or | xor | shl | lshr | ashr
  | equal | distinct | ult | ule | ugt | uge | slt | sle | sgt | sge
  | lor | land | lnot
  | ite | load | memcmp | memcmpN
  deriving DecidableEq, Repr

def isRelationalKind : AstKind → Bool
  | .equal | .distinct | .ult | .ule | .ugt | .uge | .slt | .sle | .sgt | .sge => true
  | _ => false

def negateCmp : AstKind → AstKind
  | .equal => .distinct
  | .distinct => .equal
  | .ult => .uge
  | .ule => .ugt
  | .ugt => .ule
  | .uge => .ult
  | .slt => .sge
  | .sle => .sgt
  | .sgt => .sle
  | .sge => .slt
  | _ => .bool

def opMap : Operator → Option AstKind
  | .extract => some .extract
  | .trunc => some .extract
  | .concat => some .concat
  | .zext => some .zext
  | .sext => some .sext
  | .add => some .add
  | .sub => some .sub
  | .mul => some .mul
  | .udiv => some .udiv
  | .sdiv => some .sdiv
  | .urem => some .urem
  | .srem => some .srem
  | .shl => some .shl
  | .lshr => some .lshr
  | .ashr => some .ashr
  | .and => some .and
  | .or => some .or
  | .xor => some .xor
  | .icmp .bveq => some .equal
  | .icmp .bvneq => some .distinct
  | .icmp .bvugt => some .ugt
  | .icmp .bvuge => some .uge
  | .icmp .bvult => some .ult
  | .icmp .bvule => some .ule
  | .icmp .bvsgt => some .sgt
  | .icmp .bvsge => some .sge
  | .icmp .bvslt => some .slt
  | .icmp .bvsle => some .sle
  | _ => none

/-- The predicate that a relational kind stands for. -/
def predicateOf : AstKind → Option Predicate
  | .equal => some .bveq
  | .distinct => some .bvneq
  | .ugt => some .bvugt
  | .uge => some .bvuge
  | .ult => some .bvult
  | .ule => some .bvule
  | .sgt => some .bvsgt
  | .sge => some .bvsge
  | .slt => some .bvslt
  | .sle => some .bvsle
  | _ => none

lemma predicateOf_opMap {q : Predicate} {k : AstKind} (h : opMap (.icmp q) = some k) :
    predicateOf k = some q ∧ isRelationalKind k = true := by
  cases q <;> cases h <;> exact ⟨rfl, rfl⟩

lemma isRelationalKind_iff {k : AstKind} :
    isRelationalKind k = true ↔ ∃ q, predicateOf k = some q := by
  cases k <;> simp [isRelationalKind, predicateOf]

/-- The fields of a node besides its children. -/
structure NodeData where
  kind : AstKind
  bits : Nat
  index : Nat
  boolvalue : Nat
  label : Nat
  hash : UInt32
  deriving DecidableEq, Repr

namespace NodeData

/-- A node as the constructor leaves it. -/
def fresh : NodeData := ⟨.bool, 0, 0, 0, 0, 0⟩

def setKind (d : NodeData) (kind : AstKind) : NodeData := { d with kind := kind }

def setBits (d : NodeData) (bits : Nat) : NodeData := { d with bits := bits % 2 ^ 16 }

def setIndex (d : NodeData) (index : Nat) : NodeData := { d with index := index % 2 ^ 30 }

/-- `set_boolvalue` takes 8 bits. -/
def setBoolvalue (d : NodeData) (value : Nat) : NodeData :=
  { d with boolvalue := if value % 256 ≠ 0 then 0 else 1 }

def setLabel (d : NodeData) (label : Nat) : NodeData := { d with label := label }

def setHash (d : NodeData) (hash : UInt32) : NodeData := { d with hash := hash }

end NodeData

inductive AstNode where
  | leaf (d : NodeData)
  | node1 (d : NodeData) (c0 : AstNode)
  | node2 (d : NodeData) (c0 c1 : AstNode)
  deriving DecidableEq, Repr

namespace AstNode

/-- A new node, and also the dummy root. -/
def fresh : AstNode := .leaf .fresh

def data : AstNode → NodeData
  | .leaf d => d
  | .node1 d _ => d
  | .node2 d _ _ => d

def update (f : NodeData → NodeData) : AstNode → AstNode
  | .leaf d => .leaf (f d)
  | .node1 d a => .node1 (f d) a
  | .node2 d a b => .node2 (f d) a b

def kind (n : AstNode) : AstKind := n.data.kind

def childrenSize : AstNode → Nat
  | .leaf _ => 0
  | .node1 _ _ => 1
  | .node2 _ _ _ => 2

/-- `mutable_children(i)` for `i` below 2. -/
def child (n : AstNode) (i : Nat) : AstNode :=
  match n with
  | .leaf _ => fresh
  | .node1 _ a => if i = 0 then a else fresh
  | .node2 _ a b => if i = 0 then a else b

/-- The node with one child more, which is new; there are at most two. -/
def addChild : AstNode → Option AstNode
  | .leaf d => some (.node1 d fresh)
  | .node1 d a => some (.node2 d a fresh)
  | .node2 _ _ _ => none

/-- Write the child that was added last. -/
def setLast (n t : AstNode) : AstNode :=
  match n with
  | .leaf d => .leaf d
  | .node1 d _ => .node1 d t
  | .node2 d a _ => .node2 d a t

/-- A node becomes a boolean constant without children. -/
def setBool (n : AstNode) (value : Nat) : AstNode :=
  .leaf ((n.data.setKind .bool).setBoolvalue value)

end AstNode

/-- The kinds of the leaves of a formula. -/
def isAtomKind (k : AstKind) : Bool := isRelationalKind k || decide (k = .memcmp)

/-- The data of a leaf: one of the given kinds and a label with the property `R`. -/
def Labelled (kinds : AstKind → Bool) (R : Nat → Prop) (d : NodeData) : Prop :=
  kinds d.kind = true ∧ R d.label

/-- A tree of logical connectives over the leaves that `atom` admits; exclusive or is
only admitted if `exclusive` holds. -/
inductive Formula (atom : NodeData → Prop) (exclusive : Prop) : AstNode → Prop where
  | leaf {d : NodeData} (admitted : atom d) : Formula atom exclusive (.leaf d)
  | lnot {d : NodeData} {a : AstNode} (kind : d.kind = .lnot) (arg : Formula atom exclusive a) :
      Formula atom exclusive (.node1 d a)
  | land {d : NodeData} {a b : AstNode} (kind : d.kind = .land)
      (left : Formula atom exclusive a) (right : Formula atom exclusive b) :
      Formula atom exclusive (.node2 d a b)
  | lor {d : NodeData} {a b : AstNode} (kind : d.kind = .lor)
      (left : Formula atom exclusive a) (right : Formula atom exclusive b) :
      Formula atom exclusive (.node2 d a b)
  | xor {d : NodeData} {a b : AstNode} (kind : d.kind = .xor) (allowed : exclusive)
      (left : Formula atom exclusive a) (right : Formula atom exclusive b) :
      Formula atom exclusive (.node2 d a b)

end RgdAst
