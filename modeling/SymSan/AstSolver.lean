import Mathlib.Logic.Function.Basic
import SymSan.BitTerms
import SymSan.RgdAst

/-!
# `Z3Solver::serialize`

The solver turns the AST of a constraint into a Z3 expression. Input bytes are the
constants named by their offset; the expression of a node with a label is kept, and
a later node with the label takes it from there. No result stands for an exception.
An operator of the C++ interface that does not know the sorts of its arguments makes
a null expression; every use of it fails, and so does the operator here.
-/

namespace AstSolver

open RgdAst BitTerms

abbrev ExprCache : Type := Nat → Option (Expr Nat)

/-- `cache_expr`: an expression that is there stays. -/
def cacheExpr (label : Nat) (e : Expr Nat) (cache : ExprCache) : Expr Nat × ExprCache :=
  (e, if label = 0 then cache else Function.update cache label ((cache label).or (some e)))

/-- The words of a constant above the first one, each concatenated in front. -/
def wideConstant (args : List (Bool × Nat)) (index : Nat) (out : Expr Nat) :
    List (Nat × Nat) → Option (Expr Nat)
  | [] => some out
  | (i, bits) :: rest =>
    (args[index + i]?).bind fun arg =>
    (Expr.num arg.2 bits).bind fun word =>
    (word.concat out).bind fun out => wideConstant args index out rest

/-- The words above the first: their position and width. -/
def upperWords (bits : Nat) : List (Nat × Nat) :=
  (List.range' 1 (bits / 64 - 1)).map (·, 64) ++
    (if bits % 64 = 0 then [] else [(bits / 64, bits % 64)])

def constant (args : List (Bool × Nat)) (d : NodeData) : Option (Expr Nat) :=
  (args[d.index]?).bind fun arg =>
    if d.bits = 1 then some (Expr.truth (decide (arg.2 = 1)))
    else if d.bits ≤ 64 then Expr.num arg.2 d.bits
    else (Expr.num arg.2 64).bind fun out => wideConstant args d.index out (upperWords d.bits)

/-- The bytes of a read up to byte `n`. -/
def readBytes (index : Nat) : Nat → Option (Expr Nat)
  | 0 => some (Expr.const index 8)
  | n + 1 => (readBytes index n).bind fun out => (Expr.const (index + (n + 1)) 8).concat out

/-- A boolean is made one bit. -/
def asBits (e : Expr Nat) : Option (Expr Nat) :=
  match e.sort with
  | .bool => (Expr.num 1 1).bind fun one => (Expr.num 0 1).bind fun zero => e.ite one zero
  | .bv _ => some e

/-- Bits are added for the difference of the two nodes. -/
def extension (bits childBits : Nat) (e : Expr Nat) : Option Nat :=
  if childBits ≤ bits then some (e.width + (bits - childBits)) else none

/-- Operators with one operand; `childBits` is the width of the node below. -/
def unary (d : NodeData) (childBits : Nat) (e : Expr Nat) : Option (Expr Nat) :=
  match d.kind with
  | .extract => e.extract ((d.index + d.bits + 2 ^ 32 - 1) % 2 ^ 32) d.index
  | .zext => (asBits e).bind fun e => (extension d.bits childBits e).bind fun long => e.zext long
  | .sext => (extension d.bits childBits e).bind fun long => e.sext long
  | .neg => e.neg
  | .not => e.bnot
  | _ => none

/-- `operator&`, `|`, `^`: logical on two booleans, bitwise otherwise. -/
def bitwise (logic : Logic) (op : Arith) (a b : Expr Nat) : Option (Expr Nat) :=
  match a.sort, b.sort with
  | .bool, .bool => a.logic logic b
  | _, _ => a.arith op b

def binary (kind : AstKind) (a b : Expr Nat) : Option (Expr Nat) :=
  match kind with
  | .concat => b.concat a
  | .add => a.arith .add b
  | .sub => a.arith .sub b
  | .mul => a.arith .mul b
  | .udiv => a.arith .udiv b
  | .sdiv => a.arith .sdiv b
  | .urem => a.arith .urem b
  | .srem => a.arith .srem b
  | .and => bitwise .and .and a b
  | .or => bitwise .or .or a b
  | .xor => bitwise .xor .xor a b
  | .shl => a.arith .shl b
  | .lshr => a.arith .lshr b
  | .ashr => a.arith .ashr b
  | _ => none

/-- The expression of a label that has one. -/
def cached (d : NodeData) (cache : ExprCache) (make : Option (Expr Nat × ExprCache)) :
    Option (Expr Nat × ExprCache) :=
  match if d.label = 0 then none else cache d.label with
  | some e => some (e, cache)
  | none => make

/-- Nodes without operands; booleans and constants are not kept. -/
def nullary (args : List (Bool × Nat)) (d : NodeData) (cache : ExprCache) :
    Option (Expr Nat × ExprCache) :=
  match d.kind with
  | .bool => some (Expr.truth (d.boolvalue != 0), cache)
  | .constant => (constant args d).map (·, cache)
  | .read => (readBytes d.index (d.bits / 8 - 1)).map fun e => cacheExpr d.label e cache
  | _ => none

def isUnaryKind : AstKind → Bool
  | .extract | .zext | .sext | .neg | .not => true
  | _ => false

def isNullaryKind : AstKind → Bool
  | .bool | .constant | .read => true
  | _ => false

/-- The expression of a child that does not exist, which is the dummy node. -/
def dummy : Expr Nat := Expr.truth false

def serialize (args : List (Bool × Nat)) : AstNode → ExprCache → Option (Expr Nat × ExprCache)
  | .leaf d, cache =>
    cached d cache <|
      if isNullaryKind d.kind then nullary args d cache
      else if isUnaryKind d.kind then (unary d 0 dummy).map fun e => cacheExpr d.label e cache
      else (binary d.kind dummy dummy).map fun e => cacheExpr d.label e cache
  | .node1 d a, cache =>
    cached d cache <|
      if isNullaryKind d.kind then nullary args d cache
      else
        (serialize args a cache).bind fun (x, cache) =>
        if isUnaryKind d.kind then (unary d a.data.bits x).map fun e => cacheExpr d.label e cache
        else (binary d.kind x dummy).map fun e => cacheExpr d.label e cache
  | .node2 d a b, cache =>
    cached d cache <|
      if isNullaryKind d.kind then nullary args d cache
      else
        (serialize args a cache).bind fun (x, cache) =>
        if isUnaryKind d.kind then (unary d a.data.bits x).map fun e => cacheExpr d.label e cache
        else
          (serialize args b cache).bind fun (y, cache) =>
          (binary d.kind x y).map fun e => cacheExpr d.label e cache

def compareExprs (comparison : AstKind) (a b : Expr Nat) : Option (Expr Nat) :=
  match comparison with
  | .equal | .memcmp => a.equal b
  | .distinct | .memcmpN => a.distinct b
  | .ult => a.order .ult b
  | .ule => a.order .ule b
  | .ugt => a.order .ugt b
  | .uge => a.order .uge b
  | .slt => a.order .slt b
  | .sle => a.order .sle b
  | .sgt => a.order .sgt b
  | .sge => a.order .sge b
  | _ => none

def serializeRel (comparison : AstKind) (node : AstNode) (args : List (Bool × Nat))
    (cache : ExprCache) : Option (Expr Nat × ExprCache) :=
  match node with
  | .node2 _ a b =>
    (serialize args a cache).bind fun (x, cache) =>
    (serialize args b cache).bind fun (y, cache) =>
    (compareExprs comparison x y).map (·, cache)
  | _ => none

end AstSolver
