import SymSan.BitTerms
import SymSan.TypedLabels

/-!
# `Z3AstParser::serialize`

The parser turns labels into Z3 expressions by one scan of the union table that
fills a cache of expressions and a cache of input dependencies side by side. An
exception leaves the caches as they are at that point, which is one dependency
set more than there are expressions. The caches of tree sizes and of concrete
values are left out: nothing that is returned depends on them. The table is the
one the runtime shares with the parser; a label that has been written does not
change any more.
-/

namespace Z3Parser

open LabelTable BitTerms

/-- Symbols: `input-%u-%u`, `fsize` and `atoi-%u-%u-%d`. -/
inductive Name where
  | input (id offset : Nat)
  | fsize
  | atoi (id offset base : Nat)
  deriving DecidableEq, Repr

abbrev Deps := Finset (Nat × Nat)

/-- A computation that collects dependencies and can throw; what was collected
before the exception stays. -/
def Build (α : Type) : Type := Deps → Option α × Deps

namespace Build

variable {α β : Type} {d d' : Deps} {b : α}

def pure (a : α) : Build α := fun d => (some a, d)

def bind (x : Build α) (f : α → Build β) : Build β := fun d =>
  match x d with
  | (some a, d') => f a d'
  | (none, d') => (none, d')

instance : Monad Build where
  pure := Build.pure
  bind := Build.bind

def throw : Build α := fun d => (none, d)

def lift (x : Option α) : Build α := fun d => (x, d)

def insert (ds : Deps) : Build Unit := fun d => (some (), d ∪ ds)

lemma bind_eq_some {x : Build α} {f : α → Build β} {b : β} :
    (x >>= f) d = (some b, d') ↔ ∃ a d1, x d = (some a, d1) ∧ f a d1 = (some b, d') := by
  change Build.bind x f d = _ ↔ _
  rw [Build.bind]
  rcases x d with ⟨_ | a, d1⟩
  · simp
  · simp

lemma pure_eq_some {a b : α} : (Pure.pure a : Build α) d = (some b, d') ↔ a = b ∧ d = d' := by
  change Build.pure a d = _ ↔ _
  simp [Build.pure]

lemma lift_eq_some {x : Option α} : lift x d = (some b, d') ↔ x = some b ∧ d = d' := by
  simp [lift]

lemma throw_ne_some : (throw : Build α) d ≠ (some b, d') := by
  simp [throw]

lemma insert_eq_some {ds : Deps} {u : Unit} : insert ds d = (some u, d') ↔ d ∪ ds = d' := by
  simp [insert]

end Build

open Build (lift)

/-! ## The operators of the C++ interface

An overloaded operator that does not know the sorts of its arguments returns the
null expression; the functions of the C interface report an error, which is
thrown. Here the outer option is the exception and the inner one the null. -/

abbrev Made := Option (Option (Expr Name))

/-- `operator+`, `-`, `*`, `/` -/
def overArith (op : Arith) (a b : Expr Name) : Made :=
  match a.sort, b.sort with
  | .bv _, .bv _ => (a.arith op b).map some
  | _, _ => some none

/-- `operator<`, `<=`, `>`, `>=` -/
def overOrder (op : Order) (a b : Expr Name) : Made :=
  match a.sort, b.sort with
  | .bv _, .bv _ => (a.order op b).map some
  | _, _ => some none

/-- Unary `operator-` -/
def overNeg (a : Expr Name) : Made :=
  match a.sort with
  | .bv _ => a.neg.map some
  | .bool => some none

/-- `operator&`, `|`, `^`: logical on two booleans, bitwise otherwise. -/
def overBits (logic : Logic) (op : Arith) (a b : Expr Name) : Made :=
  match a.sort, b.sort with
  | .bool, .bool => (a.logic logic b).map some
  | _, _ => (a.arith op b).map some

def getCmd (lhs rhs : Expr Name) : Predicate → Made
  | .bveq => (lhs.equal rhs).map some
  | .bvneq => (lhs.distinct rhs).map some
  | .bvugt => (lhs.order .ugt rhs).map some
  | .bvuge => (lhs.order .uge rhs).map some
  | .bvult => (lhs.order .ult rhs).map some
  | .bvule => (lhs.order .ule rhs).map some
  | .bvsgt => overOrder .sgt lhs rhs
  | .bvsge => overOrder .sge lhs rhs
  | .bvslt => overOrder .slt lhs rhs
  | .bvsle => overOrder .sle lhs rhs
  | .other _ => none

/-! ## One label -/

/-- What the translation reads besides the record: the table, its size, the
simplifier of the Z3 context. -/
structure Parser where
  info : Nat → LabelInfo
  size : Nat
  simplify : Simplifier Name

variable (p : Parser)

def Parser.getLabelInfo (l : Nat) : Option LabelInfo :=
  if p.size ≤ l then none else some (p.info l)

/-- The cached expression and dependencies of a label, if there are any. -/
abbrev Lookup := Nat → Option (Expr Name × Deps)

def getCachedExpr (look : Lookup) (l : Nat) : Build (Expr Name) :=
  match look l with
  | none => Build.throw
  | some (e, ds) => do
    Build.insert ds
    return e

/-- `context_.constant(symbol, bv_sort(size))` -/
def bvConst (x : Name) (size : Nat) : Option (Expr Name) :=
  if size = 0 then none else some (Expr.const x size)

/-- The bytes of a Load after the first one are concatenated in front. -/
def loadBytes (input offset : Nat) : Nat → Option (Expr Name)
  | 0 => some (Expr.const (.input input offset) 8)
  | n + 1 => (loadBytes input offset n).bind fun out =>
      (Expr.const (.input input ((offset + (n + 1)) % 2 ^ 32)) 8).concat out

def loadDeps (input offset n : Nat) : Deps :=
  (Finset.range (n + 1)).image fun i => (input, (offset + i) % 2 ^ 32)

/-- `read_concrete`: the counter is 8 bits wide, so a content of 256 bytes or
more is never read to its end. -/
def readConcrete (content : Option (Nat → BitVec 8)) (size : Nat) : Option (Expr Name) :=
  content.bind fun bytes =>
    if 256 ≤ size then none
    else (List.range (size - 1)).foldl
      (fun val i => val.bind fun v =>
        (Expr.num (bytes (i + 1)).toNat 8).bind fun b => b.concat v)
      (Expr.num (bytes 0).toNat 8)

/-- A boolean is made one bit. -/
def asBits (base : Expr Name) : Option (Expr Name) :=
  match base.sort with
  | .bool => (Expr.num 1 1).bind fun one => (Expr.num 0 1).bind fun zero => base.ite one zero
  | .bv _ => some base

/-- Repair of a size mismatch, for bit-vectors that are not concatenated. The
size of the operand is kept in 8 bits. -/
def fixSize (op : Operator) (size : Nat) (e : Expr Name) : Option (Expr Name) :=
  match e.sort with
  | .bool => some e
  | .bv w =>
    if op = .concat then some e
    else if size < w % 256 then e.extract (size - 1) 0
    else if w % 256 < size then e.zext (w + (size - w % 256))
    else some e

/-- An operand of a common operation: the cached expression, or the constant. -/
def operand (p : Parser) (look : Lookup) (r : LabelInfo) (label const size : Nat) :
    Build (Expr Name) := do
  let value ← lift (Expr.num const size)
  if 1 ≤ label then
    let e ← getCachedExpr look label
    lift (fixSize r.op size (p.simplify.run e))
  else if r.size = 1 then return Expr.truth (decide (const = 1))
  else return value

/-- The size of a constant operand, 8 bits wide; a Concat leaves the constant
what the size field of the other operand does not take. -/
def constSize (r : LabelInfo) (label other size : Nat) : Option Nat :=
  if r.op = .concat ∧ label = 0 then
    (p.getLabelInfo other).map fun o => (r.size + 2 ^ 16 - o.size) % 256
  else some size

/-- The switch over the common operations. -/
def common (r : LabelInfo) (op1 op2 : Expr Name) : Made :=
  match r.op with
  | .and => if r.size ≠ 1 then overBits .and .and op1 op2 else (op1.logic .and op2).map some
  | .or => if r.size ≠ 1 then overBits .or .or op1 op2 else (op1.logic .or op2).map some
  | .xor => overBits .xor .xor op1 op2
  | .shl => (op1.arith .shl op2).map some
  | .lshr => (op1.arith .lshr op2).map some
  | .ashr => (op1.arith .ashr op2).map some
  | .add => overArith .add op1 op2
  | .sub => overArith .sub op1 op2
  | .mul => overArith .mul op1 op2
  | .udiv => (op1.arith .udiv op2).map some
  | .sdiv => overArith .sdiv op1 op2
  | .urem => (op1.arith .urem op2).map some
  | .srem => (op1.arith .srem op2).map some
  | .icmp p => getCmd op1 op2 p
  | .concat => (op2.concat op1).map some
  | _ => none

/-- The body of the loop for label `l`: the expression to cache, or null. -/
def translate (look : Lookup) (content : Option (Nat → BitVec 8)) (l : Nat) :
    Build (Option (Expr Name)) := do
  let r ← lift (p.getLabelInfo l)
  match r.op with
  | .input =>
    Build.insert {(r.op2 % 2 ^ 32, r.op1 % 2 ^ 32)}
    return some (Expr.const (.input (r.op2 % 2 ^ 32) (r.op1 % 2 ^ 32)) 8)
  | .load =>
    let first ← lift (p.getLabelInfo r.l1)
    Build.insert (loadDeps (first.op2 % 2 ^ 32) (first.op1 % 2 ^ 32) (r.l2 - 1))
    lift ((loadBytes (first.op2 % 2 ^ 32) (first.op1 % 2 ^ 32) (r.l2 - 1)).map some)
  | .zext =>
    let base ← getCachedExpr look r.l1
    lift ((asBits base).bind fun bits => (bits.zext r.size).map some)
  | .sext =>
    let base ← getCachedExpr look r.l1
    lift ((base.sext r.size).map some)
  | .trunc =>
    let base ← getCachedExpr look r.l1
    lift ((base.extract ((r.size + 2 ^ 32 - 1) % 2 ^ 32) 0).map some)
  | .intToPtr =>
    let e ← getCachedExpr look r.l1
    return some e
  | .extract =>
    let base ← getCachedExpr look r.l1
    lift ((base.extract ((r.op2 + r.size + 2 ^ 32 - 1) % 2 ^ 32) (r.op2 % 2 ^ 32)).map some)
  | .not =>
    if r.l2 = 0 ∨ r.size ≠ 1 then Build.throw
    else
      let e ← getCachedExpr look r.l2
      lift (e.lnot.map some)
  | .neg =>
    if r.l2 = 0 then Build.throw
    else
      let e ← getCachedExpr look r.l2
      lift (overNeg e)
  | .fmemcmp =>
    let op1 ← if 1 ≤ r.l1 then getCachedExpr look r.l1
      else lift (readConcrete content r.size)
    if r.l2 < 1 then Build.throw
    else
      let op2 ← getCachedExpr look r.l2
      lift ((op1.equal op2).bind fun same => (Expr.num 0 32).bind fun zero =>
        (Expr.num 1 32).bind fun one => (same.ite zero one).map some)
  | .fsize =>
    let base ← lift (bvConst .fsize r.size)
    if r.op1 ≠ 0 then
      let offset ← lift (Expr.num r.op1 r.size)
      lift (overArith .sub base offset)
    else return some base
  | .fatoi =>
    let src ← lift (p.getLabelInfo r.l2)
    let first ← lift (p.getLabelInfo src.l1)
    lift ((bvConst (.atoi (first.op2 % 2 ^ 32) (first.op1 % 2 ^ 32) (r.op1 % 2 ^ 32))
      r.size).map some)
  | .alloca => return none
  | .free => return none
  | _ =>
    let size1 ← lift (constSize p r r.l1 r.l2 (r.size % 256))
    let op1 ← operand p look r r.l1 r.op1 size1
    let size2 ← lift (constSize p r r.l2 r.l1 size1)
    let op2 ← operand p look r r.l2 r.op2 size2
    lift (common r op1 op2)

/-! ## The scan -/

structure Caches where
  exprs : List (Option (Expr Name))
  deps : List Deps
  memcmp : Nat → Option (Nat → BitVec 8)

def Caches.restart : Caches := ⟨[none], [∅], fun _ => none⟩

def Caches.lookup (c : Caches) : Lookup := fun l =>
  (c.exprs.getD l none).map fun e => (e, c.deps.getD l ∅)

/-- `record_memcmp`: the first content recorded for a label stays. -/
def Caches.recordMemcmp (c : Caches) (l : Nat) (content : Nat → BitVec 8) : Caches :=
  { c with memcmp := fun k => if k = l ∧ c.memcmp k = none then some content else c.memcmp k }

/-- One round of the loop; false after an exception. -/
def scanStep (c : Caches) : Bool × Caches :=
  match translate p c.lookup (c.memcmp c.exprs.length) c.exprs.length ∅ with
  | (some e, d) => (true, { c with exprs := c.exprs ++ [e], deps := c.deps ++ [d] })
  | (none, d) => (false, { c with deps := c.deps ++ [d] })

def scanTo (p : Parser) : Nat → Caches → Bool × Caches
  | 0, c => (true, c)
  | k + 1, c =>
    match scanStep p c with
    | (true, c') => scanTo p k c'
    | (false, c') => (false, c')

def serialize (c : Caches) (label : Nat) (deps : Deps) : Option (Expr Name × Deps) × Caches :=
  if label < 1 ∨ label = kInitializingLabel then (none, c)
  else
    match scanTo p (label + 1 - c.exprs.length) c with
    | (false, c') => (none, c')
    | (true, c') =>
      match getCachedExpr c'.lookup label deps with
      | (some e, d) => (some (e, d), c')
      | (none, _) => (none, c')

end Z3Parser
