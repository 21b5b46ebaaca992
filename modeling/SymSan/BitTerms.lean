import Mathlib.Algebra.Order.Ring.Nat

/-!
# Sorted bit-vector terms

Terms over booleans and bit-vectors with the meaning SMT-LIB gives them, the
sort being part of a term's type. An expression is a term together with its
sort; the functions that combine expressions check the sorts as an untyped
interface does and refuse an application that has none. For each of them one
lemma says which sorts it accepts and what the value of the result is, as a
natural number, in terms of the values of the arguments.
-/

namespace BitTerms

inductive Srt where
  | bool
  | bv (w : Nat)
  deriving DecidableEq, Repr

def Srt.Val : Srt → Type
  | .bool => Bool
  | .bv w => BitVec w

/-- A boolean counts as one bit. -/
def Srt.width : Srt → Nat
  | .bool => 1
  | .bv w => w

def Srt.toNat : (s : Srt) → s.Val → Nat
  | .bool, b => Bool.toNat b
  | .bv _, v => BitVec.toNat v

lemma Srt.toNat_lt (s : Srt) (v : s.Val) : s.toNat v < 2 ^ s.width := by
  cases s with
  | bool => exact Bool.toNat_lt v
  | bv w => exact BitVec.isLt v

lemma Srt.toNat_injective (s : Srt) {v v' : s.Val} (same : s.toNat v = s.toNat v') : v = v' := by
  cases s with
  | bool =>
    cases v <;> cases v'
    · rfl
    · cases same
    · cases same
    · rfl
  | bv w => exact BitVec.eq_of_toNat_eq same

instance (s : Srt) : DecidableEq s.Val :=
  match s with
  | .bool => inferInstanceAs (DecidableEq Bool)
  | .bv w => inferInstanceAs (DecidableEq (BitVec w))

inductive Arith where
  | add | sub | mul | udiv | sdiv | urem | srem | shl | lshr | ashr | and | or | xor
  deriving DecidableEq, Repr

def Arith.eval {w : Nat} (op : Arith) (a b : BitVec w) : BitVec w :=
  match op with
  | .add => a + b
  | .sub => a - b
  | .mul => a * b
  | .udiv => a.smtUDiv b
  | .sdiv => a.smtSDiv b
  | .urem => a % b
  | .srem => a.srem b
  | .shl => a <<< b
  | .lshr => a >>> b
  | .ashr => a.sshiftRight' b
  | .and => a &&& b
  | .or => a ||| b
  | .xor => a ^^^ b

inductive Order where
  | ult | ule | ugt | uge | slt | sle | sgt | sge
  deriving DecidableEq, Repr

def Order.eval {w : Nat} (op : Order) (a b : BitVec w) : Bool :=
  match op with
  | .ult => a.ult b
  | .ule => a.ule b
  | .ugt => b.ult a
  | .uge => b.ule a
  | .slt => a.slt b
  | .sle => a.sle b
  | .sgt => b.slt a
  | .sge => b.sle a

inductive Logic where
  | and | or | xor
  deriving DecidableEq, Repr

def Logic.eval (op : Logic) (a b : Bool) : Bool :=
  match op with
  | .and => a && b
  | .or => a || b
  | .xor => a ^^ b

/-- Terms over constants named by `ν`. -/
inductive Term (ν : Type) : Srt → Type where
  | const (w : Nat) (x : ν) : Term ν (.bv w)
  | num (w v : Nat) : Term ν (.bv w)
  | truth (b : Bool) : Term ν .bool
  | arith {w : Nat} (op : Arith) (a b : Term ν (.bv w)) : Term ν (.bv w)
  | neg {w : Nat} (a : Term ν (.bv w)) : Term ν (.bv w)
  | bnot {w : Nat} (a : Term ν (.bv w)) : Term ν (.bv w)
  | order {w : Nat} (op : Order) (a b : Term ν (.bv w)) : Term ν .bool
  | equal {s : Srt} (a b : Term ν s) : Term ν .bool
  | logic (op : Logic) (a b : Term ν .bool) : Term ν .bool
  | lnot (a : Term ν .bool) : Term ν .bool
  | ite {s : Srt} (c : Term ν .bool) (a b : Term ν s) : Term ν s
  | extract {w : Nat} (lo len : Nat) (a : Term ν (.bv w)) : Term ν (.bv len)
  | concat {w w' : Nat} (hi : Term ν (.bv w)) (lo : Term ν (.bv w')) : Term ν (.bv (w + w'))
  | zext {w : Nat} (long : Nat) (a : Term ν (.bv w)) : Term ν (.bv long)
  | sext {w : Nat} (long : Nat) (a : Term ν (.bv w)) : Term ν (.bv long)

variable {ν : Type} {op : Arith} {hi lo : Nat}

def Term.eval (env : ν → Nat) {s : Srt} : Term ν s → s.Val
  | .const w x => BitVec.ofNat w (env x)
  | .num w v => BitVec.ofNat w v
  | .truth b => b
  | .arith op a b => op.eval (a.eval env) (b.eval env)
  | .neg a => BitVec.neg (a.eval env)
  | .bnot a => BitVec.not (a.eval env)
  | .order op a b => op.eval (a.eval env) (b.eval env)
  | .equal a b => decide (a.eval env = b.eval env)
  | .logic op a b => op.eval (a.eval env) (b.eval env)
  | .lnot a => Bool.not (a.eval env)
  | .ite c a b => bif (c.eval env : Bool) then a.eval env else b.eval env
  | .extract lo len a => BitVec.extractLsb' lo len (a.eval env)
  | .concat hi lo => BitVec.append (hi.eval env) (lo.eval env)
  | .zext long a => BitVec.setWidth long (a.eval env)
  | .sext long a => BitVec.signExtend long (a.eval env)

def Term.bits {w : Nat} (t : Term ν (.bv w)) (env : ν → Nat) : BitVec w := t.eval env

def Term.holds (t : Term ν .bool) (env : ν → Nat) : Bool := t.eval env

/-- A term with its sort. -/
structure Expr (ν : Type) where
  sort : Srt
  term : Term ν sort

namespace Expr

def value (env : ν → Nat) (e : Expr ν) : Nat := e.sort.toNat (e.term.eval env)

def width (e : Expr ν) : Nat := e.sort.width

lemma value_lt (env : ν → Nat) (e : Expr ν) : e.value env < 2 ^ e.width :=
  Srt.toNat_lt _ _

def const (x : ν) (w : Nat) : Expr ν := ⟨.bv w, .const w x⟩

/-- Numerals are reduced to their width, and no bit-vector has width zero. -/
def num (v w : Nat) : Option (Expr ν) := if w = 0 then none else some ⟨.bv w, .num w v⟩

def truth (b : Bool) : Expr ν := ⟨.bool, .truth b⟩

def arith (op : Arith) : Expr ν → Expr ν → Option (Expr ν)
  | ⟨.bv w, a⟩, ⟨.bv w', b⟩ =>
    if h : w' = w then some ⟨.bv w, .arith op a (h ▸ b)⟩ else none
  | _, _ => none

def neg : Expr ν → Option (Expr ν)
  | ⟨.bv w, a⟩ => some ⟨.bv w, .neg a⟩
  | _ => none

def bnot : Expr ν → Option (Expr ν)
  | ⟨.bv w, a⟩ => some ⟨.bv w, .bnot a⟩
  | _ => none

def order (op : Order) : Expr ν → Expr ν → Option (Expr ν)
  | ⟨.bv w, a⟩, ⟨.bv w', b⟩ =>
    if h : w' = w then some ⟨.bool, .order op a (h ▸ b)⟩ else none
  | _, _ => none

def equal (a b : Expr ν) : Option (Expr ν) :=
  if h : b.sort = a.sort then some ⟨.bool, .equal a.term (h ▸ b.term)⟩ else none

def lnot : Expr ν → Option (Expr ν)
  | ⟨.bool, a⟩ => some ⟨.bool, .lnot a⟩
  | _ => none

def distinct (a b : Expr ν) : Option (Expr ν) := (equal a b).bind lnot

def logic (op : Logic) : Expr ν → Expr ν → Option (Expr ν)
  | ⟨.bool, a⟩, ⟨.bool, b⟩ => some ⟨.bool, .logic op a b⟩
  | _, _ => none

def ite (c a b : Expr ν) : Option (Expr ν) :=
  match c with
  | ⟨.bool, t⟩ => if h : b.sort = a.sort then some ⟨a.sort, .ite t a.term (h ▸ b.term)⟩ else none
  | _ => none

/-- Bits `lo` to `hi`, both included. -/
def extract (hi lo : Nat) : Expr ν → Option (Expr ν)
  | ⟨.bv w, a⟩ =>
    if lo ≤ hi ∧ hi < w then some ⟨.bv (hi + 1 - lo), .extract lo (hi + 1 - lo) a⟩ else none
  | _ => none

def concat : Expr ν → Expr ν → Option (Expr ν)
  | ⟨.bv w, a⟩, ⟨.bv w', b⟩ => some ⟨.bv (w + w'), .concat a b⟩
  | _, _ => none

/-- Extension up to width `to`. -/
def zext (long : Nat) : Expr ν → Option (Expr ν)
  | ⟨.bv w, a⟩ => if w ≤ long then some ⟨.bv long, .zext long a⟩ else none
  | _ => none

def sext (long : Nat) : Expr ν → Option (Expr ν)
  | ⟨.bv w, a⟩ => if w ≤ long then some ⟨.bv long, .sext long a⟩ else none
  | _ => none

/-! ## Values of the combined expressions -/

section Values

variable {a b c e : Expr ν} {w : Nat} {long : Nat}

@[simp] lemma const_sort (x : ν) (w : Nat) : (const x w).sort = .bv w := rfl

@[simp] lemma const_value (x : ν) (w : Nat) (env : ν → Nat) :
    (const x w).value env = env x % 2 ^ w := by
  simp only [value, const, Srt.toNat, Term.eval, BitVec.toNat_ofNat]

lemma num_some {v : Nat} (h : num v w = some e) :
    0 < w ∧ e.sort = .bv w ∧ ∀ env, e.value env = v % 2 ^ w := by
  simp only [num] at h
  split at h
  · cases h
  · cases h
    refine ⟨by omega, rfl, fun env => ?_⟩
    simp [value, Srt.toNat, Term.eval]

variable (t : Term ν (.bv w))

lemma value_bv (env : ν → Nat) : value env ⟨.bv w, t⟩ = (t.bits env).toNat := rfl

lemma value_bool (t : Term ν .bool) (env : ν → Nat) :
    value env ⟨.bool, t⟩ = (t.holds env).toNat := rfl

lemma ofNat_value (env : ν → Nat) : BitVec.ofNat w (value env ⟨.bv w, t⟩) = t.bits env := by
  rw [value_bv, BitVec.ofNat_toNat, BitVec.setWidth_eq]

lemma arith_some (h : arith op a b = some e) :
    ∃ w, a.sort = .bv w ∧ b.sort = .bv w ∧ e.sort = .bv w ∧ ∀ env, e.value env =
      (op.eval (BitVec.ofNat w (a.value env)) (BitVec.ofNat w (b.value env))).toNat := by
  obtain ⟨_ | w, t⟩ := a
  · cases h
  obtain ⟨_ | _, _⟩ := b
  · cases h
  obtain ⟨rfl, ⟨⟩⟩ := Option.dite_none_right_eq_some.mp h
  refine ⟨_, rfl, rfl, rfl, fun env => ?_⟩
  rw [ofNat_value, ofNat_value]
  rfl

lemma order_some {op : Order} (h : order op a b = some e) :
    ∃ w, a.sort = .bv w ∧ b.sort = .bv w ∧ e.sort = .bool ∧ ∀ env, e.value env =
      (op.eval (BitVec.ofNat w (a.value env)) (BitVec.ofNat w (b.value env))).toNat := by
  obtain ⟨_ | w, t⟩ := a
  · cases h
  obtain ⟨_ | _, _⟩ := b
  · cases h
  obtain ⟨rfl, ⟨⟩⟩ := Option.dite_none_right_eq_some.mp h
  refine ⟨_, rfl, rfl, rfl, fun env => ?_⟩
  rw [ofNat_value, ofNat_value]
  rfl

lemma equal_some (h : equal a b = some e) :
    b.sort = a.sort ∧ e.sort = .bool ∧
      ∀ env, e.value env = (decide (a.value env = b.value env)).toNat := by
  obtain ⟨s, t⟩ := a
  simp only [equal] at h
  obtain ⟨rfl, ⟨⟩⟩ := Option.dite_none_right_eq_some.mp h
  refine ⟨rfl, rfl, fun env => ?_⟩
  rw [value_bool]
  congr 1
  refine decide_eq_decide.mpr ⟨fun eq => ?_, Srt.toNat_injective _⟩
  simp only [value, eq]

lemma lnot_some (h : lnot a = some e) :
    a.sort = .bool ∧ e.sort = .bool ∧ ∀ env, e.value env = 1 - a.value env := by
  obtain ⟨s, t⟩ := a
  cases s with
  | bv w => cases h
  | bool =>
    cases h
    refine ⟨rfl, rfl, fun env => ?_⟩
    change (!t.holds env).toNat = 1 - (t.holds env).toNat
    cases t.holds env <;> rfl

lemma distinct_some (h : distinct a b = some e) :
    b.sort = a.sort ∧ e.sort = .bool ∧
      ∀ env, e.value env = (decide (a.value env ≠ b.value env)).toNat := by
  obtain ⟨d, equal, negated⟩ := Option.bind_eq_some_iff.mp h
  obtain ⟨same, _, value⟩ := equal_some equal
  obtain ⟨_, sort, value'⟩ := lnot_some negated
  refine ⟨same, sort, fun env => ?_⟩
  rw [value' env, value env]
  by_cases eq : a.value env = b.value env <;> simp [eq]

lemma logic_some {op : Logic} (h : logic op a b = some e) :
    a.sort = .bool ∧ b.sort = .bool ∧ e.sort = .bool ∧ ∀ env, e.value env =
      (op.eval (a.value env == 1) (b.value env == 1)).toNat := by
  obtain ⟨s, t⟩ := a
  obtain ⟨s', t'⟩ := b
  cases s with
  | bv w => cases h
  | bool =>
    cases s' with
    | bv w => cases h
    | bool =>
      cases h
      refine ⟨rfl, rfl, rfl, fun env => ?_⟩
      rw [value_bool, value_bool, value_bool]
      change (op.eval (t.holds env) (t'.holds env)).toNat = _
      cases t.holds env <;> cases t'.holds env <;> rfl

lemma ite_some (h : ite c a b = some e) :
    c.sort = .bool ∧ b.sort = a.sort ∧ e.sort = a.sort ∧
      ∀ env, e.value env = if c.value env = 1 then a.value env else b.value env := by
  obtain ⟨_ | w, t⟩ := c
  · obtain ⟨_, _⟩ := a
    obtain ⟨_, _⟩ := b
    simp only [ite] at h
    obtain ⟨rfl, ⟨⟩⟩ := Option.dite_none_right_eq_some.mp h
    refine ⟨rfl, rfl, rfl, fun env => ?_⟩
    rw [value_bool]
    change Srt.toNat _ (bif t.holds env then _ else _) = _
    cases t.holds env <;> rfl
  · cases h

lemma extract_some (h : extract hi lo a = some e) :
    ∃ w, a.sort = .bv w ∧ lo ≤ hi ∧ hi < w ∧ e.sort = .bv (hi + 1 - lo) ∧
      ∀ env, e.value env = a.value env / 2 ^ lo % 2 ^ (hi + 1 - lo) := by
  obtain ⟨_ | w, t⟩ := a
  · cases h
  obtain ⟨range, ⟨⟩⟩ := Option.ite_none_right_eq_some.mp h
  refine ⟨w, rfl, range.1, range.2, rfl, fun env => ?_⟩
  rw [value_bv, value_bv, ← Nat.shiftRight_eq_div_pow]
  rfl

lemma concat_some (h : concat a b = some e) :
    ∃ w w', a.sort = .bv w ∧ b.sort = .bv w' ∧ e.sort = .bv (w + w') ∧
      ∀ env, e.value env = b.value env + a.value env * 2 ^ w' := by
  obtain ⟨_ | w, t⟩ := a
  · cases h
  obtain ⟨_ | w', t'⟩ := b
  · cases h
  cases h
  refine ⟨w, w', rfl, rfl, rfl, fun env => ?_⟩
  rw [value_bv, value_bv, value_bv]
  change (t.bits env ++ t'.bits env).toNat = _
  rw [BitVec.toNat_append, ← Nat.shiftLeft_add_eq_or_of_lt (t'.bits env).isLt,
    Nat.shiftLeft_eq, Nat.add_comm]

lemma zext_some (h : zext long a = some e) :
    ∃ w, a.sort = .bv w ∧ w ≤ long ∧ e.sort = .bv long ∧ ∀ env, e.value env = a.value env := by
  obtain ⟨_ | w, t⟩ := a
  · cases h
  obtain ⟨le, ⟨⟩⟩ := Option.ite_none_right_eq_some.mp h
  refine ⟨w, rfl, le, rfl, fun env => ?_⟩
  have small : (t.bits env).toNat < 2 ^ long :=
    Nat.lt_of_lt_of_le (t.bits env).isLt (Nat.pow_le_pow_right (by decide) le)
  change ((t.bits env).setWidth long).toNat = _
  rw [BitVec.toNat_setWidth]
  exact Nat.mod_eq_of_lt small

lemma sext_some (h : sext long a = some e) :
    ∃ w, a.sort = .bv w ∧ w ≤ long ∧ e.sort = .bv long ∧ ∀ env, e.value env =
      ((BitVec.ofNat w (a.value env)).signExtend long).toNat := by
  obtain ⟨_ | w, t⟩ := a
  · cases h
  obtain ⟨le, ⟨⟩⟩ := Option.ite_none_right_eq_some.mp h
  refine ⟨w, rfl, le, rfl, fun env => ?_⟩
  rw [ofNat_value]
  rfl

end Values

end Expr

/-! ## Equality -/

section Same

variable [DecidableEq ν]

/-- Structural equality, also between terms of different sorts. -/
def Term.same {s s' : Srt} : Term ν s → Term ν s' → Bool
  | .const w x, b => match b with
    | .const w' x' => decide (w = w' ∧ x = x')
    | _ => false
  | .num w v, b => match b with
    | .num w' v' => decide (w = w' ∧ v = v')
    | _ => false
  | .truth t, b => match b with
    | .truth t' => decide (t = t')
    | _ => false
  | .arith op x y, b => match b with
    | .arith op' x' y' => decide (op = op') && x.same x' && y.same y'
    | _ => false
  | .neg x, b => match b with
    | .neg x' => x.same x'
    | _ => false
  | .bnot x, b => match b with
    | .bnot x' => x.same x'
    | _ => false
  | .order op x y, b => match b with
    | .order op' x' y' => decide (op = op') && x.same x' && y.same y'
    | _ => false
  | .equal x y, b => match b with
    | .equal x' y' => x.same x' && y.same y'
    | _ => false
  | .logic op x y, b => match b with
    | .logic op' x' y' => decide (op = op') && x.same x' && y.same y'
    | _ => false
  | .lnot x, b => match b with
    | .lnot x' => x.same x'
    | _ => false
  | .ite c x y, b => match b with
    | .ite c' x' y' => c.same c' && x.same x' && y.same y'
    | _ => false
  | .extract lo len x, b => match b with
    | .extract lo' len' x' => decide (lo = lo' ∧ len = len') && x.same x'
    | _ => false
  | .concat x y, b => match b with
    | .concat x' y' => x.same x' && y.same y'
    | _ => false
  | .zext n x, b => match b with
    | .zext n' x' => decide (n = n') && x.same x'
    | _ => false
  | .sext n x, b => match b with
    | .sext n' x' => decide (n = n') && x.same x'
    | _ => false

lemma Term.same_refl {s : Srt} (a : Term ν s) : a.same a = true := by
  have both {x y : Bool} (left : x = true) (right : y = true) : (x && y) = true :=
    Bool.and_eq_true_iff.mpr ⟨left, right⟩
  induction a with
  | const w x | num w x => exact decide_eq_true ⟨rfl, rfl⟩
  | truth t => exact decide_eq_true rfl
  | neg x ih | bnot x ih | lnot x ih => exact ih
  | arith op x y ih ih' | order op x y ih ih' | logic op x y ih ih' =>
    exact both (both (decide_eq_true rfl) ih) ih'
  | equal x y ih ih' | concat x y ih ih' => exact both ih ih'
  | ite c x y ihc ih ih' => exact both (both ihc ih) ih'
  | extract lo len x ih => exact both (decide_eq_true ⟨rfl, rfl⟩) ih
  | zext n x ih | sext n x ih => exact both (decide_eq_true rfl) ih

lemma Term.eq_of_same {s s' : Srt} (a : Term ν s) (b : Term ν s') (h : a.same b = true) :
    (⟨s, a⟩ : Expr ν) = ⟨s', b⟩ := by
  induction a generalizing s' with
  | const w x | num w x =>
    cases b with
    | const w' x' | num w' x' =>
      first
      | cases h
      | obtain ⟨rfl, rfl⟩ := of_decide_eq_true h
        rfl
    | _ => cases h
  | truth t =>
    cases b with
    | truth t' =>
      obtain rfl := of_decide_eq_true h
      rfl
    | _ => cases h
  | neg x ih | bnot x ih | lnot x ih =>
    cases b with
    | neg x' | bnot x' | lnot x' =>
      first
      | cases h
      | cases ih x' h
        rfl
    | _ => cases h
  | arith op x y ih ih' | order op x y ih ih' | logic op x y ih ih' =>
    cases b with
    | arith op' x' y' | order op' x' y' | logic op' x' y' =>
      first
      | cases h
      | obtain ⟨first, right⟩ := Bool.and_eq_true_iff.mp h
        obtain ⟨same, left⟩ := Bool.and_eq_true_iff.mp first
        obtain rfl := of_decide_eq_true same
        cases ih x' left
        cases ih' y' right
        rfl
    | _ => cases h
  | equal x y ih ih' | concat x y ih ih' =>
    cases b with
    | equal x' y' | concat x' y' =>
      first
      | cases h
      | obtain ⟨left, right⟩ := Bool.and_eq_true_iff.mp h
        cases ih x' left
        cases ih' y' right
        rfl
    | _ => cases h
  | ite c x y ihc ih ih' =>
    cases b with
    | ite c' x' y' =>
      obtain ⟨first, right⟩ := Bool.and_eq_true_iff.mp h
      obtain ⟨cond, left⟩ := Bool.and_eq_true_iff.mp first
      cases ihc c' cond
      cases ih x' left
      cases ih' y' right
      rfl
    | _ => cases h
  | extract lo len x ih =>
    cases b with
    | extract lo' len' x' =>
      obtain ⟨same, inner⟩ := Bool.and_eq_true_iff.mp h
      obtain ⟨rfl, rfl⟩ := of_decide_eq_true same
      cases ih x' inner
      rfl
    | _ => cases h
  | zext n x ih | sext n x ih =>
    cases b with
    | zext n' x' | sext n' x' =>
      first
      | cases h
      | obtain ⟨same, inner⟩ := Bool.and_eq_true_iff.mp h
        obtain rfl := of_decide_eq_true same
        cases ih x' inner
        rfl
    | _ => cases h

instance : DecidableEq (Expr ν) := fun a b =>
  decidable_of_iff (a.term.same b.term = true)
    ⟨Term.eq_of_same a.term b.term, fun same => by rw [same]; exact b.term.same_refl⟩

end Same

/-! ## Meaning over a family of environments -/

/-- In every environment of the family the expression has the given width and value. -/
structure Means {ι : Type} (env : ι → ν → Nat) (w : Nat) (v : ι → Nat) (e : Expr ν) : Prop where
  wide : e.width = w
  value : ∀ i, e.value (env i) = v i

namespace Means

open BitTerms.Expr

variable {ι : Type} {env : ι → ν → Nat} {w w' long n : Nat} {v v' : ι → Nat} {a b e : Expr ν}

lemma lt (m : Means env w v e) (i : ι) : v i < 2 ^ w := by
  rw [← m.value, ← m.wide]
  exact value_lt _ _

lemma bv_width (m : Means env w v e) (sort : e.sort = .bv n) : n = w := by
  have wide := m.wide
  simpa only [Expr.width, sort, Srt.width] using wide

lemma num (h : num n w = some e) : Means env w (fun _ => n % 2 ^ w) e := by
  obtain ⟨-, sort, value⟩ := num_some h
  exact ⟨by rw [Expr.width, sort, Srt.width], fun i => value _⟩

lemma truth (small : n < 2) :
    Means env 1 (fun _ => n % 2 ^ 1) (Expr.truth (decide (n = 1)) : Expr ν) := by
  refine ⟨rfl, fun i => ?_⟩
  have bit : n = 0 ∨ n = 1 := by omega
  rcases bit with rfl | rfl <;> rfl

section

variable (m : Means env w v a) (m' : Means env w v' b)

include m m'

lemma arith (h : arith op a b = some e) :
    Means env w (fun i => (op.eval (BitVec.ofNat w (v i)) (BitVec.ofNat w (v' i))).toNat) e := by
  obtain ⟨n, sort, -, sort', value⟩ := arith_some h
  cases m.bv_width sort
  refine ⟨by rw [Expr.width, sort', Srt.width], fun i => ?_⟩
  rw [value, m.value, m'.value]

lemma order {op : Order} (h : order op a b = some e) :
    Means env 1 (fun i => (op.eval (BitVec.ofNat w (v i)) (BitVec.ofNat w (v' i))).toNat) e := by
  obtain ⟨n, sort, -, sort', value⟩ := order_some h
  cases m.bv_width sort
  refine ⟨by rw [Expr.width, sort', Srt.width], fun i => ?_⟩
  rw [value, m.value, m'.value]

lemma ofNat_beq (i : ι) :
    (BitVec.ofNat w (v i) == BitVec.ofNat w (v' i)) = decide (v i = v' i) := by
  rw [beq_eq_decide, decide_eq_decide, ← BitVec.toNat_inj, BitVec.toNat_ofNat,
    BitVec.toNat_ofNat, Nat.mod_eq_of_lt (m.lt i), Nat.mod_eq_of_lt (m'.lt i)]

lemma equal (h : equal a b = some e) :
    Means env 1 (fun i => (BitVec.ofNat w (v i) == BitVec.ofNat w (v' i)).toNat) e := by
  obtain ⟨-, sort, value⟩ := equal_some h
  refine ⟨by rw [Expr.width, sort, Srt.width], fun i => ?_⟩
  rw [value, m.value, m'.value, ofNat_beq m m']

lemma distinct (h : distinct a b = some e) :
    Means env 1 (fun i => (BitVec.ofNat w (v i) != BitVec.ofNat w (v' i)).toNat) e := by
  obtain ⟨-, sort, value⟩ := distinct_some h
  refine ⟨by rw [Expr.width, sort, Srt.width], fun i => ?_⟩
  rw [value, m.value, m'.value, bne, ofNat_beq m m', decide_not]

end

/-- On one bit a logical operation agrees with the bitwise one. -/
lemma logic {logic : Logic}
    (same : ∀ x y : Bool, logic.eval x y =
      ((op.eval (BitVec.ofNat 1 x.toNat) (BitVec.ofNat 1 y.toNat)).toNat == 1))
    (m : Means env w v a) (m' : Means env w v' b) (h : Expr.logic logic a b = some e) :
    Means env w (fun i => (op.eval (BitVec.ofNat w (v i)) (BitVec.ofNat w (v' i))).toNat) e := by
  obtain ⟨sort, -, sort', value⟩ := logic_some h
  have one : w = 1 := by rw [← m.wide, Expr.width, sort, Srt.width]
  subst one
  have bits : ∀ n < 2 ^ 1, (n == 1).toNat = n := by
    intro n small
    have bit : n = 0 ∨ n = 1 := by omega
    rcases bit with rfl | rfl <;> rfl
  refine ⟨by rw [Expr.width, sort', Srt.width], fun i => ?_⟩
  rw [value, m.value, m'.value, same, bits _ (m.lt i), bits _ (m'.lt i), bits _ (BitVec.isLt _)]

variable (m : Means env w v a)

include m

lemma concat (m' : Means env w' v' b) (h : concat a b = some e) :
    Means env (w + w') (fun i => v' i + v i * 2 ^ w') e := by
  obtain ⟨n, _, sort, sort', sort'', value⟩ := concat_some h
  cases m.bv_width sort
  cases m'.bv_width sort'
  refine ⟨by rw [Expr.width, sort'', Srt.width], fun i => ?_⟩
  rw [value, m.value, m'.value]

lemma extract (h : extract hi lo a = some e) :
    hi < w ∧ Means env (hi + 1 - lo) (fun i => v i / 2 ^ lo % 2 ^ (hi + 1 - lo)) e := by
  obtain ⟨n, sort, -, top, sort', value⟩ := extract_some h
  cases m.bv_width sort
  refine ⟨top, by rw [Expr.width, sort', Srt.width], fun i => ?_⟩
  rw [value, m.value]

lemma zext (h : zext long a = some e) : Means env long v e := by
  obtain ⟨n, -, -, sort, value⟩ := zext_some h
  refine ⟨by rw [Expr.width, sort, Srt.width], fun i => ?_⟩
  rw [value, m.value]

lemma sext (h : sext long a = some e) :
    Means env long (fun i => ((BitVec.ofNat w (v i)).signExtend long).toNat) e := by
  obtain ⟨n, sort, -, sort', value⟩ := sext_some h
  cases m.bv_width sort
  refine ⟨by rw [Expr.width, sort', Srt.width], fun i => ?_⟩
  rw [value, m.value]

end Means

/-- A rewriting of expressions that keeps sort and value. -/
structure Simplifier (ν : Type) where
  run : Expr ν → Expr ν
  sort_run : ∀ e, (run e).sort = e.sort
  value_run : ∀ e env, (run e).value env = e.value env

attribute [simp] Simplifier.sort_run Simplifier.value_run

/-- No rewriting at all. -/
def Simplifier.keep : Simplifier ν := ⟨id, fun _ => rfl, fun _ _ => rfl⟩

end BitTerms
