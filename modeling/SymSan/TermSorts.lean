import SymSan.BitTerms

/-!
# Sorts of combined expressions

Whether a combination of expressions is accepted depends only on their sorts. For each
of the functions on expressions there is one on sorts, and the sort of the result is
the result for the sorts.
-/

namespace TermSorts

open BitTerms

def arith : Srt → Srt → Option Srt
  | .bv w, .bv w' => if w' = w then some (.bv w) else none
  | _, _ => none

def order : Srt → Srt → Option Srt
  | .bv w, .bv w' => if w' = w then some .bool else none
  | _, _ => none

def equal (a b : Srt) : Option Srt := if b = a then some .bool else none

def neg : Srt → Option Srt
  | .bv w => some (.bv w)
  | .bool => none

def lnot : Srt → Option Srt
  | .bool => some .bool
  | .bv _ => none

def logic : Srt → Srt → Option Srt
  | .bool, .bool => some .bool
  | _, _ => none

def extract (hi lo : Nat) : Srt → Option Srt
  | .bv w => if lo ≤ hi ∧ hi < w then some (.bv (hi + 1 - lo)) else none
  | .bool => none

def concat : Srt → Srt → Option Srt
  | .bv w, .bv w' => some (.bv (w + w'))
  | _, _ => none

def extend (n : Nat) : Srt → Option Srt
  | .bv w => if w ≤ n then some (.bv n) else none
  | .bool => none

def num (w : Nat) : Option Srt := if w = 0 then none else some (.bv w)

section Sorts

variable {ν : Type}

lemma sort_num (v w : Nat) : (Expr.num v w : Option (Expr ν)).map (·.sort) = num w := by
  simp only [Expr.num, num]
  split
  · rfl
  · rfl

lemma sort_arith (op : Arith) (a b : Expr ν) :
    (a.arith op b).map (·.sort) = arith a.sort b.sort := by
  obtain ⟨_ | w, t⟩ := a
  · rfl
  obtain ⟨_ | _, _⟩ := b
  · rfl
  simp only [Expr.arith, arith]
  split
  · rfl
  · rfl

lemma sort_order (op : Order) (a b : Expr ν) :
    (a.order op b).map (·.sort) = order a.sort b.sort := by
  obtain ⟨_ | w, t⟩ := a
  · rfl
  obtain ⟨_ | _, _⟩ := b
  · rfl
  simp only [Expr.order, order]
  split
  · rfl
  · rfl

variable (a b : Expr ν)

lemma sort_equal : (a.equal b).map (·.sort) = equal a.sort b.sort := by
  simp only [Expr.equal, equal]
  split
  · rfl
  · rfl

lemma sort_lnot (a : Expr ν) : a.lnot.map (·.sort) = lnot a.sort := by
  obtain ⟨s, t⟩ := a
  cases s with
  | bool | bv w => rfl

lemma sort_distinct : (a.distinct b).map (·.sort) = equal a.sort b.sort := by
  simp only [Expr.distinct, Expr.equal, equal]
  split
  · rfl
  · rfl

lemma sort_neg (a : Expr ν) : a.neg.map (·.sort) = neg a.sort := by
  obtain ⟨s, t⟩ := a
  cases s with
  | bool | bv w => rfl

lemma sort_logic (op : Logic) (a b : Expr ν) :
    (a.logic op b).map (·.sort) = logic a.sort b.sort := by
  obtain ⟨s, t⟩ := a
  obtain ⟨s', _⟩ := b
  cases s with
  | bv w => rfl
  | bool =>
    cases s' with
    | bool | bv w => rfl

lemma sort_extract (hi lo : Nat) (a : Expr ν) :
    (a.extract hi lo).map (·.sort) = extract hi lo a.sort := by
  obtain ⟨_ | w, t⟩ := a
  · rfl
  simp only [Expr.extract, extract]
  split
  · rfl
  · rfl

lemma sort_concat : (a.concat b).map (·.sort) = concat a.sort b.sort := by
  obtain ⟨s, t⟩ := a
  obtain ⟨s', _⟩ := b
  cases s with
  | bool => rfl
  | bv w =>
    cases s' with
    | bool | bv w' => rfl

lemma sort_zext (n : Nat) (a : Expr ν) : (a.zext n).map (·.sort) = extend n a.sort := by
  obtain ⟨_ | w, t⟩ := a
  · rfl
  simp only [Expr.zext, extend]
  split
  · rfl
  · rfl

lemma sort_sext (n : Nat) (a : Expr ν) : (a.sext n).map (·.sort) = extend n a.sort := by
  obtain ⟨_ | w, t⟩ := a
  · rfl
  simp only [Expr.sext, extend]
  split
  · rfl
  · rfl

end Sorts

end TermSorts
