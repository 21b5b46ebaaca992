import SymSan.Denotation
import SymSan.DescentSoundness

/-!
# Distances at the width of the operands

A compiled comparison stores both operands zero-extended to 64 bits, and the distance
compares the stored words. At 64 bits the distance is 0 exactly when the comparison
holds; for narrower operands the extension keeps the unsigned order, and it keeps the
signed order of two operands exactly when they have the same sign.
-/

namespace DistanceWidths

open LabelTable RgdAst JigsawTask JigsawCode GradientDescent DescentSoundness

def isSigned : Predicate → Bool
  | .bvslt | .bvsle | .bvsgt | .bvsge => true
  | _ => false

/-! ## Distances of words -/

lemma minus_eq_zero {a b : Nat} (smallA : a < 2 ^ 64) (smallB : b < 2 ^ 64) :
    minus a b = 0 ↔ a = b := by
  simp only [minus]
  omega

lemma satInc_one_ne_zero (a : Nat) : satInc a 1 ≠ 0 :=
  satInc_ne_zero (.inr ⟨by decide, by decide⟩)

lemma sle_self {w : Nat} (a : BitVec w) : a.sle a = true := by
  simp [BitVec.sle]

/-- At 64 bits the distance is 0 exactly when the comparison holds. -/
lemma getDistance_eq_zero {comp : AstKind} {p : Predicate} (is : predicateOf comp = some p)
    {a b : Nat} (smallA : a < 2 ^ 64) (smallB : b < 2 ^ 64) :
    getDistance comp a b = 0 ↔
      Denotation.compare p (BitVec.ofNat 64 a) (BitVec.ofNat 64 b) = true := by
  have inc := satInc_one_ne_zero
  have below := minus_eq_zero smallA smallB
  have above := minus_eq_zero smallB smallA
  have valueA : (BitVec.ofNat 64 a).toNat = a := Nat.mod_eq_of_lt smallA
  have valueB : (BitVec.ofNat 64 b).toNat = b := Nat.mod_eq_of_lt smallB
  have equal : BitVec.ofNat 64 a = BitVec.ofNat 64 b ↔ a = b := by
    rw [← BitVec.toNat_inj, valueA, valueB]
  -- The differences of the two non-strict signed orderings are 0 for equal words only.
  have apart : ¬ (BitVec.ofNat 64 a).sle (BitVec.ofNat 64 b) = true → a ≠ b := by
    rintro unordered rfl
    exact unordered (sle_self _)
  have apart' : ¬ (BitVec.ofNat 64 b).sle (BitVec.ofNat 64 a) = true → b ≠ a := by
    rintro unordered rfl
    exact unordered (sle_self _)
  cases comp <;> cases is <;>
    simp only [getDistance, Denotation.compare, BitVec.ult, BitVec.ule] <;>
    split <;> simp_all <;> omega

/-! ## Zero extension -/

section Extension

variable {w : Nat} (a b : BitVec w)

lemma slt_setWidth (wider : w < 64) : (a.setWidth 64).slt (b.setWidth 64) = a.ult b := by
  have plain (x : BitVec w) : (x.setWidth 64).msb = false := by
    rw [BitVec.msb_setWidth, BitVec.getLsbD_of_ge x 63 (Nat.le_of_lt_succ wider), Bool.and_false]
  rw [BitVec.slt_eq_ult_of_msb_eq ((plain a).trans (plain b).symm)]
  simp only [BitVec.ult, BitVec.toNat_setWidth_of_le wider.le]

/-- The signed order of narrow operands is kept exactly if they have the same sign. -/
lemma slt_setWidth_eq_iff (wider : w < 64) :
    (a.setWidth 64).slt (b.setWidth 64) = a.slt b ↔ a.msb = b.msb := by
  rw [slt_setWidth a b wider, BitVec.slt_eq_ult]
  cases a.msb <;> cases b.msb <;> simp

lemma compare_setWidth_of_unsigned {p : Predicate} (unsigned : isSigned p = false)
    (narrow : w ≤ 64) :
    Denotation.compare p (a.setWidth 64) (b.setWidth 64) = Denotation.compare p a b := by
  have equal : a.setWidth 64 = b.setWidth 64 ↔ a = b := by
    rw [← BitVec.toNat_inj, BitVec.toNat_setWidth_of_le narrow, BitVec.toNat_setWidth_of_le narrow,
      BitVec.toNat_inj]
  cases p with
  | bveq | bvneq =>
    rw [Bool.eq_iff_iff]
    simp [equal, Denotation.compare]
  | bvugt | bvult => simp only [BitVec.ult, BitVec.toNat_setWidth_of_le narrow, Denotation.compare]
  | bvuge | bvule => simp only [BitVec.ule, BitVec.toNat_setWidth_of_le narrow, Denotation.compare]
  | bvslt | bvsle | bvsgt | bvsge => cases unsigned
  | other code => rfl

/-- The zero extension keeps every comparison except a signed one of narrow operands
with different signs. -/
lemma compare_setWidth_eq_iff {p : Predicate} (narrow : w ≤ 64) :
    Denotation.compare p (a.setWidth 64) (b.setWidth 64) = Denotation.compare p a b ↔
      (isSigned p = true → w = 64 ∨ a.msb = b.msb) := by
  rcases narrow.lt_or_eq with wider | rfl
  · cases signed : isSigned p with
    | false => simp [compare_setWidth_of_unsigned a b signed narrow]
    | true =>
      have forth := slt_setWidth_eq_iff a b wider
      have back := (slt_setWidth_eq_iff b a wider).trans eq_comm
      cases p <;> cases signed <;>
        simp [BitVec.sle_eq_not_slt, forth, back, wider.ne, Denotation.compare]
  · simp

end Extension

/-! ## Compiled comparisons -/

lemma fn_relational {m : Machine} {c : Constraint} {args : Nat → Nat} {x y : Value}
    (relational : isRelationalKind c.ast.kind = true) (narrowX : x.1 ≤ 64) (narrowY : y.1 ≤ 64)
    (computed : operands m c args = some (x, y)) :
    fn m c args = Function.update (Function.update args 0 x.2.toNat) 1 y.2.toNat := by
  simp [fn, computed, outcome, relational, narrowX, narrowY]

/-- For every comparison of operands of at most 64 bits: whether distance 0 means that
the comparison holds at the width of the operands. -/
theorem distance_zero_exact_iff {m : Machine} {k : Constraint × ConsMeta} {args : Nat → Nat}
    {p : Predicate} {w : Nat} {a b : BitVec w} (relational : isRelationalKind k.1.ast.kind = true)
    (comparison : predicateOf k.2.comparison = some p) (narrow : w ≤ 64)
    (computed : operands m k.1 args = some (⟨w, a⟩, ⟨w, b⟩)) :
    (distanceAfter k (fn m k.1 args) = 0 ↔ Denotation.compare p a b = true) ↔
      (isSigned p = true → w = 64 ∨ a.msb = b.msb) := by
  have small (x : BitVec w) : x.toNat < 2 ^ 64 :=
    lt_of_lt_of_le x.isLt (Nat.pow_le_pow_right (by decide) narrow)
  have stored := fn_relational relational narrow narrow computed
  have first : fn m k.1 args 0 = a.toNat := by
    rw [stored, Function.update_of_ne (by decide), Function.update_self]
  have second : fn m k.1 args 1 = b.toNat := by
    rw [stored, Function.update_self]
  rw [distanceAfter, first, second, Nat.mod_eq_of_lt (small a), Nat.mod_eq_of_lt (small b),
    getDistance_eq_zero comparison (small a) (small b), BitVec.ofNat_toNat, BitVec.ofNat_toNat,
    ← Bool.eq_iff_iff]
  exact compare_setWidth_eq_iff a b narrow

/-- The comparison of two input bytes as signed numbers. -/
def signedBytes : Constraint × ConsMeta where
  fst := {
    ast := .node2 ⟨.slt, 1, 0, 0, 3, 0⟩
      (.leaf ⟨.read, 8, 0, 0, 1, 0⟩) (.leaf ⟨.read, 8, 1, 0, 2, 0⟩)
    args := mapArg (fun _ => 0) 1 1 (mapArg (fun _ => 0) 0 1 .empty) }
  snd := { inputArgs := [(true, 0), (true, 1)], comparison := .slt, i2sCandidates := [(0, 2)] }

def twoBytes (first second : Nat) : Nat → Nat := fun j =>
  if j = 2 then first else if j = 3 then second else 0

theorem distance_zero_exact_iff_signedBytes :
    distanceAfter signedBytes (fn fractionEnv.machine signedBytes.1 (twoBytes 2 3)) = 0 ↔
      Denotation.compare .bvslt (2 : BitVec 8) 3 = true :=
  (distance_zero_exact_iff (w := 8) (a := 2) (b := 3) rfl rfl (by decide) rfl).mpr fun _ => .inr rfl

/-- The byte 255 is -1 and less than 0; the stored words are 255 and 0. -/
theorem negative_byte_distance :
    operands fractionEnv.machine signedBytes.1 (twoBytes 255 0) =
        some (⟨8, BitVec.ofInt 8 (-1)⟩, ⟨8, 0⟩) ∧
      Denotation.compare .bvslt (BitVec.ofInt 8 (-1)) 0 = true ∧
      distanceAfter signedBytes (fn fractionEnv.machine signedBytes.1 (twoBytes 255 0)) = 256 := by
  refine ⟨rfl, by decide, by decide +kernel⟩

end DistanceWidths
