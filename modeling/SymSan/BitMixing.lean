import Mathlib.Data.BitVec
import Mathlib.Data.UInt
import Mathlib.Logic.Function.Basic

/-!
# Invertible steps of mixing functions

The steps that multiplicative hash functions are made of lose no information: the
addition of a constant, the multiplication by a unit, a rotation, and a number
combined with its own shift.
-/

namespace BitMixing

/-- Bits above the shift stay, and each one tells those below it. -/
lemma xor_ushiftRight_injective {w k : Nat} (pos : 0 < k) :
    Function.Injective (fun x : BitVec w => x ^^^ (x >>> k)) := by
  intro x y same
  have bits : ∀ n i, w - i ≤ n → x.getLsbD i = y.getLsbD i := by
    intro n
    induction n with
    | zero =>
      intro i high
      rw [BitVec.getLsbD_of_ge x i (by omega), BitVec.getLsbD_of_ge y i (by omega)]
    | succ n ih =>
      intro i le
      by_cases outside : w ≤ i
      · rw [BitVec.getLsbD_of_ge x i outside, BitVec.getLsbD_of_ge y i outside]
      · have above := ih (k + i) (by omega)
        have here := congrArg (fun z : BitVec w => z.getLsbD i) same
        simp only [BitVec.getLsbD_xor, BitVec.getLsbD_ushiftRight, above] at here
        exact Bool.xor_left_inj.mp here
  exact BitVec.eq_of_getLsbD_eq fun i _ => bits w i (by omega)

/-- A rotation, written as two shifts. -/
lemma rotate_injective {w r : Nat} (le : r ≤ w) :
    Function.Injective (fun x : BitVec w => (x <<< r) ||| (x >>> (w - r))) := by
  intro x y same
  refine BitVec.eq_of_getLsbD_eq fun i lt => ?_
  by_cases low : i + r < w
  · have here := congrArg (fun z : BitVec w => z.getLsbD (i + r)) same
    have past : w ≤ w - r + (i + r) := by omega
    have behind : ¬ i + r < r := by omega
    simp only [BitVec.getLsbD_or, BitVec.getLsbD_shiftLeft, BitVec.getLsbD_ushiftRight, low, behind,
      BitVec.getLsbD_of_ge _ _ past, Nat.add_sub_cancel, Bool.or_false] at here
    exact here
  · have here := congrArg (fun z : BitVec w => z.getLsbD (i + r - w)) same
    have back : w - r + (i + r - w) = i := by omega
    have below : i + r - w < r := by omega
    simp only [BitVec.getLsbD_or, BitVec.getLsbD_shiftLeft, BitVec.getLsbD_ushiftRight, back, below,
      decide_true, Bool.not_true, Bool.and_false] at here
    exact here

lemma mul_injective {w : Nat} {p q : BitVec w} (unit : p * q = 1#w) :
    Function.Injective (fun x : BitVec w => x * p) := by
  intro x y same
  have both := congrArg (· * q) same
  simpa only [BitVec.mul_assoc, unit, BitVec.mul_one] using both

end BitMixing
