import Mathlib.Algebra.Order.Ring.Nat
import Mathlib.Tactic.Ring

/-!
# Little-endian words over a byte source

A word of `n` bytes is read from a function that gives the byte at each index,
so a sub-range of a word is a word over a shifted source. The entries are not
assumed to be below 256: a wide entry carries into the following bytes, which
is how an addition-based reader of oversized cells behaves.
-/

namespace LittleEndian

variable {i m n : Nat} {f g : Nat → Nat}

def word (f : Nat → Nat) : Nat → Nat
  | 0 => 0
  | n + 1 => word f n + f n * 256 ^ n

def byteAt (v i : Nat) : Nat := v / 256 ^ i % 256

lemma byteAt_lt (v i : Nat) : byteAt v i < 256 := Nat.mod_lt _ (by decide)

@[simp] lemma word_zero (f : Nat → Nat) : word f 0 = 0 := rfl

lemma word_succ (f : Nat → Nat) (n : Nat) : word f (n + 1) = word f n + f n * 256 ^ n := rfl

lemma word_one (f : Nat → Nat) : word f 1 = f 0 := by simp [word]

lemma word_congr (same : ∀ i < n, f i = g i) : word f n = word g n := by
  induction n with
  | zero => rfl
  | succ n ih =>
    rw [word_succ, word_succ, ih (fun i hi => same i (by omega)), same n (by omega)]

lemma word_lt (small : ∀ i < n, f i < 256) : word f n < 256 ^ n := by
  induction n with
  | zero => simp
  | succ n ih =>
    have hlow := ih (fun i hi => small i (by omega))
    have htop : f n * 256 ^ n ≤ 255 * 256 ^ n :=
      Nat.mul_le_mul_right _ (by have := small n (by omega); omega)
    rw [word_succ]
    omega

lemma word_append (f : Nat → Nat) (n m : Nat) :
    word f (n + m) = word f n + word (fun k => f (n + k)) m * 256 ^ n := by
  induction m with
  | zero => simp
  | succ m ih =>
    rw [← Nat.add_assoc, word_succ, ih, word_succ]
    ring

lemma word_div (hi : i ≤ n) (small : ∀ k < i, f k < 256) :
    word f n / 256 ^ i = word (fun k => f (i + k)) (n - i) := by
  have hsplit := word_append f i (n - i)
  have hlow := word_lt small
  rw [show i + (n - i) = n by omega] at hsplit
  rw [hsplit, Nat.add_mul_div_right _ _ (Nat.pow_pos (by decide)), Nat.div_eq_of_lt hlow,
    Nat.zero_add]

lemma word_mod (hm : m ≤ n) (small : ∀ k < m, f k < 256) : word f n % 256 ^ m = word f m := by
  have hsplit := word_append f m (n - m)
  rw [show m + (n - m) = n by omega] at hsplit
  rw [hsplit, Nat.add_mul_mod_self_right, Nat.mod_eq_of_lt (word_lt small)]

lemma word_slice (h : i + m ≤ n) (small : ∀ k < n, f k < 256) :
    word f n / 256 ^ i % 256 ^ m = word (fun k => f (i + k)) m := by
  rw [word_div (by omega) (fun k hk => small k (by omega)),
    word_mod (by omega) (fun k hk => small (i + k) (by omega))]

lemma byteAt_word (hi : i < n) (small : ∀ k < n, f k < 256) : byteAt (word f n) i = f i := by
  have h := word_slice (f := f) (n := n) (i := i) (m := 1) (by omega) small
  rw [Nat.pow_one, word_one] at h
  simpa only [byteAt, Nat.add_zero] using h

/-- The bytes of a number spell it again, up to the width of the word. -/
lemma word_byteAt (v n : Nat) : word (byteAt v) n = v % 256 ^ n := by
  induction n with
  | zero => simp [Nat.mod_one]
  | succ n ih =>
    rw [word_succ, ih, byteAt, Nat.pow_succ, Nat.mod_mul, Nat.mul_comm (256 ^ n)]

lemma byteAt_add (v i j : Nat) : byteAt v (i + j) = byteAt (v / 256 ^ i) j := by
  rw [byteAt, byteAt, Nat.pow_add, Nat.div_div_eq_div_mul]

lemma word_byteAt_slice (v i m : Nat) :
    word (fun j => byteAt v (i + j)) m = v / 256 ^ i % 256 ^ m := by
  rw [← word_byteAt]
  exact word_congr fun j _ => byteAt_add v i j

lemma word_injective (hf : ∀ k < n, f k < 256) (hg : ∀ k < n, g k < 256)
    (same : word f n = word g n) : ∀ i < n, f i = g i := by
  intro i hi
  rw [← byteAt_word hi hf, same, byteAt_word hi hg]

lemma two_pow_mul_eight (n : Nat) : 2 ^ (8 * n) = 256 ^ n := by
  rw [Nat.pow_mul]

/-! ## Byte strings -/

def spell (n v : Nat) : List (BitVec 8) :=
  (List.range n).map fun i => BitVec.ofNat 8 (byteAt v i)

/-- The word that the first `n` bytes of a string spell; missing bytes are zero. -/
def read (n : Nat) (bytes : List (BitVec 8)) : Nat := word (fun i => (bytes.getD i 0).toNat) n

@[simp] lemma length_spell (n v : Nat) : (spell n v).length = n := by
  simp [spell]

lemma read_spell (n v : Nat) (rest : List (BitVec 8)) :
    read n (spell n v ++ rest) = v % 256 ^ n := by
  rw [read, ← word_byteAt]
  refine word_congr fun i hi => ?_
  have inside : i < (spell n v).length := by simpa using hi
  have small := byteAt_lt v i
  rw [List.getD_eq_getElem?_getD, List.getElem?_append_left inside, List.getElem?_eq_getElem inside,
    Option.getD_some]
  simp only [spell, List.getElem_map, List.getElem_range, BitVec.toNat_ofNat]
  omega

lemma drop_spell {k : Nat} (v : Nat) (rest : List (BitVec 8)) (le : n ≤ k) :
    (spell n v ++ rest).drop k = rest.drop (k - n) := by
  rw [List.drop_append, List.drop_eq_nil_of_le (by simpa using le), length_spell, List.nil_append]

end LittleEndian
