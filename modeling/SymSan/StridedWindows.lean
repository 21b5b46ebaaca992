import Mathlib.Algebra.Order.Ring.Int
import Mathlib.Algebra.Ring.Divisibility.Basic

/-!
# Which indices of a strided access hit a range

An access with stride `e` starts at displacement `d` from a range of `n` bytes: index `i`
goes to `d + i * e`. The indices that hit the range are an interval. When indices are read
as signed numbers with half `h` (numbers below `2 * h`, from `h` on negative) but compared as
unsigned ones, the interval has to lie on one side of 0 to stay an interval.

The two ends of the interval are often taken from quotients of wrapped distances. The last
section says for which displacements, strides, lengths and moduli these are right.
-/

namespace StridedWindows

/-! ## Signed windows of unsigned numbers -/

def signedIn (h v : Int) : Int := if v < h then v else v - 2 * h

lemma signedIn_cases (h v : Int) :
    v < h ∧ signedIn h v = v ∨ h ≤ v ∧ signedIn h v = v - 2 * h := by
  by_cases below : v < h
  · exact .inl ⟨below, if_pos below⟩
  · exact .inr ⟨by omega, if_neg below⟩

/-- An unsigned window has the same members as a signed one. -/
def SameWindow (h l u lo hi : Int) : Prop :=
  ∀ v, 0 ≤ v → v < 2 * h → (l ≤ v ∧ v < u ↔ lo ≤ signedIn h v ∧ signedIn h v < hi)

section Windows

variable {h l u lo hi : Int}

lemma SameWindow.low (same : SameWindow h l u lo hi) {v : Int} (nonneg : 0 ≤ v) (below : v < h) :
    l ≤ v ∧ v < u ↔ lo ≤ v ∧ v < hi := by
  have here := same v nonneg (by omega)
  rwa [signedIn, if_pos below] at here

lemma SameWindow.high (same : SameWindow h l u lo hi) {v : Int} (above : h ≤ v)
    (below : v < 2 * h) (half : 1 ≤ h) : l ≤ v ∧ v < u ↔ lo ≤ v - 2 * h ∧ v - 2 * h < hi := by
  have here := same v (by omega) below
  rwa [signedIn, if_neg (by omega)] at here

lemma sameWindow_of_nonneg (half : 1 ≤ h) (nonneg : 0 ≤ lo) (first : lo < hi) (room : lo < h) :
    SameWindow h l u lo hi ∧ 0 ≤ l ↔ l = lo ∧ u = min hi h := by
  constructor
  · rintro ⟨same, lowest⟩
    have atLo := same.low nonneg room
    have atL : l < h → (l < u ↔ lo ≤ l ∧ l < hi) := fun below => by
      have := same.low lowest below
      omega
    have last := same.low (v := min hi h - 1) (by omega) (by omega)
    have next : hi < h → (l ≤ hi ∧ hi < u ↔ lo ≤ hi ∧ hi < hi) := fun below =>
      same.low (by omega) below
    have negative := same.high (v := h) (Int.le_refl h) (by omega) half
    omega
  · rintro ⟨rfl, rfl⟩
    refine ⟨fun v low high => ?_, nonneg⟩
    rcases signedIn_cases h v with ⟨below, value⟩ | ⟨above, value⟩ <;> omega

lemma sameWindow_of_neg (half : 1 ≤ h) (negative : hi ≤ 0) (first : lo < hi) (room : -h < hi) :
    SameWindow h l u lo hi ∧ 0 ≤ l ↔ l + min (-lo) h = 2 * h ∧ min u (2 * h) = 2 * h + hi := by
  constructor
  · rintro ⟨same, lowest⟩
    have atLo := same.high (v := 2 * h + max lo (-h)) (by omega) (by omega) half
    have last := same.high (v := 2 * h + hi - 1) (by omega) (by omega) half
    have next : hi < 0 → (l ≤ 2 * h + hi ∧ 2 * h + hi < u ↔
        lo ≤ 2 * h + hi - 2 * h ∧ 2 * h + hi - 2 * h < hi) := fun below =>
      same.high (by omega) (by omega) half
    have atL : l < h → (l ≤ l ∧ l < u ↔ lo ≤ l ∧ l < hi) := fun below => same.low lowest below
    have highL : h ≤ l → l < 2 * h → (l ≤ l ∧ l < u ↔ lo ≤ l - 2 * h ∧ l - 2 * h < hi) :=
      fun above below => same.high above below half
    omega
  · rintro ⟨lower, upper⟩
    refine ⟨fun v low high => ?_, by omega⟩
    rcases signedIn_cases h v with ⟨below, value⟩ | ⟨above, value⟩ <;> omega

/-- A window on both sides of 0 has to be everything. -/
lemma sameWindow_of_both (half : 1 ≤ h) (left : lo < 0) (right : 0 < hi) :
    SameWindow h l u lo hi ∧ 0 ≤ l ↔ lo ≤ -h ∧ h ≤ hi ∧ l = 0 ∧ 2 * h ≤ u := by
  constructor
  · rintro ⟨same, lowest⟩
    have zero := same.low (v := 0) (Int.le_refl 0) (by omega)
    have minusOne := same.high (v := 2 * h - 1) (by omega) (by omega) half
    have smallest := same.high (v := h) (Int.le_refl h) (by omega) half
    have largest := same.low (v := h - 1) (by omega) (by omega)
    omega
  · rintro ⟨low, high, rfl, wide⟩
    refine ⟨fun v nonneg below => ?_, Int.le_refl 0⟩
    rcases signedIn_cases h v with ⟨small, value⟩ | ⟨large, value⟩ <;> omega

end Windows

/-! ## Strides -/

/-- Index `i` goes into the range. -/
def Hits (d e n i : Int) : Prop := 0 ≤ d + i * e ∧ d + i * e < n

section Strides

variable {d e n i : Int}

lemma hits_iff (positive : 0 < e) : Hits d e n i ↔ -(d / e) ≤ i ∧ i < -((d - n) / e) := by
  have low : 0 ≤ d + i * e ↔ -(d / e) ≤ i := by
    have := Int.le_ediv_iff_mul_le (a := -i) (b := d) positive
    rw [Int.neg_mul] at this
    omega
  have high : d + i * e < n ↔ i < -((d - n) / e) := by
    have := Int.ediv_lt_iff_lt_mul (a := d - n) (b := -i) positive
    rw [Int.neg_mul] at this
    omega
  rw [Hits, low, high]

lemma neg_ediv_cases (x : Int) (positive : 0 < e) :
    e ∣ x ∧ -(x / e) = -x / e ∨ ¬ e ∣ x ∧ -(x / e) = -x / e + 1 := by
  by_cases divides : e ∣ x
  · exact .inl ⟨divides, (Int.neg_ediv_of_dvd divides).symm⟩
  · have := Int.neg_ediv (a := x) (b := e)
    rw [Int.sign_eq_one_of_pos positive] at this
    omega

end Strides

/-! ## Quotients of wrapped distances -/

/-- Index 0 is at or before the range, the ends of the range are whole strides away, and the
indices that hit it are not mistaken for negative ones. -/
def Before (A d e n h : Int) : Prop :=
  d ≤ 0 ∧ n - d < A ∧ e ∣ d ∧ (e ∣ n ∧ n - d ≤ h * e ∨ ¬ e ∣ n ∧ (n - d) / e = h)

/-- Index 0 is behind the range, and the wrapped distances are as many strides long as the
unsigned forms of the first index in the range and the first one after it say. -/
def Behind (A d e n h : Int) : Prop :=
  n < d ∧ d < A ∧ (A - d) / e + min (d / e) h = 2 * h ∧
    min ((A + n - d) / e) (2 * h) + (d - n) / e = 2 * h

section Quotients

variable {A d e n h : Int} {i : Int}

lemma emod_wrap {x y : Int} (nonneg : 0 ≤ y) (small : y < A) (round : x + A = y) : x % A = y := by
  rw [← Int.add_emod_right, round, Int.emod_eq_of_lt nonneg small]

variable (half : 1 ≤ h) (positive : 0 < e) (long : 0 < n) (fits : n < A)

include half positive long fits

lemma quotients_before (near : -A < d) (start : d ≤ 0) (hit : Hits d e n i) (signed : i < h) :
    SameWindow h (-d % A / e) ((n - d) % A / e) (-(d / e)) (-((d - n) / e)) ↔ Before A d e n h := by
  obtain ⟨first, last⟩ := (hits_iff positive).mp hit
  have nonneg : 0 ≤ -(d / e) := by
    have := (Int.ediv_lt_iff_lt_mul (a := d) (b := 1) positive).mpr (by omega)
    omega
  have lowest : 0 ≤ -d / e := Int.ediv_nonneg (by omega) (by omega)
  have window := sameWindow_of_nonneg (l := -d / e) (u := (n - d) % A / e) half nonneg
    (Int.lt_of_le_of_lt first last) (Int.lt_of_le_of_lt first signed)
  rw [Int.emod_eq_of_lt (a := -d) (b := A) (by omega) (by omega)]
  refine ((and_iff_left lowest).symm.trans window).trans ?_
  by_cases inside : n - d < A
  · rw [Int.emod_eq_of_lt (by omega) inside]
    have back : -(d - n) = n - d := by omega
    constructor
    · rintro ⟨low, high⟩
      have divides : e ∣ d := by
        rcases neg_ediv_cases d positive with ⟨divides, -⟩ | ⟨-, rounded⟩
        · exact divides
        · omega
      refine ⟨start, inside, divides, ?_⟩
      rcases neg_ediv_cases (d - n) positive with ⟨whole, rounded⟩ | ⟨part, rounded⟩
      · rw [back] at rounded
        refine .inl ⟨(dvd_sub_right divides).mp whole, ?_⟩
        obtain ⟨c, product⟩ := (Int.dvd_neg.mpr whole)
        rw [back] at product
        rw [product, Int.mul_ediv_cancel_left c (by omega)] at high rounded
        rw [product, Int.mul_comm h]
        exact Int.mul_le_mul_of_nonneg_left (by omega) (by omega)
      · rw [back] at rounded
        exact .inr ⟨fun whole => part ((dvd_sub_right divides).mpr whole), by omega⟩
    · rintro ⟨-, -, divides, ends⟩
      have low : -d / e = -(d / e) := Int.neg_ediv_of_dvd divides
      rcases neg_ediv_cases (d - n) positive with ⟨whole, rounded⟩ | ⟨part, rounded⟩
      · rw [back] at rounded
        rcases ends with ⟨-, room⟩ | ⟨odd, -⟩
        · have : (n - d) / e ≤ h := by
            have := (Int.ediv_lt_iff_lt_mul (a := n - d) (b := h + 1) positive).mpr
              (by rw [Int.add_mul]; omega)
            omega
          omega
        · exact absurd ((dvd_sub_right divides).mp whole) odd
      · rw [back] at rounded
        rcases ends with ⟨whole, -⟩ | ⟨-, exactly⟩
        · exact absurd ((dvd_sub_right divides).mpr whole) part
        · omega
  · -- the upper distance wraps and falls below the lower one
    have wrapped : (n - d) % A = n - d - A := by
      rw [← Int.sub_emod_right, Int.emod_eq_of_lt (by omega) (by omega)]
    have smaller : (n - d - A) / e ≤ -d / e := Int.ediv_le_ediv positive (by omega)
    rw [wrapped]
    constructor
    · rintro ⟨low, high⟩
      omega
    · rintro ⟨-, small, -⟩
      exact absurd small inside

lemma quotients_behind (start : 0 < d) (far : d < n + A) (hit : Hits d e n i)
    (signed : -h ≤ i ∧ i < h) :
    SameWindow h (-d % A / e) ((n - d) % A / e) (-(d / e)) (-((d - n) / e)) ↔ Behind A d e n h := by
  obtain ⟨first, last⟩ := (hits_iff positive).mp hit
  have lowest : 0 ≤ -d % A / e := Int.ediv_nonneg (Int.emod_nonneg _ (by omega)) (by omega)
  have nonpos : 0 ≤ d / e := Int.ediv_nonneg (by omega) (by omega)
  by_cases above : -((d - n) / e) ≤ 0
  · have window := sameWindow_of_neg (l := -d % A / e) (u := (n - d) % A / e) half above
      (Int.lt_of_le_of_lt first last) (Int.lt_of_le_of_lt signed.1 last)
    refine ((and_iff_left lowest).symm.trans window).trans ?_
    rw [Int.neg_neg]
    have beyond : n ≤ d := by
      have := (Int.le_ediv_iff_mul_le (a := 0) (b := d - n) positive).mp (by omega)
      omega
    by_cases inside : d < A
    · have lower : -d % A = A - d := emod_wrap (by omega) (by omega) (by omega)
      rw [lower]
      by_cases touches : d = n
      · subst touches
        simp only [Int.sub_self, Int.zero_emod, Int.zero_ediv, Behind]
        omega
      have upper : (n - d) % A = A + n - d := emod_wrap (by omega) (by omega) (by omega)
      rw [upper]
      constructor
      · rintro ⟨low, high⟩
        exact ⟨by omega, inside, low, by omega⟩
      · rintro ⟨-, -, low, high⟩
        exact ⟨low, by omega⟩
    · have upper : (n - d) % A = A + n - d := emod_wrap (by omega) (by omega) (by omega)
      constructor
      · rintro ⟨low, high⟩
        -- a lower distance of a whole round is 0, a longer one exceeds the upper distance
        by_cases round : d = A
        · rw [round, Int.neg_emod_self, Int.zero_ediv] at low
          omega
        have lower : -d % A = 2 * A - d := by
          rw [← Int.add_mul_emod_self_right (-d) 2 A, Int.emod_eq_of_lt (by omega) (by omega)]
          omega
        have smaller : (A + n - d) / e ≤ (2 * A - d) / e := Int.ediv_le_ediv positive (by omega)
        rw [lower] at low
        rw [upper] at high
        omega
      · rintro ⟨-, small, -⟩
        exact absurd small inside
  · -- index 0 or its successor hits, so the window is not on the negative side
    have ahead : d < n := by
      have := (Int.ediv_lt_iff_lt_mul (a := d - n) (b := 0) positive).mp (by omega)
      omega
    have lower : -d % A = A - d := emod_wrap (by omega) (by omega) (by omega)
    have upper : (n - d) % A = n - d := Int.emod_eq_of_lt (by omega) (by omega)
    rw [lower] at lowest
    rw [lower, upper]
    have short : (A - d) / e = 0 → (n - d) / e = 0 := by
      intro zero
      have close : A - d < 1 * e := (Int.ediv_lt_iff_lt_mul positive).mp (by omega)
      exact Int.ediv_eq_zero_of_lt (by omega) (by omega)
    constructor
    · intro same
      by_cases zero : -(d / e) = 0
      · obtain ⟨_, _⟩ := (sameWindow_of_nonneg half (by omega) (by omega) (by omega)).mp
          ⟨same, lowest⟩
        omega
      · obtain ⟨-, -, _, _⟩ := (sameWindow_of_both half (by omega) (by omega)).mp
          ⟨same, lowest⟩
        omega
    · rintro ⟨behind, -⟩
      omega

/-- When the quotients of the wrapped distances to both ends of the range select, as unsigned
numbers, the indices that hit it, provided some index does. -/
lemma quotients_iff (near : -A < d) (far : d < n + A) {v : Int} (low : 0 ≤ v) (high : v < 2 * h)
    (hit : Hits d e n (signedIn h v)) :
    (∀ v, 0 ≤ v → v < 2 * h →
      (-d % A / e ≤ v ∧ v < (n - d) % A / e ↔ Hits d e n (signedIn h v))) ↔
      Before A d e n h ∨ Behind A d e n h := by
  have signed : -h ≤ signedIn h v ∧ signedIn h v < h := by
    rcases signedIn_cases h v with ⟨below, value⟩ | ⟨above, value⟩
    · omega
    · omega
  have window : (∀ v, 0 ≤ v → v < 2 * h →
      (-d % A / e ≤ v ∧ v < (n - d) % A / e ↔ Hits d e n (signedIn h v))) ↔
      SameWindow h (-d % A / e) ((n - d) % A / e) (-(d / e)) (-((d - n) / e)) := by
    simp only [SameWindow, hits_iff positive]
  rw [window]
  by_cases start : d ≤ 0
  · rw [quotients_before half positive long fits near start hit signed.2]
    refine ⟨.inl, ?_⟩
    rintro (before | ⟨behind, -⟩)
    · exact before
    · omega
  · rw [quotients_behind half positive long fits (by omega) far hit signed]
    refine ⟨.inr, ?_⟩
    rintro (⟨before, -⟩ | behind)
    · omega
    · exact behind

end Quotients

end StridedWindows
