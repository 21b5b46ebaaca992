import Mathlib.Data.List.GetD

/-!
# Left-to-right scans of a table

A table indexed by natural numbers is filled in index order, and the entry at
an index may consult every entry before it. The scan is total: an entry that
has not been computed reads as a default, so an ill-ordered table has a value
too, and the theorems say which entries that value depends on.
-/

namespace ScanTables

universe u
variable {α : Type u}

/-- The entries computed after the first `n` indices. -/
def upTo (step : Nat → (Nat → α) → α) (d : α) : Nat → Nat → α
  | 0 => fun _ => d
  | n + 1 => fun k => if k = n then step n (upTo step d n) else upTo step d n k

def value (step : Nat → (Nat → α) → α) (d : α) (k : Nat) : α :=
  step k (upTo step d k)

variable (step : Nat → (Nat → α) → α) (d : α) {n k : Nat}

lemma upTo_of_lt (h : k < n) : upTo step d n k = value step d k := by
  induction n with
  | zero => omega
  | succ n ih =>
    by_cases hk : k = n
    · subst k
      simp [upTo, value]
    · simp only [upTo, if_neg hk]
      exact ih (by omega)

lemma upTo_of_le (h : n ≤ k) : upTo step d n k = d := by
  induction n with
  | zero => rfl
  | succ n ih =>
    have hk : k ≠ n := by omega
    simp only [upTo, if_neg hk]
    exact ih (by omega)

/-- An entry is one step over the finished earlier entries. -/
lemma value_eq (k : Nat) :
    value step d k = step k (fun j => if j < k then value step d j else d) := by
  have hprev : upTo step d k = fun j => if j < k then value step d j else d := by
    funext j
    by_cases hj : j < k
    · rw [if_pos hj, upTo_of_lt step d hj]
    · rw [if_neg hj, upTo_of_le step d (by omega)]
  rw [value, hprev]

lemma value_congr {step step' : Nat → (Nat → α) → α} {k : Nat}
    (same : ∀ j ≤ k, ∀ prev, step j prev = step' j prev) :
    value step d k = value step' d k := by
  have hprev : ∀ n ≤ k, upTo step d n = upTo step' d n := by
    intro n
    induction n with
    | zero => intro _; rfl
    | succ n ih =>
      intro hn
      funext j
      have hrest := ih (by omega)
      by_cases hj : j = n
      · simp only [upTo]
        rw [hrest, same n (by omega)]
      · simp only [upTo, if_neg hj, hrest]
  rw [value, value, hprev k (Nat.le_refl k), same k (Nat.le_refl k)]

/-- A list of the first entries. -/
def Begins (entries : List α) : Prop :=
  ∀ k, k < entries.length → entries.getD k d = value step d k

variable {step d} {entries : List α}

lemma Begins.earlier (begins : Begins step d entries) :
    (fun j => entries.getD j d) = fun j => if j < entries.length then value step d j else d := by
  funext j
  split
  next inside =>
    exact begins j inside
  · exact List.getD_eq_default _ _ (by omega)

lemma Begins.push (begins : Begins step d entries) :
    Begins step d (entries ++ [step entries.length fun j => entries.getD j d]) := by
  intro k lt
  simp only [List.length_append, List.length_singleton] at lt
  by_cases old : k < entries.length
  · rw [List.getD_append _ _ _ _ old]
    exact begins k old
  · obtain rfl : k = entries.length := by omega
    rw [value_eq, ← begins.earlier]
    simp

end ScanTables
