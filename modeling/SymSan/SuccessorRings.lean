import Mathlib.Data.List.Chain
import Mathlib.Data.List.Nodup
import Mathlib.Logic.Function.Basic

/-!
# Rings of a successor function

A ring is a cycle of a function that gives every element a successor. A ring can be
entered at any of its elements, and two disjoint rings become one when an element of
the first exchanges its successor with an element of the second.
-/

namespace SuccessorRings

open List (append_assoc cons_append mem_cons mem_cons_of_mem mem_cons_self nodup_cons)

universe u
variable {α : Type u} {next next' : α → α} {x y z : α} {l m : List α}

/-- The elements of a list follow each other. -/
abbrev Follow (next : α → α) : List α → Prop := List.IsChain fun a b => next a = b

lemma follow_pair : Follow next [x, y] ↔ next x = y := List.isChain_pair

lemma follow_cons : Follow next (x :: y :: l) ↔ next x = y ∧ Follow next (y :: l) :=
  List.isChain_cons_cons

lemma follow_split : Follow next (l ++ x :: m) ↔ Follow next (l ++ [x]) ∧ Follow next (x :: m) :=
  List.isChain_split

/-- From `x` through `l` back to `x`, without meeting an element twice. -/
structure Ring (next : α → α) (x : α) (l : List α) : Prop where
  follow : Follow next (x :: (l ++ [x]))
  nodup : (x :: l).Nodup

lemma ring_self (self : next x = x) : Ring next x [] :=
  ⟨follow_pair.mpr self, List.nodup_singleton x⟩

lemma Ring.enter (ring : Ring next x l) (inside : y ∈ x :: l) :
    ∃ m, Ring next y m ∧ ∀ z, z ∈ y :: m ↔ z ∈ x :: l := by
  rcases mem_cons.mp inside with rfl | inside
  · exact ⟨l, ring, fun z => .rfl⟩
  obtain ⟨before, after, rfl⟩ := List.append_of_mem inside
  have permuted : (y :: (after ++ x :: before)).Perm (x :: (before ++ y :: after)) := by
    have swapped : (y :: after ++ x :: before).Perm (x :: before ++ y :: after) :=
      List.perm_append_comm
    exact swapped
  refine ⟨after ++ x :: before, ⟨?_, permuted.nodup_iff.mpr ring.nodup⟩, fun z =>
    permuted.mem_iff⟩
  have follow := ring.follow
  rw [append_assoc, cons_append, ← cons_append, follow_split] at follow
  obtain ⟨toY, fromY⟩ := follow
  rw [append_assoc, cons_append, ← cons_append, follow_split]
  exact ⟨fromY, toY⟩

/-- A chain from `x` becomes one from `z` if `z` gets the successor of `x`. -/
lemma follow_redirect (follow : Follow next (x :: (l ++ [y]))) (taken : next' z = next x)
    (same : ∀ a ∈ l, next' a = next a) : Follow next' (z :: (l ++ [y])) := by
  cases l with
  | nil =>
    have single := follow_pair.mp follow
    exact follow_pair.mpr (taken.trans single)
  | cons a l =>
    rw [cons_append, follow_cons] at follow ⊢
    refine ⟨taken.trans follow.1, ?_⟩
    have rest := follow.2
    clear follow taken
    induction l generalizing a with
    | nil =>
      have single := follow_pair.mp rest
      exact follow_pair.mpr ((same a mem_cons_self).trans single)
    | cons b l ih =>
      rw [cons_append, follow_cons] at rest ⊢
      refine ⟨(same a mem_cons_self).trans rest.1, ih b ?_ rest.2⟩
      exact fun c inside => same c (mem_cons_of_mem a inside)

variable [DecidableEq α] {fuel : Nat}

/-- `x` and `y` exchange their successors. -/
def exchange (next : α → α) (x y : α) : α → α :=
  Function.update (Function.update next x (next y)) y (next x)

lemma exchange_left (ne : x ≠ y) : exchange next x y x = next y := by
  rw [exchange, Function.update_of_ne ne, Function.update_self]

lemma exchange_right : exchange next x y y = next x := Function.update_self ..

lemma exchange_other (notX : z ≠ x) (notY : z ≠ y) : exchange next x y z = next z := by
  rw [exchange, Function.update_of_ne notY, Function.update_of_ne notX]

lemma Ring.splice (ringX : Ring next x l) (ringY : Ring next y m)
    (disjoint : ∀ a, a ∈ x :: l → a ∉ y :: m) : Ring (exchange next x y) x (m ++ y :: l) := by
  have ne : x ≠ y := by
    rintro rfl
    exact disjoint x mem_cons_self mem_cons_self
  have notX : ∀ a ∈ m, a ≠ x := by
    rintro a inside rfl
    exact disjoint a mem_cons_self (mem_cons_of_mem y inside)
  have notY : ∀ a ∈ m, a ≠ y := by
    rintro a inside rfl
    exact (nodup_cons.mp ringY.nodup).1 inside
  have notX' : ∀ a ∈ l, a ≠ x := by
    rintro a inside rfl
    exact (nodup_cons.mp ringX.nodup).1 inside
  have notY' : ∀ a ∈ l, a ≠ y := by
    rintro a inside rfl
    exact disjoint a (mem_cons_of_mem x inside) mem_cons_self
  constructor
  · rw [append_assoc, cons_append, ← cons_append, follow_split]
    constructor
    · exact follow_redirect ringY.follow (exchange_left ne) fun a inside =>
        exchange_other (notX a inside) (notY a inside)
    · exact follow_redirect ringX.follow exchange_right fun a inside =>
        exchange_other (notX' a inside) (notY' a inside)
  · have swapped : (x :: (m ++ y :: l)).Perm ((x :: l) ++ (y :: m)) := by
      have moved : (m ++ y :: l).Perm (l ++ (y :: m)) := by
        have first : (m ++ y :: l).Perm ((y :: l) ++ m) := List.perm_append_comm
        have second : ((y :: l) ++ m).Perm (l ++ (y :: m)) := List.perm_middle.symm
        exact first.trans second
      exact moved.cons x
    rw [swapped.nodup_iff]
    exact List.nodup_append.mpr ⟨ringX.nodup, ringY.nodup, fun a inX b inY same =>
      disjoint a inX (same ▸ inY)⟩

lemma Ring.exchange (ring : Ring next z l) (notX : x ∉ z :: l) (notY : y ∉ z :: l) :
    Ring (exchange next x y) z l := by
  have other : ∀ a, a ∈ z :: l → SuccessorRings.exchange next x y a = next a := by
    intro a inside
    apply exchange_other
    · rintro rfl
      exact notX inside
    · rintro rfl
      exact notY inside
  refine ⟨follow_redirect ring.follow (other z mem_cons_self) fun a inside =>
    other a (mem_cons_of_mem z inside), ring.nodup⟩

/-- The elements after `a` up to `x`, for a bounded number of steps. -/
def walkRing (next : α → α) (x : α) : Nat → α → List α
  | 0, _ => []
  | fuel + 1, a => if next a = x then [] else next a :: walkRing next x fuel (next a)

lemma walkRing_eq {a : α} (follow : Follow next (a :: (l ++ [x]))) (fresh : x ∉ l)
    (enough : l.length ≤ fuel) : walkRing next x fuel a = l := by
  induction l generalizing fuel a with
  | nil =>
    have back := follow_pair.mp follow
    cases fuel with
    | zero => rfl
    | succ fuel => exact if_pos back
  | cons b l ih =>
    rw [cons_append, follow_cons] at follow
    obtain ⟨step, rest⟩ := follow
    rw [mem_cons, not_or] at fresh
    cases fuel with
    | zero => cases enough
    | succ fuel =>
      have onward : ¬next a = x := by
        rw [step]
        exact fun same => fresh.1 same.symm
      rw [walkRing, if_neg onward, step, ih rest fresh.2 (by simpa using enough)]

lemma Ring.walk (ring : Ring next x l) (enough : l.length ≤ fuel) : walkRing next x fuel x = l :=
  walkRing_eq ring.follow (nodup_cons.mp ring.nodup).1 enough

end SuccessorRings
