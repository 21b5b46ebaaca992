import Mathlib.Algebra.Order.Ring.Nat

/-!
# Argument shadows across a call

`visitCallBase` stores the shadows of a call's arguments one after another into the thread-local
argument area, and `getShadowForTLSArgument` finds each of them again from the parameter list of
the callee. Both count in `unsigned`, so a shadow of 4 GiB takes no room in their sums.
-/

namespace ArgumentShadows

/-- A sized type, as far as `getShadowTy` tells types apart: every type that is neither an array
nor a struct has the primitive shadow. -/
inductive Ty where
  | primitive
  | array (element : Ty) (numElements : Nat)
  | struct (elements : List Ty)

mutual

/-- The bytes of `getShadowTy` of a type. The primitive shadow is an `i32`, so nothing is padded.
The data layout adds up in `uint64_t`; that wrapping is lost in the `unsigned` the pass keeps. -/
def Ty.shadowSize : Ty → Nat
  | .primitive => 4
  | .array t n => n * t.shadowSize
  | .struct ts => shadowSizes ts

def shadowSizes : List Ty → Nat
  | [] => 0
  | t :: ts => t.shadowSize + shadowSizes ts

end

def argTLSSize : Nat := 800

def shadowTLSAlignment : Nat := 4

def alignTo (size : Nat) : Nat :=
  (size + shadowTLSAlignment - 1) / shadowTLSAlignment * shadowTLSAlignment

/-- `unsigned Size = DL.getTypeAllocSize(..)`. -/
def Ty.size (t : Ty) : Nat := t.shadowSize % 2 ^ 32

/-- The argument loop of `visitCallBase`: the offsets at which it stores the shadows of the
parameters, up to the first one that does not fit. -/
def storeShadows (argOffset : Nat) : List Ty → List Nat
  | [] => []
  | t :: ts =>
    if argTLSSize < (argOffset + t.size) % 2 ^ 32 then []
    else argOffset :: storeShadows ((argOffset + alignTo t.size) % 2 ^ 32) ts

/-- `getShadowForTLSArgument` for the parameter at `i`: the offset it loads from, `none` for the
zero shadow. -/
def getShadowForTLSArgument (argOffset : Nat) : List Ty → Nat → Option Nat
  | [], _ => none
  | t :: _, 0 => if argTLSSize < (argOffset + t.size) % 2 ^ 32 then none else some argOffset
  | t :: ts, i + 1 =>
    if argTLSSize < (argOffset + alignTo t.size) % 2 ^ 32 then none
    else getShadowForTLSArgument ((argOffset + alignTo t.size) % 2 ^ 32) ts i

mutual

lemma Ty.dvd_shadowSize (t : Ty) : 4 ∣ t.shadowSize := by
  cases t with
  | primitive => exact Nat.dvd_refl 4
  | array t n => exact Nat.dvd_mul_left_of_dvd t.dvd_shadowSize n
  | struct ts => exact dvd_shadowSizes ts

lemma dvd_shadowSizes (ts : List Ty) : 4 ∣ shadowSizes ts := by
  cases ts with
  | nil => exact Nat.dvd_zero 4
  | cons t ts => exact Nat.dvd_add t.dvd_shadowSize (dvd_shadowSizes ts)

end

/-- Every shadow is a whole number of labels, so both loops advance by the size itself. -/
lemma Ty.alignTo_size (t : Ty) : alignTo t.size = t.size := by
  have h := t.dvd_shadowSize
  unfold alignTo shadowTLSAlignment Ty.size
  omega

/-- The test the callee makes on the next offset is the one the caller made on this shadow. -/
lemma getShadowForTLSArgument_eq (argOffset : Nat) (ts : List Ty) (i : Nat) :
    getShadowForTLSArgument argOffset ts i = (storeShadows argOffset ts)[i]? := by
  induction ts generalizing argOffset i with
  | nil => simp [getShadowForTLSArgument, storeShadows]
  | cons t ts ih =>
    rw [storeShadows, t.alignTo_size]
    cases i with
    | zero =>
      rw [getShadowForTLSArgument]
      split
      · rfl
      · rfl
    | succ i =>
      rw [getShadowForTLSArgument, t.alignTo_size, ih]
      split
      · rfl
      · rfl

/-- The first shadow that does not fit into the area behind those before it is seen not to fit:
the sum in `unsigned` is beyond the area, too. -/
def Noticed (argOffset : Nat) : List Ty → Prop
  | [] => True
  | t :: ts =>
    if argOffset + t.shadowSize ≤ argTLSSize then Noticed (argOffset + t.shadowSize) ts
    else argTLSSize < (argOffset + t.shadowSize) % 2 ^ 32

/-- Shadows laid one after another from `argOffset` on, all within the area. -/
structure Laid (argOffset : Nat) (stored : List (Nat × Ty)) : Prop where
  from_offset : ∀ a ∈ stored, argOffset ≤ a.1
  inside : ∀ a ∈ stored, a.1 + a.2.shadowSize ≤ argTLSSize
  apart : stored.Pairwise fun a b => a.1 + a.2.shadowSize ≤ b.1

section Stored

variable {argOffset : Nat} {ts : List Ty}

/-- The loops see the sum of the offset and the shadow's own size, in 32 bits. -/
lemma add_size_mod (argOffset : Nat) (t : Ty) :
    (argOffset + t.size) % 2 ^ 32 = (argOffset + t.shadowSize) % 2 ^ 32 :=
  Nat.add_mod_mod _ _ _

lemma storeShadows_laid (noticed : Noticed argOffset ts) :
    Laid argOffset ((storeShadows argOffset ts).zip ts) := by
  induction ts generalizing argOffset with
  | nil => exact ⟨by simp, by simp, by simp⟩
  | cons t ts ih =>
    rw [storeShadows, t.alignTo_size, add_size_mod]
    rw [Noticed] at noticed
    by_cases hfits : argOffset + t.shadowSize ≤ argTLSSize
    · rw [if_pos hfits] at noticed
      have small : (argOffset + t.shadowSize) % 2 ^ 32 = argOffset + t.shadowSize := by
        simp only [argTLSSize] at hfits
        omega
      have rest := ih noticed
      rw [small, if_neg (Nat.not_lt.mpr hfits)]
      refine ⟨?_, ?_, .cons rest.from_offset rest.apart⟩
      · rintro a (_ | ⟨_, ha⟩)
        · exact Nat.le_refl _
        · exact Nat.le_trans (Nat.le_add_right _ _) (rest.from_offset a ha)
      · rintro a (_ | ⟨_, ha⟩)
        · exact hfits
        · exact rest.inside a ha
    · rw [if_neg hfits] at noticed
      rw [if_pos noticed]
      exact ⟨by simp, by simp, .nil⟩

lemma noticed_of_inside
    (inside : ∀ a ∈ (storeShadows argOffset ts).zip ts, a.1 + a.2.shadowSize ≤ argTLSSize) :
    Noticed argOffset ts := by
  induction ts generalizing argOffset with
  | nil => trivial
  | cons t ts ih =>
    rw [storeShadows, t.alignTo_size, add_size_mod] at inside
    rw [Noticed]
    by_cases stops : argTLSSize < (argOffset + t.shadowSize) % 2 ^ 32
    · have large : ¬ argOffset + t.shadowSize ≤ argTLSSize := fun hfits =>
        Nat.not_lt.mpr hfits (Nat.lt_of_lt_of_le stops (Nat.mod_le _ _))
      rw [if_neg large]
      exact stops
    · rw [if_neg stops] at inside
      have hfits : argOffset + t.shadowSize ≤ argTLSSize := inside (argOffset, t) (.head _)
      have small : (argOffset + t.shadowSize) % 2 ^ 32 = argOffset + t.shadowSize := by
        simp only [argTLSSize] at hfits
        omega
      rw [if_pos hfits]
      rw [small] at inside
      exact ih fun a ha => inside a (.tail _ ha)

end Stored

/-- Caller and callee agree on the offset of every parameter, whatever the types. The stored ranges
are disjoint and inside the area just if the first shadow that does not fit is noticed. -/
theorem argument_shadows_agree (ts : List Ty) :
    (∀ i, getShadowForTLSArgument 0 ts i = (storeShadows 0 ts)[i]?) ∧
      ((((storeShadows 0 ts).zip ts).Pairwise (fun a b => a.1 + a.2.shadowSize ≤ b.1) ∧
          ∀ a ∈ (storeShadows 0 ts).zip ts, a.1 + a.2.shadowSize ≤ argTLSSize) ↔
        Noticed 0 ts) := by
  refine ⟨getShadowForTLSArgument_eq 0 ts, fun ⟨_, inside⟩ => noticed_of_inside inside,
    fun noticed => ?_⟩
  have laid := storeShadows_laid noticed
  exact ⟨laid.apart, laid.inside⟩

/-- A shadow of `2 ^ 32 - 400` bytes does not fit and is seen not to, so nothing is stored behind
the first parameter. -/
theorem argument_shadows_agree_oversized :
    let ts : List Ty := [.primitive, .array .primitive (2 ^ 30 - 100), .primitive]
    storeShadows 0 ts = [0] ∧
      ∀ a ∈ (storeShadows 0 ts).zip ts, a.1 + a.2.shadowSize ≤ argTLSSize := by
  intro ts
  have noticed : Noticed 0 ts := by simp [ts, Noticed, Ty.shadowSize, argTLSSize]
  exact ⟨by decide, ((argument_shadows_agree ts).2.mpr noticed).2⟩

/-- An array of `2 ^ 30` elements has a shadow of `2 ^ 32` bytes, which count as 0: it is stored,
runs past the area, and the next parameter's shadow lands on it. -/
theorem huge_shadow_overlaps :
    storeShadows 0 [.array .primitive (2 ^ 30), .primitive] = [0, 0] ∧
      argTLSSize < 0 + (Ty.array .primitive (2 ^ 30)).shadowSize := by
  decide

end ArgumentShadows
