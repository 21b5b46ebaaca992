import Mathlib.Algebra.Order.Ring.Nat
import Mathlib.Data.Nat.Bitwise

/-!
# Shadow memory

`shadow_for` clears the three top bits of an application address and scales it by the size of a
label; `app_for` goes back. The numbers are those of the mapping on x86_64.
-/

namespace ShadowMapping

def kShadowAddr : Nat := 0x100000
def kHashTableAddr : Nat := 0x400000000000
def kUnionTableAddr : Nat := 0x400100000000
def kAppAddr : Nat := 0x700000040000
def kAppBaseAddr : Nat := 0x700000000000
def kShadowMask : Nat := 2 ^ 64 - 1 - 0x700000000000

def hashtableSize : Nat := 2 ^ 32
def uniontableSize : Nat := 0xc00000000

def shadowFor (ptr : Nat) : Nat := ((ptr &&& kShadowMask) <<< 2) % 2 ^ 64

def appFor (l : Nat) : Nat := (l >>> 2) ||| kAppBaseAddr

def InApp (a : Nat) : Prop := kAppAddr ≤ a ∧ a < 2 ^ 47
def InShadow (a : Nat) : Prop := kShadowAddr ≤ a ∧ a < kHashTableAddr
def InHashTable (a : Nat) : Prop := kHashTableAddr ≤ a ∧ a < kHashTableAddr + hashtableSize
def InUnionTable (a : Nat) : Prop := kUnionTableAddr ≤ a ∧ a < kUnionTableAddr + uniontableSize

variable {p : Nat}

/-- Below `2 ^ 47` the mask keeps the 44 low bits. -/
lemma and_kShadowMask (hp : p < 2 ^ 47) : p &&& kShadowMask = p % 2 ^ 44 := by
  have hlow : kShadowMask % 2 ^ 47 = 2 ^ 44 - 1 := by decide
  calc p &&& kShadowMask = (p &&& kShadowMask) % 2 ^ 47 :=
        (Nat.mod_eq_of_lt (Nat.lt_of_le_of_lt Nat.and_le_left hp)).symm
    _ = p &&& (2 ^ 44 - 1) := by rw [Nat.and_mod_two_pow, Nat.mod_eq_of_lt hp, hlow]
    _ = p % 2 ^ 44 := Nat.and_two_pow_sub_one_eq_mod p 44

/-- What a cell has to do with its byte. -/
lemma shadowFor_eq (hp : InApp p) :
    shadowFor p = 4 * (p - kAppBaseAddr) ∧ p - kAppBaseAddr < 2 ^ 44 ∧ kAppAddr ≤ p := by
  unfold InApp kAppAddr at *
  rw [shadowFor, and_kShadowMask hp.2, Nat.shiftLeft_eq]
  unfold kAppBaseAddr
  omega

lemma appFor_shadowFor (hp : InApp p) : appFor (shadowFor p) = p := by
  obtain ⟨hcell, hlow, _⟩ := shadowFor_eq hp
  have hor : kAppBaseAddr + (p - kAppBaseAddr) = kAppBaseAddr ||| (p - kAppBaseAddr) :=
    Nat.two_pow_add_eq_or_of_lt hlow 7
  rw [appFor, hcell, Nat.shiftRight_eq_div_pow, Nat.mul_div_cancel_left _ (by decide), Nat.or_comm,
    ← hor]
  unfold kAppAddr kAppBaseAddr at *
  omega

/-- The cells of consecutive bytes are consecutive, those of two bytes are apart, `app_for` finds
the byte again, and a cell meets no other region. -/
theorem shadow_mapping (p : Nat) (hp : InApp p) :
    (∀ n, InApp (p + n) → shadowFor (p + n) = shadowFor p + 4 * n) ∧
    (∀ q, InApp q → p ≠ q → shadowFor p + 4 ≤ shadowFor q ∨ shadowFor q + 4 ≤ shadowFor p) ∧
    appFor (shadowFor p) = p ∧
    ∀ a, shadowFor p ≤ a → a < shadowFor p + 4 →
      InShadow a ∧ ¬ InHashTable a ∧ ¬ InUnionTable a ∧ ¬ InApp a := by
  obtain ⟨hcell, _, _⟩ := shadowFor_eq hp
  refine ⟨fun n hn => ?_, fun q hq hne => ?_, appFor_shadowFor hp, fun a hfirst hlast => ?_⟩
  · rw [(shadowFor_eq hn).1, hcell]
    unfold kAppAddr kAppBaseAddr at *
    omega
  · rw [(shadowFor_eq hq).1, hcell]
    unfold InApp kAppAddr kAppBaseAddr at *
    omega
  · unfold InShadow InHashTable InUnionTable InApp kShadowAddr kHashTableAddr kUnionTableAddr
      hashtableSize uniontableSize kAppAddr kAppBaseAddr at *
    omega

theorem shadow_mapping_first :
    InApp kAppAddr ∧ shadowFor kAppAddr = kShadowAddr ∧ appFor (shadowFor kAppAddr) = kAppAddr := by
  have hfirst : InApp kAppAddr := ⟨by decide, by decide⟩
  exact ⟨hfirst, by decide, (shadow_mapping kAppAddr hfirst).2.2.1⟩

end ShadowMapping
