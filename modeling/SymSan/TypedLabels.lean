import Mathlib.Data.Finset.Image
import Mathlib.Data.Finset.Range
import SymSan.Denotation

/-!
# Well-typed labels

The sub-DAG of a label, the input bytes that occur in it, and when its records
are well typed: every symbolic operand has the width the operation asks for and
every constant is recorded zero-extended. The opcodes are those of integer
code; string functions, bounds and pointers are not among them.
-/

namespace TypedLabels

open LabelTable Denotation

variable {l : Nat} {info : Nat → LabelInfo} {k : Nat}

/-- `k` is reached from `l` by following operands. The second field of a Load is
a count. -/
inductive InDag (info : Nat → LabelInfo) : Nat → Nat → Prop where
  | self {l : Nat} : InDag info l l
  | first {l k : Nat} (symbolic : (info l).l1 ≠ 0) (rest : InDag info (info l).l1 k) :
      InDag info l k
  | second {l k : Nat} (symbolic : (info l).l2 ≠ 0) (notLoad : (info l).op ≠ .load)
      (rest : InDag info (info l).l2 k) : InDag info l k

lemma forall_inDag {P : Nat → Prop} :
    (∀ k, InDag info l k → P k) ↔
      P l ∧ ((info l).l1 ≠ 0 → ∀ k, InDag info (info l).l1 k → P k) ∧
        ((info l).l2 ≠ 0 → (info l).op ≠ .load → ∀ k, InDag info (info l).l2 k → P k) := by
  constructor
  · intro all
    exact ⟨all l .self, fun ne k rest => all k (.first ne rest),
      fun ne notLoad k rest => all k (.second ne notLoad rest)⟩
  rintro ⟨root, left, right⟩ k reach
  cases reach with
  | self => exact root
  | first ne rest => exact left ne k rest
  | second ne notLoad rest => exact right ne notLoad k rest

lemma inDag_mem {dag : List Nat}
    (closed : ∀ k ∈ dag, ((info k).l1 ≠ 0 → (info k).l1 ∈ dag) ∧ ((info k).l2 ≠ 0 →
      (info k).op ≠ .load → (info k).l2 ∈ dag)) (root : l ∈ dag) (reach : InDag info l k) :
    k ∈ dag := by
  induction reach with
  | self => exact root
  | first symbolic rest ih => exact ih ((closed _ root).1 symbolic)
  | second symbolic notLoad rest ih => exact ih ((closed _ root).2 symbolic notLoad)

/-- The input bytes, as (input, offset) pairs, that a record itself names. -/
def ownInputs (info : Nat → LabelInfo) (l : Nat) : Finset (Nat × Nat) :=
  match (info l).op with
  | .input => {((info l).op2 % 2 ^ 32, (info l).op1 % 2 ^ 32)}
  | .load => (Finset.range (info l).l2).image fun i =>
      ((info (info l).l1).op2 % 2 ^ 32, ((info (info l).l1).op1 + i) % 2 ^ 32)
  | _ => ∅

lemma ownInputs_eq_empty (notInput : (info l).op ≠ .input) (notLoad : (info l).op ≠ .load) :
    ownInputs info l = ∅ := by
  cases op : (info l).op with
  | input => exact absurd op notInput
  | load => exact absurd op notLoad
  | _ => simp [ownInputs]

/-- The pair occurs in the sub-DAG of `l`. -/
def Occurs (info : Nat → LabelInfo) (l : Nat) (o : Nat × Nat) : Prop :=
  ∃ k, InDag info l k ∧ o ∈ ownInputs info k

lemma occurs_iff {o : Nat × Nat} :
    Occurs info l o ↔ o ∈ ownInputs info l ∨
      ((info l).l1 ≠ 0 ∧ Occurs info (info l).l1 o) ∨
        ((info l).l2 ≠ 0 ∧ (info l).op ≠ .load ∧ Occurs info (info l).l2 o) := by
  constructor
  · rintro ⟨k, reach, own⟩
    cases reach with
    | self => exact .inl own
    | first ne rest => exact .inr (.inl ⟨ne, k, rest, own⟩)
    | second ne notLoad rest => exact .inr (.inr ⟨ne, notLoad, k, rest, own⟩)
  · rintro (own | ⟨ne, k, rest, own⟩ | ⟨ne, notLoad, k, rest, own⟩)
    · exact ⟨l, .self, own⟩
    · exact ⟨k, .first ne rest, own⟩
    · exact ⟨k, .second ne notLoad rest, own⟩

/-- An operand of an operation at width `w`: a label of that width or a constant
that fits. -/
def Fits (info : Nat → LabelInfo) (l const w : Nat) : Prop :=
  if l = 0 then const < 2 ^ w else width (info l) = w

/-- The record of an operation whose two operands have its own width, at most 64. -/
def SameWidth (info : Nat → LabelInfo) (r : LabelInfo) : Prop :=
  1 ≤ r.size ∧ r.size ≤ 64 ∧ Fits info r.l1 r.op1 r.size ∧ Fits info r.l2 r.op2 r.size

/-- The opcodes that work at the width of their operands. -/
def isSameWidth : Operator → Bool
  | .add | .sub | .mul | .udiv | .sdiv | .urem | .srem | .shl | .lshr | .ashr => true
  | .and | .or | .xor | .icmp _ => true
  | _ => false

/-- A record is well typed over the records of its operands. -/
def Typed (info : Nat → LabelInfo) (r : LabelInfo) : Prop :=
  match r.op with
  | .input => r.l1 = 0 ∧ r.l2 = 0 ∧ r.size = 8
  | .load => r.l1 ≠ 0 ∧ (info r.l1).op = .input ∧ 1 ≤ r.l2 ∧ r.size = 8 * r.l2
  | .zext | .sext => r.l1 ≠ 0 ∧ r.l2 = 0 ∧ width (info r.l1) ≤ r.size
  | .trunc => r.l1 ≠ 0 ∧ r.l2 = 0 ∧ r.size ≤ width (info r.l1)
  | .extract => r.l1 ≠ 0 ∧ r.l2 = 0 ∧ r.op2 + r.size ≤ width (info r.l1)
  | .concat => (r.l1 ≠ 0 ∨ r.l2 ≠ 0) ∧ width1 info r + width2 info r = r.size ∧
      Fits info r.l1 r.op1 (width1 info r) ∧ Fits info r.l2 r.op2 (width2 info r)
  | .not => r.l1 = 0 ∧ r.l2 ≠ 0 ∧ r.size = 1 ∧ width (info r.l2) = 1
  | op => isSameWidth op = true ∧ SameWidth info r

instance (info : Nat → LabelInfo) (l const w : Nat) : Decidable (Fits info l const w) :=
  inferInstanceAs (Decidable (if l = 0 then const < 2 ^ w else width (info l) = w))

instance (info : Nat → LabelInfo) (r : LabelInfo) : Decidable (SameWidth info r) :=
  inferInstanceAs (Decidable (_ ∧ _))

instance (info : Nat → LabelInfo) (r : LabelInfo) : Decidable (Typed info r) := by
  unfold Typed
  split <;> infer_instance

def IsCast (op : Operator) : Prop := op = .zext ∨ op = .sext ∨ op = .trunc ∨ op = .extract

lemma Typed.cases {r : LabelInfo} (typed : Typed info r) :
    r.op = .input ∨ r.op = .load ∨ IsCast r.op ∨ r.op = .not ∨ r.op = .concat ∨
      (isSameWidth r.op = true ∧ SameWidth info r) := by
  simp only [Typed] at typed
  split at typed
  · exact .inl (by assumption)
  · exact .inr (.inl (by assumption))
  · exact .inr (.inr (.inl (.inl (by assumption))))
  · exact .inr (.inr (.inl (.inr (.inl (by assumption)))))
  · exact .inr (.inr (.inl (.inr (.inr (.inl (by assumption))))))
  · exact .inr (.inr (.inl (.inr (.inr (.inr (by assumption))))))
  · exact .inr (.inr (.inr (.inr (.inl (by assumption)))))
  · exact .inr (.inr (.inr (.inl (by assumption))))
  · exact .inr (.inr (.inr (.inr (.inr typed))))

/-- Every record of the sub-DAG is well typed, comes after its operands and has a
16-bit size field. -/
def WellTyped (info : Nat → LabelInfo) (l : Nat) : Prop :=
  ∀ k, InDag info l k → k ≠ 0 ∧ Ordered info k ∧ Typed info (info k) ∧ (info k).size < 2 ^ 16

section WellTyped

variable {info : Nat → LabelInfo} {l : Nat}

lemma inDag_le (ordered : ∀ x, InDag info l x → Ordered info x) (reach : InDag info l k) :
    k ≤ l := by
  induction reach with
  | self => exact Nat.le_refl _
  | @first l k symbolic rest ih =>
    have before := (ordered l .self).1
    have le := ih fun x below => ordered x (.first symbolic below)
    omega
  | @second l k symbolic notLoad rest ih =>
    have before := (ordered l .self).2 notLoad
    have le := ih fun x below => ordered x (.second symbolic notLoad below)
    omega

/-- A property of the records up to `n` is one of the sub-DAGs of their labels. -/
lemma dag_of_range {n : Nat} {Q : Nat → Prop}
    (all : ∀ k < n + 1, 1 ≤ k → Ordered info k ∧ Q k) (range : 1 ≤ l ∧ l ≤ n) (k : Nat)
    (reach : InDag info l k) : k ≠ 0 ∧ Ordered info k ∧ Q k := by
  have here : 1 ≤ k ∧ k ≤ n := by
    induction reach with
    | self => exact range
    | @first l k symbolic rest ih =>
      have before := (all l (by omega) range.1).1.1
      exact ih (by omega)
    | @second l k symbolic notLoad rest ih =>
      have before := (all l (by omega) range.1).1.2 notLoad
      exact ih (by omega)
  exact ⟨by omega, all k (by omega) here.1⟩

variable (wt : WellTyped info l)

include wt

lemma WellTyped.first (ne : (info l).l1 ≠ 0) : WellTyped info (info l).l1 :=
  (forall_inDag.mp wt).2.1 ne

lemma WellTyped.second (ne : (info l).l2 ≠ 0) (notLoad : (info l).op ≠ .load) :
    WellTyped info (info l).l2 :=
  (forall_inDag.mp wt).2.2 ne notLoad

lemma WellTyped.root : l ≠ 0 ∧ Ordered info l ∧ Typed info (info l) ∧ (info l).size < 2 ^ 16 :=
  wt l .self

lemma WellTyped.le (reach : InDag info l k) : k ≤ l :=
  inDag_le (fun x below => (wt x below).2.1) reach

end WellTyped

end TypedLabels
