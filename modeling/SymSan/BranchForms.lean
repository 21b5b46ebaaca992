import SymSan.ClauseForms
import SymSan.Denotation
import SymSan.RgdAst

/-!
# Negation and clausal form of a branch condition

`to_nnf` turns the formula of a branch into one that holds when the branch goes
the other way, with negations only at the leaves, and `to_dnf` lists its clauses.
A Memcmp leaf changes its meaning on the way: before, it stands for two buffers
that differ, as a truth value of the result of `memcmp`; afterwards it asks for
equal buffers and MemcmpN for different ones.
-/

namespace BranchForms

open LabelTable RgdAst ClauseForms

variable {R : Nat → Prop} {d : NodeData} {q : Predicate} {a b : AstNode}

/-! ## The two transformations -/

/-- A leaf for which the false branch is wanted. -/
def negateLeaf (node : AstNode) : Option AstNode :=
  if isRelationalKind node.kind then some (node.update (·.setKind (negateCmp node.kind)))
  else if node.kind = .memcmp then some node
  else none

/-- `to_nnf`; copying a child over its parent leaves the child. -/
def toNnf : Bool → AstNode → Option AstNode
  | false, .leaf d =>
    match d.kind with
    | .lnot | .land | .lor => none
    | _ => negateLeaf (.leaf d)
  | false, .node1 d a =>
    match d.kind with
    | .lnot => toNnf true a
    | .land | .lor => none
    | _ => negateLeaf (.node1 d a)
  | false, .node2 d a b =>
    match d.kind with
    | .lnot => none
    | .land => (toNnf false a).bind fun a => (toNnf false b).map (.node2 (d.setKind .lor) a)
    | .lor => (toNnf false a).bind fun a => (toNnf false b).map (.node2 (d.setKind .land) a)
    | _ => negateLeaf (.node2 d a b)
  | true, .leaf d =>
    match d.kind with
    | .lnot => none
    | .memcmp => some (.leaf (d.setKind .memcmpN))
    | _ => some (.leaf d)
  | true, .node1 d a =>
    match d.kind with
    | .lnot => toNnf false a
    | .memcmp => some (.node1 (d.setKind .memcmpN) a)
    | _ => (toNnf true a).map (.node1 d)
  | true, .node2 d a b =>
    match d.kind with
    | .lnot => none
    | .memcmp => some (.node2 (d.setKind .memcmpN) a b)
    | _ => (toNnf true a).bind fun a => (toNnf true b).map (.node2 d a)

/-- The clauses of a conjunction, added to those found so far. -/
def conjoin (left right formula : List (List AstNode)) : List (List AstNode) :=
  if left.length = 0 then right else formula ++ product left right

/-- `to_dnf`; a child that does not exist reads as the dummy node. -/
def toDnf : AstNode → List (List AstNode) → List (List AstNode)
  | .leaf d, formula =>
    let dummy := [[AstNode.fresh]]
    match d.kind with
    | .land => conjoin dummy dummy formula
    | .lor => formula ++ dummy ++ dummy
    | _ => formula ++ [[.leaf d]]
  | .node1 d a, formula =>
    let dummy := [[AstNode.fresh]]
    match d.kind with
    | .land => conjoin (toDnf a []) dummy formula
    | .lor => toDnf a formula ++ dummy
    | _ => formula ++ [[.node1 d a]]
  | .node2 d a b, formula =>
    match d.kind with
    | .land => conjoin (toDnf a []) (toDnf b []) formula
    | .lor => toDnf b (toDnf a formula)
    | _ => formula ++ [[.node2 d a b]]

/-! ## Meaning -/

/-- Values for the operands of the comparisons and the buffers, by label. -/
structure Assignment where
  width : Nat → Nat
  first : (l : Nat) → BitVec (width l)
  second : (l : Nat) → BitVec (width l)
  differ : Nat → Bool

def related (A : Assignment) (d : NodeData) : Bool :=
  match predicateOf d.kind with
  | some q => Denotation.compare q (A.first d.label) (A.second d.label)
  | none => false

/-- A leaf before `to_nnf`. -/
def leafValue (A : Assignment) (d : NodeData) : Bool :=
  if d.kind = .memcmp then A.differ d.label else related A d

/-- An atom after `to_nnf`. -/
def atomHolds (A : Assignment) (d : NodeData) : Bool :=
  match d.kind with
  | .memcmp => !A.differ d.label
  | .memcmpN => A.differ d.label
  | _ => related A d

def value (A : Assignment) : AstNode → Bool
  | .leaf d => leafValue A d
  | .node1 d a => if d.kind = .lnot then !value A a else leafValue A d
  | .node2 d a b =>
    match d.kind with
    | .land => value A a && value A b
    | .lor => value A a || value A b
    | _ => leafValue A d

/-- The value of a formula without negations, over atoms. -/
def nnfValue (A : Assignment) : AstNode → Bool
  | .leaf d => atomHolds A d
  | .node1 d _ => atomHolds A d
  | .node2 d a b =>
    match d.kind with
    | .land => nnfValue A a && nnfValue A b
    | .lor => nnfValue A a || nnfValue A b
    | _ => atomHolds A d

/-! ## Leaves -/

/-- The kinds of atoms after `to_nnf`. -/
def isClauseKind (k : AstKind) : Bool :=
  isRelationalKind k || decide (k = .memcmp) || decide (k = .memcmpN)

lemma compare_negateCmp {k : AstKind} (known : predicateOf k = some q) :
    ∃ q', predicateOf (negateCmp k) = some q' ∧ ∀ {w : Nat} (a b : BitVec w),
      Denotation.compare q' a b = ! Denotation.compare q a b := by
  cases k <;> cases known <;> refine ⟨_, rfl, fun a b => ?_⟩ <;>
    simp [BitVec.ule_eq_not_ult, BitVec.sle_eq_not_slt, bne, Denotation.compare]

lemma toNnf_relational (relational : isRelationalKind d.kind = true) :
    toNnf false (.leaf d) = some (.leaf (d.setKind (negateCmp d.kind))) ∧
      toNnf true (.leaf d) = some (.leaf d) := by
  constructor
  · simp only [toNnf]
    split
    iterate 3
      next kind =>
        rw [kind] at relational
        cases relational
    · exact if_pos relational
  · simp only [toNnf]
    split
    iterate 2
      next kind =>
        rw [kind] at relational
        cases relational
    · rfl

lemma atomHolds_relational {A : Assignment} (known : predicateOf d.kind = some q) :
    atomHolds A d = Denotation.compare q (A.first d.label) (A.second d.label) := by
  simp only [atomHolds]
  split
  iterate 2
    next kind =>
      rw [kind] at known
      cases known
  · rw [related, known]

lemma toNnf_comparison (atom : Labelled isRelationalKind R d) (expected : Bool) :
    ∃ d', toNnf expected (.leaf d) = some (.leaf d') ∧
      Labelled isRelationalKind R d' ∧ ∀ A, atomHolds A d' = (leafValue A d == expected) := by
  obtain ⟨relational, label⟩ := atom
  obtain ⟨made, kept⟩ := toNnf_relational relational
  obtain ⟨q, known⟩ := isRelationalKind_iff.mp relational
  obtain ⟨q', known', opposite⟩ := compare_negateCmp known
  have mem : d.kind ≠ .memcmp := by
    intro mem
    rw [mem] at relational
    cases relational
  have before : ∀ A, leafValue A d =
      Denotation.compare q (A.first d.label) (A.second d.label) := by
    intro A
    rw [leafValue, if_neg mem, related, known]
  cases expected with
  | false =>
    have negated : predicateOf (d.setKind (negateCmp d.kind)).kind = some q' := known'
    refine ⟨_, made, ⟨isRelationalKind_iff.mpr ⟨q', negated⟩, label⟩, fun A => ?_⟩
    rw [atomHolds_relational negated, before, beq_false]
    exact opposite _ _
  | true =>
    refine ⟨d, kept, ⟨relational, label⟩, fun A => ?_⟩
    rw [atomHolds_relational known, before, beq_true]

lemma toNnf_leaf (atom : Labelled isAtomKind R d) (expected : Bool) :
    ∃ d', toNnf expected (.leaf d) = some (.leaf d') ∧
      Labelled isClauseKind R d' ∧ ∀ A, atomHolds A d' = (leafValue A d == expected) := by
  obtain ⟨kind, label⟩ := atom
  by_cases mem : d.kind = .memcmp
  · cases expected with
    | false =>
      refine ⟨d, ?_, ⟨by rw [mem]; rfl, label⟩, fun A => ?_⟩
      · simp [toNnf, mem, negateLeaf, AstNode.kind, AstNode.data, isRelationalKind]
      · simp [atomHolds, leafValue, mem]
    | true =>
      refine ⟨d.setKind .memcmpN, ?_, ⟨rfl, label⟩, fun A => ?_⟩
      · simp [toNnf, mem]
      · simp [atomHolds, leafValue, mem, NodeData.setKind]
  · have relational : isRelationalKind d.kind = true := by
      simpa [isAtomKind, mem] using kind
    obtain ⟨d', made, ⟨kind', label'⟩, holds⟩ := toNnf_comparison ⟨relational, label⟩ expected
    exact ⟨d', made, ⟨by simp [isClauseKind, kind'], label'⟩, holds⟩

/-! ## Trees -/

/-- A formula without negations. -/
inductive Nnf (atom : NodeData → Prop) : AstNode → Prop where
  | leaf {d : NodeData} (admitted : atom d) : Nnf atom (.leaf d)
  | land {d : NodeData} {a b : AstNode} (kind : d.kind = .land) (left : Nnf atom a)
      (right : Nnf atom b) : Nnf atom (.node2 d a b)
  | lor {d : NodeData} {a b : AstNode} (kind : d.kind = .lor) (left : Nnf atom a)
      (right : Nnf atom b) : Nnf atom (.node2 d a b)

lemma Nnf.connective {atom : NodeData → Prop} {d : NodeData} {keeps : Prop} [Decidable keeps]
    (kind : d.kind = if keeps then .land else .lor) (left : Nnf atom a) (right : Nnf atom b) :
    Nnf atom (.node2 d a b) := by
  split at kind
  · exact .land kind left right
  · exact .lor kind left right

/-- And and Or keep their kind if the true branch is wanted. -/
lemma toNnf_connective {d : NodeData} {a b a' b' : AstNode} {expected : Bool}
    (kind : d.kind = .land ∨ d.kind = .lor) (madeA : toNnf expected a = some a')
    (madeB : toNnf expected b = some b') :
    ∃ d', toNnf expected (.node2 d a b) = some (.node2 d' a' b') ∧
      d'.kind = if d.kind = .land ↔ expected = true then .land else .lor := by
  rcases kind with kind | kind <;> cases expected <;>
    simp [toNnf, kind, madeA, madeB, NodeData.setKind]

/-- `to_nnf` succeeds on every formula and the result has the value true exactly when
the formula has the wanted one. -/
lemma toNnf_rule {atom atom' : NodeData → Prop} {t : AstNode}
    (leaf : ∀ d, atom d → ∀ expected, ∃ d', toNnf expected (.leaf d) = some (.leaf d') ∧
      atom' d' ∧ ∀ A, atomHolds A d' = (leafValue A d == expected))
    (formula : Formula atom False t) (expected : Bool) :
    ∃ t', toNnf expected t = some t' ∧ Nnf atom' t' ∧
      ∀ A, nnfValue A t' = (value A t == expected) := by
  induction formula generalizing expected with
  | @leaf d admitted =>
    obtain ⟨d', made, here, holds⟩ := leaf d admitted expected
    exact ⟨.leaf d', made, .leaf here, holds⟩
  | @lnot d a kind arg ih =>
    -- both directions pass the opposite one to the child
    obtain ⟨t', made, nnf, holds⟩ := ih (!expected)
    refine ⟨t', ?_, nnf, fun A => ?_⟩
    · cases expected <;> simpa [toNnf, kind] using made
    · rw [holds, value, if_pos kind]
      cases value A a <;> cases expected <;> rfl
  | @land d a b kind left right ihA ihB | @lor d a b kind left right ihA ihB =>
    obtain ⟨_, madeA, nnfA, holdsA⟩ := ihA expected
    obtain ⟨_, madeB, nnfB, holdsB⟩ := ihB expected
    obtain ⟨_, made, kind'⟩ := toNnf_connective (d := d) (by simp [kind]) madeA madeB
    refine ⟨_, made, .connective kind' nnfA nnfB, fun A => ?_⟩
    simp only [nnfValue, kind', kind, holdsA, holdsB, value]
    cases expected <;> cases value A a <;> cases value A b <;> rfl
  | xor kind allowed left right => exact allowed.elim

lemma toNnf_formula {t : AstNode} (formula : Formula (Labelled isAtomKind R) False t)
    (expected : Bool) :
    ∃ t', toNnf expected t = some t' ∧ Nnf (Labelled isClauseKind R) t' ∧
      ∀ A, nnfValue A t' = (value A t == expected) :=
  toNnf_rule (fun _ atom => toNnf_leaf atom) formula expected

section Clauses

variable {atom : NodeData → Prop} (clausal : ∀ d, atom d → isClauseKind d.kind = true) {t : AstNode}
include clausal

/-- The kinds of atoms are not connectives. -/
lemma toDnf_leaf (here : atom d) (formula : List (List AstNode)) :
    toDnf (.leaf d) formula = formula ++ [[.leaf d]] := by
  have kind := clausal d here
  simp only [toDnf]
  split
  next land =>
    rw [land] at kind
    cases kind
  next lor =>
    rw [lor] at kind
    cases kind
  · rfl

lemma toDnf_ne_nil (nnf : Nnf atom t) (formula : List (List AstNode)) : toDnf t formula ≠ [] := by
  induction nnf generalizing formula with
  | leaf here =>
    rw [toDnf_leaf clausal here]
    exact List.append_ne_nil_of_right_ne_nil _ (List.cons_ne_nil _ _)
  | land kind left right ihA ihB =>
    simp only [toDnf, kind, conjoin]
    split
    · exact ihB []
    · exact List.append_ne_nil_of_right_ne_nil _ (product_ne_nil (ihA []) (ihB []))
  | lor kind left right ihA ihB =>
    simp only [toDnf, kind]
    exact ihB _

/-- The branch for a conjunction without clauses is never taken. -/
lemma toDnf_land (kind : d.kind = .land) (left : Nnf atom a) (formula : List (List AstNode)) :
    toDnf (.node2 d a b) formula = formula ++ product (toDnf a []) (toDnf b []) := by
  simp only [toDnf, kind]
  exact if_neg fun empty => toDnf_ne_nil clausal left [] (List.length_eq_zero_iff.mp empty)

lemma toDnf_sat (nnf : Nnf atom t) (A : Assignment) (formula : List (List AstNode)) :
    Sat (fun a => atomHolds A a.data = true) (toDnf t formula) ↔
      Sat (fun a => atomHolds A a.data = true) formula ∨ nnfValue A t = true := by
  induction nnf generalizing formula with
  | leaf here => rw [toDnf_leaf clausal here, sat_append, sat_atom, nnfValue, AstNode.data]
  | land kind left right ihA ihB =>
    rw [toDnf_land clausal kind left, sat_append, sat_product, ihA, ihB]
    simp [not_sat_nil, nnfValue, kind]
  | lor kind left right ihA ihB =>
    simp [toDnf, kind, ihA, ihB, nnfValue, or_assoc]

lemma toDnf_atoms (nnf : Nnf atom t) {formula : List (List AstNode)}
    (before : Atoms (fun a => atom a.data) formula) :
    Atoms (fun a => atom a.data) (toDnf t formula) := by
  induction nnf generalizing formula with
  | leaf here =>
    rw [toDnf_leaf clausal here]
    exact atoms_append before (atoms_atom here)
  | land kind left right ihA ihB =>
    rw [toDnf_land clausal kind left]
    exact atoms_append before (atoms_product (ihA atoms_nil) (ihB atoms_nil))
  | lor kind left right ihA ihB =>
    simp only [toDnf, kind]
    exact ihB (ihA before)

end Clauses

/-- The trees that `to_nnf` and `to_dnf` are meant for. -/
abbrev Branch : AstNode → Prop := Formula (Labelled isAtomKind fun _ => True) False

/-- The clauses of the transformed formula are satisfied by exactly the assignments
that give the branch condition the wanted value. -/
theorem toDnf_toNnf_iff (expected : Bool) (t t' : AstNode) (branch : Branch t)
    (h : toNnf expected t = some t') (A : Assignment) :
    Sat (fun a => atomHolds A a.data = true) (toDnf t' []) ↔ value A t = expected := by
  obtain ⟨made, some, nnf, holds⟩ := toNnf_formula branch expected
  have same : made = t' := Option.some.inj (some.symm.trans h)
  subst same
  rw [toDnf_sat (fun _ atom => atom.1) nnf, holds, or_iff_right not_sat_nil, beq_iff_eq]

/-- The false branch of `¬(memcmp ∧ x < y)`. -/
theorem toDnf_toNnf_iff_negated_conjunction :
    let atom : AstKind → Nat → AstNode := fun kind label =>
      .leaf ((NodeData.fresh.setKind kind).setLabel label)
    let t : AstNode := .node1 (NodeData.fresh.setKind .lnot)
      (.node2 (NodeData.fresh.setKind .land) (atom .memcmp 3) (atom .slt 5))
    ∃ t', toNnf false t = some t' ∧ toDnf t' [] = [[atom .memcmpN 3, atom .slt 5]] ∧
      ∀ A, Sat (fun a => atomHolds A a.data = true) (toDnf t' []) ↔ value A t = false := by
  intro atom t
  have branch : Branch t := .lnot rfl (.land rfl (.leaf ⟨rfl, trivial⟩) (.leaf ⟨rfl, trivial⟩))
  exact ⟨_, rfl, rfl, toDnf_toNnf_iff false t _ branch rfl⟩

end BranchForms
