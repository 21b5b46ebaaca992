import SymSan.BranchForms
import SymSan.RootMeaning

/-!
# The atoms of a root formula

A leaf of the formula that `find_roots` builds is stamped with the label of a
comparison that has no comparison in its operands, as far as the scan can tell, and
with the operator of that label. `to_nnf` and `to_dnf` keep the label.
-/

namespace RootAtoms

open LabelTable Denotation RgdAst FindRoots RootWalk RootMeaning BranchForms
  ClauseForms
open Option (bind_eq_some_iff ite_none_left_eq_some ite_none_right_eq_some map_eq_some_iff)

/-! ## Leaves of a tree -/

/-- Every leaf of an atomic kind has the property `P`. -/
def Leaves (P : NodeData → Prop) : AstNode → Prop
  | .leaf d => isAtomKind d.kind = true → P d
  | .node1 _ a => Leaves P a
  | .node2 _ a b => Leaves P a ∧ Leaves P b

section Leaves

variable {P : NodeData → Prop} {t : AstNode}

lemma Leaves.mono {Q : NodeData → Prop} (leaves : Leaves P t) (weaker : ∀ d, P d → Q d) :
    Leaves Q t := by
  induction t with
  | leaf d => exact fun atom => weaker d (leaves atom)
  | node1 d a ih => exact ih leaves
  | node2 d a b ihA ihB => exact ⟨ihA leaves.1, ihB leaves.2⟩

end Leaves

/-! ## Processing -/

/-- The kind is the operator of the comparison. -/
def Stamped (r : LabelInfo) (kind : AstKind) : Prop :=
  (isIcmp r.op = true ∧ opMap r.op = some kind) ∨ (r.op = .fmemcmp ∧ kind = .memcmp)

/-- The kinds of a node with two children: And, Or and Xor are not built over constants. -/
def Connects (r : LabelInfo) (kind : AstKind) (a b : AstNode) : Prop :=
  kind = .bool ∨ kind = .lnot ∨
    (kind = .xor ∨ (kind = .land ∨ kind = .lor) ∧ (r.op = .and ∨ r.op = .or)) ∧
      a.kind ≠ .bool ∧ b.kind ≠ .bool

lemma Connects.logic {r : LabelInfo} {kind : AstKind} {a b : AstNode}
    (connects : Connects r kind a b) (isLogic : kind = .land ∨ kind = .lor) :
    r.op = .and ∨ r.op = .or := by
  rcases connects with rfl | rfl | ⟨rfl | ⟨-, op⟩, -⟩
  iterate 3
    · simp at isLogic
  · exact op

/-- The tree of a label over those of its kids: a constant, an atom if there are no kids, the
tree of a kid, or a connective. -/
inductive Built (r : LabelInfo) (label : Nat) (left right : Option AstNode) : AstNode → Prop where
  | constant {d : NodeData} (kind : d.kind = .bool) : Built r label left right (.leaf d)
  | atom {d : NodeData} (kind : isAtomKind d.kind = true) (noKids : left = none ∧ right = none)
      (isLabel : d.label = label) (stamped : Stamped r d.kind) : Built r label left right (.leaf d)
  | kid {a : AstNode} (isKid : left = some a ∨ right = some a) : Built r label left right a
  | unary {d : NodeData} {a : AstNode} (isKid : left = some a ∨ right = some a)
      (kind : d.kind = .bool ∨ d.kind = .lnot) : Built r label left right (.node1 d a)
  | binary {d : NodeData} {a b : AstNode} (isLeft : left = some a) (isRight : right = some b)
      (kind : Connects r d.kind a b) : Built r label left right (.node2 d a b)

section Processing

variable {p : Parser} {c c' : Caches} {r : LabelInfo} {label : Nat} {left right : Option AstNode}
  {t : AstNode} {q : Predicate}

lemma built_setBool (node : AstNode) (value : Nat) :
    Built r label left right (node.setBool value) :=
  .constant rfl

/-- A constant may keep its children, a negation has one at least. -/
lemma built_update {f g : NodeData → NodeData} (kind : (g (f NodeData.fresh)).kind = .bool ∨
      (g (f NodeData.fresh)).kind = .lnot ∧ (withKids left right).childrenSize ≠ 0) :
    Built r label left right (((withKids left right).update f).update g) := by
  cases left with
  | none =>
    cases right with
    | none => exact .constant (kind.resolve_right fun some => some.2 rfl)
    | some b => exact .unary (.inr rfl) (kind.imp_right And.left)
  | some a =>
    cases right with
    | none => exact .unary (.inl rfl) (kind.imp_right And.left)
    | some b => exact .binary rfl rfl (kind.imp_right fun some => .inl some.1)

lemma built_fresh : Built r label left right AstNode.fresh := .constant rfl

lemma built_child (i : Nat) : Built r label left right ((withKids left right).child i) := by
  cases left with
  | none =>
    cases right with
    | none => exact built_fresh
    | some b =>
      simp only [withKids, AstNode.child]
      split
      · exact .kid (.inr rfl)
      · exact built_fresh
  | some a =>
    cases right with
    | none =>
      simp only [withKids, AstNode.child]
      split
      · exact .kid (.inl rfl)
      · exact built_fresh
    | some b =>
      simp only [withKids, AstNode.child]
      split
      · exact .kid (.inl rfl)
      · exact .kid (.inr rfl)

lemma processNot_built (h : processNot r (withKids left right) = some t) :
    Built r label left right t := by
  simp only [processNot] at h
  obtain ⟨one, h⟩ := ite_none_left_eq_some.mp h
  obtain ⟨-, h⟩ := ite_none_left_eq_some.mp h
  split at h
  · cases h
    exact built_setBool _ _
  · cases h
    exact built_update (.inr ⟨rfl, by omega⟩)

lemma sides_built :
    (∀ a, (sides c r (withKids left right)).1 = some a → Built r label left right a) ∧
      ∀ b, (sides c r (withKids left right)).2 = some b → Built r label left right b := by
  constructor
  · intro a first
    obtain ⟨-, first⟩ := ite_none_right_eq_some.mp first
    cases first
    exact built_child 0
  · intro b second
    obtain ⟨-, second⟩ := ite_none_right_eq_some.mp second
    cases second
    exact built_child _

/-- Where the operand has no child, a new node is read, which is a constant. -/
lemma built_connective {kind : AstKind} {a b : AstNode}
    (first : (sides c r (withKids left right)).1 = some a)
    (second : (sides c r (withKids left right)).2 = some b) (varyA : a.kind ≠ .bool)
    (varyB : b.kind ≠ .bool)
    (isKind : kind = .xor ∨ (kind = .land ∨ kind = .lor) ∧ (r.op = .and ∨ r.op = .or)) :
    Built r label left right
      (((withKids left right).update (·.setBits 1)).update (·.setKind kind)) := by
  obtain ⟨deep, isA⟩ := ite_none_right_eq_some.mp first
  obtain ⟨-, isB⟩ := ite_none_right_eq_some.mp second
  rw [if_pos deep, Option.isSome_some, if_pos rfl] at isB
  cases isA
  cases isB
  cases left with
  | none =>
    cases right with
    | none => exact absurd rfl varyA
    | some b => exact absurd rfl varyB
  | some a =>
    cases right with
    | none => exact absurd rfl varyB
    | some b => exact .binary rfl rfl (.inr (.inr ⟨isKind, varyA, varyB⟩))

lemma processLogic_built {absorbing : Nat} {kind : AstKind} (isOp : r.op = .and ∨ r.op = .or)
    (connective : kind = .land ∨ kind = .lor)
    (h : processLogic absorbing kind c r (withKids left right) = some t) :
    Built r label left right t := by
  obtain ⟨inLeft, inRight⟩ := @sides_built c r label left right
  simp only [processLogic] at h
  obtain ⟨-, h⟩ := ite_none_left_eq_some.mp h
  obtain ⟨-, h⟩ := ite_none_left_eq_some.mp h
  split at h
  · split at h
    · cases h
      exact built_setBool _ _
    · obtain ⟨-, h⟩ := ite_none_right_eq_some.mp h
      exact inRight t h
  · obtain ⟨a, first, h⟩ := bind_eq_some_iff.mp h
    obtain ⟨b, second, h⟩ := bind_eq_some_iff.mp h
    repeat' split at h
    all_goals cases h
    all_goals first
      | exact built_setBool _ _
      | exact inLeft _ first
      | exact inRight _ second
      | exact built_connective first second (by assumption) (by assumption)
          (.inr ⟨connective, isOp⟩)

lemma processXor_built (h : processXor c r (withKids left right) = some t) :
    Built r label left right t := by
  obtain ⟨inLeft, inRight⟩ := @sides_built c r label left right
  simp only [processXor] at h
  obtain ⟨some, h⟩ := ite_none_left_eq_some.mp h
  have negation : Built r label left right
      (((withKids left right).update (·.setBits 1)).update (·.setKind .lnot)) :=
    built_update (.inr ⟨rfl, some⟩)
  obtain ⟨-, h⟩ := ite_none_left_eq_some.mp h
  split at h
  · obtain ⟨b, second, h⟩ := bind_eq_some_iff.mp h
    repeat' split at h
    all_goals cases h
    all_goals first
      | exact built_setBool _ _
      | exact inRight _ second
      | exact negation
  · obtain ⟨a, first, h⟩ := bind_eq_some_iff.mp h
    obtain ⟨b, second, h⟩ := bind_eq_some_iff.mp h
    repeat' split at h
    all_goals cases h
    all_goals first
      | exact built_setBool _ _
      | exact inLeft _ first
      | exact inRight _ second
      | exact negation
      | exact built_connective first second (by assumption) (by assumption) (.inl rfl)

lemma compareBool_built {other const : Nat} (one : (withKids left right).childrenSize = 1)
    (h : compareBool q (((withKids left right).update (·.setBits 1)).child 0)
      ((withKids left right).update (·.setBits 1)) other const = some t) :
    Built r label left right t := by
  have same : ((withKids left right).update (·.setBits 1)).child 0 =
      (withKids left right).child 0 := by
    cases withKids left right <;> rfl
  rw [same] at h
  obtain ⟨-, h⟩ := ite_none_left_eq_some.mp h
  repeat' split at h
  all_goals cases h
  all_goals first
    | exact built_child 0
    | exact built_setBool _ _
    | exact built_update (.inr ⟨rfl, by omega⟩)

lemma processIcmp_built (op : r.op = .icmp q)
    (h : processIcmp p c q r label (withKids left right) = some (t, c')) :
    Built r label left right t := by
  have sizes : ((withKids left right).update (·.setBits 1)).childrenSize =
      (withKids left right).childrenSize := by
    cases withKids left right <;> rfl
  have constant : ∀ value, Built r label left right
      (((withKids left right).update (·.setBits 1)).update
        fun d => (d.setKind .bool).setBoolvalue value) :=
    fun value => built_update (.inl rfl)
  simp only [processIcmp, sizes] at h
  split at h
  next empty =>
    simp only [processLeaf] at h
    obtain ⟨⟨_, _⟩, -, h⟩ := bind_eq_some_iff.mp h
    split at h
    · cases h
      exact constant _
    · obtain ⟨_, known, ⟨⟩⟩ := map_eq_some_iff.mp h
      obtain ⟨rfl, rfl⟩ := withKids_empty empty
      have icmp : isIcmp r.op = true := by rw [op]; rfl
      rw [op] at known
      refine .atom ?_ ⟨rfl, rfl⟩ rfl (.inl ⟨icmp, by rw [op]; exact known⟩)
      have relational := (predicateOf_opMap known).2
      simpa [isAtomKind] using .inl relational
  · split at h
    next one =>
      split at h
      · cases h
        exact constant _
      split at h
      · obtain ⟨_, made, ⟨⟩⟩ := map_eq_some_iff.mp h
        exact compareBool_built one made
      · obtain ⟨-, h⟩ := ite_none_right_eq_some.mp h
        obtain ⟨_, made, ⟨⟩⟩ := map_eq_some_iff.mp h
        exact compareBool_built one made
    · cases h
      exact built_setBool _ _

lemma processMemcmp_built (op : r.op = .fmemcmp)
    (h : processMemcmp label (withKids left right) = some t) : Built r label left right t := by
  obtain ⟨empty, h⟩ := ite_none_left_eq_some.mp h
  cases h
  obtain ⟨rfl, rfl⟩ := withKids_empty (not_not.mp empty)
  exact .atom rfl ⟨rfl, rfl⟩ rfl (.inr ⟨op, rfl⟩)

lemma processNode_built (h : processNode p c r label (withKids left right) = some (t, c')) :
    Built r label left right t := by
  simp only [processNode] at h
  split at h
  · obtain ⟨_, made, ⟨⟩⟩ := map_eq_some_iff.mp h
    exact processNot_built made
  next op =>
    obtain ⟨_, made, ⟨⟩⟩ := map_eq_some_iff.mp h
    exact processLogic_built (.inl op) (.inl rfl) made
  next op =>
    obtain ⟨_, made, ⟨⟩⟩ := map_eq_some_iff.mp h
    exact processLogic_built (.inr op) (.inr rfl) made
  · obtain ⟨_, made, ⟨⟩⟩ := map_eq_some_iff.mp h
    exact processXor_built made
  next q op =>
    exact processIcmp_built op h
  next op =>
    obtain ⟨_, made, ⟨⟩⟩ := map_eq_some_iff.mp h
    exact processMemcmp_built op made
  · cases h

lemma rel_kid {Q : Nat → AstNode → Prop} {k : Nat} {a : AstNode}
    (relL : Option.Rel Q (leftKid p c.nested (p.info k)) left)
    (relR : Option.Rel Q (rightKid p c.nested (p.info k)) right)
    (isKid : left = some a ∨ right = some a) : ∃ y, IsKid p c.nested k y ∧ Q y a := by
  rcases isKid with rfl | rfl
  · generalize kid : leftKid p c.nested (p.info k) = y at relL
    cases relL with
    | some holds => exact ⟨_, .inl kid, holds⟩
  · generalize kid : rightKid p c.nested (p.info k) = y at relR
    cases relR with
    | some holds => exact ⟨_, .inr kid, holds⟩

end Processing

/-! ## The whole formula -/

/-- A label below `k` that becomes an atom: it has no kids. -/
def AtomLabel (p : Parser) (c : Caches) (k label : Nat) : Prop :=
  label ∈ footprint p c.nested k ∧ leftKid p c.nested (p.info label) = none ∧
    rightKid p c.nested (p.info label) = none

def AtomOf (p : Parser) (c : Caches) (k : Nat) (d : NodeData) : Prop :=
  AtomLabel p c k d.label ∧ Stamped (p.info d.label) d.kind

section Whole

variable {p : Parser} {c c' : Caches} {k l fuel : Nat} {t t' : AstNode}

/-- Processing stamps the label itself only. -/
lemma closed_atoms (down : Descends p c.nested k) :
    Closed p c (fun x => Leaves (AtomOf p c x)) k := by
  intro left right now t c' relL relR before h
  have ofKid : ∀ a, left = some a ∨ right = some a → Leaves (AtomOf p c k) a := by
    intro a isKid
    obtain ⟨y, kid, holds⟩ := rel_kid relL relR isKid
    apply holds.mono
    rintro d ⟨⟨inside, none⟩, stamped⟩
    exact ⟨⟨(mem_footprint down).mpr (.inr ⟨y, kid, inside⟩), none⟩, stamped⟩
  cases processNode_built h with
  | @constant d kind =>
    intro isAtom
    rw [kind] at isAtom
    cases isAtom
  | @atom d kind noKids isLabel stamped =>
    intro _
    obtain ⟨rfl, rfl⟩ := noKids
    subst isLabel
    refine ⟨⟨self_mem_footprint down, ?_⟩, stamped⟩
    constructor
    · generalize leftKid p c.nested (p.info d.label) = y at relL
      cases relL
      rfl
    · generalize rightKid p c.nested (p.info d.label) = y at relR
      cases relR
      rfl
  | kid isKid => exact ofKid t isKid
  | @unary d a isKid kind => exact ofKid a isKid
  | binary isLeft isRight kind => exact ⟨ofKid _ (.inl isLeft), ofKid _ (.inr isRight)⟩

lemma findRoots_atoms (down : Descends p c.nested l) (ne : l ≠ 0)
    (nodup : (footprint p c.nested l).Nodup) (h : findRoots p c fuel l = some (t, c')) :
    Leaves (AtomOf p c l) t := by
  refine findRoots_rule (Q := fun x => Leaves (AtomOf p c x)) down ne nodup
    (fun x inside => closed_atoms ?_) h
  obtain ⟨reach, notLoad⟩ := footprint_inDag down inside
  exact ⟨notLoad, fun y rest => down.kidOf y (inDag_trans reach rest)⟩

lemma formula_leaves {atom P : NodeData → Prop} {exclusive : Prop}
    (kinds : ∀ d, atom d → isAtomKind d.kind = true) (formula : Formula atom exclusive t)
    (leaves : Leaves P t) : Formula (fun d => atom d ∧ P d) exclusive t := by
  induction formula with
  | @leaf d admitted => exact .leaf ⟨admitted, leaves (kinds d admitted)⟩
  | lnot kind arg ih => exact .lnot kind (ih leaves)
  | land kind left right ihA ihB => exact .land kind (ihA leaves.1) (ihB leaves.2)
  | lor kind left right ihA ihB => exact .lor kind (ihA leaves.1) (ihB leaves.2)
  | xor kind allowed left right ihA ihB =>
    exact .xor kind allowed (ihA leaves.1) (ihB leaves.2)

lemma findRoots_clauses (prepared : Prepared p c l) (bit : width (p.info l) = 1)
    (clean : RootsClean p c False l)
    (integer : ∀ x, AtomLabel p c l x → isIcmp (p.info x).op = true)
    (h : findRoots p c fuel l = some (t, c')) {expected : Bool}
    (made : toNnf expected t = some t') :
    Atoms (fun a => Labelled isRelationalKind (AtomLabel p c l) a.data) (toDnf t' []) := by
  have good := findRoots_good prepared bit clean h
  have leaves := findRoots_atoms (prepared.descends_of_bit bit) (prepared.conditions l .self).1
    clean.1 h
  have formula := formula_leaves (fun d atom => atom.1) good.formula leaves
  have leaf : ∀ d, RootAtom d ∧ AtomOf p c l d → ∀ expected, ∃ d',
      toNnf expected (.leaf d) = some (.leaf d') ∧
      Labelled isRelationalKind (AtomLabel p c l) d' ∧
      ∀ A, atomHolds A d' = (leafValue A d == expected) := by
    rintro d ⟨-, label, stamped⟩ expected
    apply toNnf_comparison
    refine ⟨?_, label⟩
    rcases stamped with ⟨icmp, known⟩ | ⟨memcmp, -⟩
    · cases op : (p.info d.label).op with
      | icmp q =>
        rw [op] at known
        exact (predicateOf_opMap known).2
      | _ =>
        rw [op] at icmp
        cases icmp
    · have icmp := integer d.label label
      rw [memcmp] at icmp
      cases icmp
  obtain ⟨_, some, nnf, -⟩ := toNnf_rule leaf formula expected
  cases some.symm.trans made
  exact toDnf_atoms (fun d atom => by simp [isClauseKind, atom.1]) nnf atoms_nil

end Whole

end RootAtoms
