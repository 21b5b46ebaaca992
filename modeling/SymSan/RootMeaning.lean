import SymSan.TableGrowth
import SymSan.RootWalk

/-!
# The root formula and the branch condition

The truth value of a tree that `find_roots` builds, and when it is the value of
the label. Processing is right for a label as long as it does not fold it to a
boolean constant: the constants that `set_boolvalue` writes are inverted, and a
label that is reached for the second time leaves a new node, which is a constant
too.
-/

namespace RootMeaning

open LabelTable Denotation TypedLabels RgdAst FindRoots RootWalk
open Option (bind_eq_some_iff ite_none_left_eq_some map_eq_some_iff)

variable {t : AstNode} {c : Caches} {fuel k l x y : Nat} {info : Nat → LabelInfo} {p : Parser}
  {q : Predicate} {exclusive : Prop} {kid : Option Nat} {Q : Nat → AstNode → Prop}
  {node : Option AstNode}

/-! ## Truth of a tree -/

/-- The comparison of the operands of `l`. -/
def recordHolds (info : Nat → LabelInfo) (inp : Input) (q : Predicate) (l : Nat) : Bool :=
  Denotation.compare q
    (BitVec.ofNat (info l).size (operand1 info (den info inp) (info l)))
    (BitVec.ofNat (info l).size (operand2 info (den info inp) (info l)))

def leafTruth (info : Nat → LabelInfo) (inp : Input) (d : NodeData) : Bool :=
  match d.kind with
  | .bool => d.boolvalue != 0
  | .memcmp => den info inp d.label != 0
  | kind =>
    match predicateOf kind with
    | some q => recordHolds info inp q d.label
    | none => false

def truth (info : Nat → LabelInfo) (inp : Input) : AstNode → Bool
  | .leaf d => leafTruth info inp d
  | .node1 d a => if d.kind = .lnot then !truth info inp a else leafTruth info inp d
  | .node2 d a b =>
    match d.kind with
    | .lnot => !truth info inp a
    | .land => truth info inp a && truth info inp b
    | .lor => truth info inp a || truth info inp b
    | .xor => truth info inp a != truth info inp b
    | _ => leafTruth info inp d

lemma leafTruth_relational {inp : Input} {d : NodeData} (known : predicateOf d.kind = some q) :
    leafTruth info inp d = recordHolds info inp q d.label := by
  simp only [leafTruth]
  split
  iterate 2
    next kind =>
      rw [kind] at known
      cases known
  · rw [known]

/-! ## Conditions -/

/-- The records of a condition over those of their operands. And, Or, Xor and Not
are only looked at where they are boolean; other opcodes may occur in the operands
of a comparison. -/
def Condition (info : Nat → LabelInfo) (r : LabelInfo) : Prop :=
  match r.op with
  | .load => r.size = 8 * r.l2
  | .zext => r.l1 ≠ 0 ∧ r.l2 = 0 ∧ width (info r.l1) ≤ r.size
  | .not => r.l1 = 0 ∧ r.l2 ≠ 0 ∧ (r.size = 1 → width (info r.l2) = 1)
  | .and | .or | .xor => r.size = 1 → Fits info r.l1 r.op1 1 ∧ Fits info r.l2 r.op2 1
  | .icmp _ => Fits info r.l1 r.op1 r.size ∧ Fits info r.l2 r.op2 r.size
  | _ => True

instance (info : Nat → LabelInfo) (r : LabelInfo) : Decidable (Condition info r) := by
  unfold Condition
  obtain ⟨l1, l2, op1, op2, op, size, hash⟩ := r
  cases op <;> infer_instance

def Conditions (info : Nat → LabelInfo) (l : Nat) : Prop :=
  ∀ k, InDag info l k → k ≠ 0 ∧ Ordered info k ∧ Condition info (info k)

/-- What holds when `find_roots` is called on `l`: the label is checked and scanned. -/
structure Prepared (p : Parser) (c : Caches) (l : Nat) : Prop where
  zero : (p.info 0).op = .input
  conditions : Conditions p.info l
  scanned : Scanned p c
  covers : l < c.nestedCmp.length
  valid : l < p.size

lemma Conditions.below (conditions : Conditions info l) (reach : InDag info l k) :
    Conditions info k :=
  fun x rest => conditions x (inDag_trans reach rest)

lemma Conditions.le (conditions : Conditions info l) (reach : InDag info l k) : k ≤ l :=
  inDag_le (fun x below => (conditions x below).2.1) reach

lemma Prepared.below (prepared : Prepared p c l) (reach : InDag p.info l k) : Prepared p c k := by
  have le := prepared.conditions.le reach
  have covers := prepared.covers
  have valid := prepared.valid
  exact ⟨prepared.zero, prepared.conditions.below reach, prepared.scanned, by omega, by omega⟩

lemma Prepared.nested (prepared : Prepared p c l) : c.nested l = nestedCmp p.info l :=
  prepared.scanned l prepared.covers

/-! ## Extensions of booleans -/

/-- `y` is `x` without some of its zero-extensions. -/
structure Stripped (p : Parser) (c : Caches) (x y : Nat) : Prop where
  reach : InDag p.info x y
  value : ∀ inp, den p.info inp y = den p.info inp x
  nested : c.nested y = c.nested x

lemma den_zext (ne : l ≠ 0) (ordered : Ordered info l) (op : (info l).op = .zext)
    (symbolic : (info l).l1 ≠ 0) (wider : width (info (info l).l1) ≤ (info l).size) (inp : Input) :
    den info inp (info l).l1 = den info inp l := by
  have small := den_lt info inp (info l).l1
  rw [den_eq info inp ne ordered]
  simp [evalRecord, op, isInteger, applyOp, operand1, symbolic, width, Nat.mod_eq_of_lt
    (Nat.lt_of_lt_of_le small (Nat.pow_le_pow_right (by decide) wider))]

lemma Prepared.strip_zext (prepared : Prepared p c l) (op : (p.info l).op = .zext) :
    (p.info l).l1 ≠ 0 ∧ (p.info l).l1 < l ∧ Stripped p c l (p.info l).l1 := by
  obtain ⟨ne, ordered, condition⟩ := prepared.conditions l .self
  simp only [Condition, op] at condition
  obtain ⟨symbolic, unary, wider⟩ := condition
  have reach : InDag p.info l (p.info l).l1 := .first symbolic .self
  refine ⟨symbolic, ordered.1, reach, den_zext ne ordered op symbolic wider, ?_⟩
  rw [(prepared.below reach).nested, prepared.nested, nestedCmp_zext op symbolic unary ordered.1]

lemma Stripped.trans {z : Nat} (first : Stripped p c x y) (second : Stripped p c y z) :
    Stripped p c x z :=
  ⟨inDag_trans first.reach second.reach, fun inp => (second.value inp).trans (first.value inp),
    second.nested.trans first.nested⟩

lemma stripLoop_some {label cur : Nat} (prepared : Prepared p c label)
    (chain : Stripped p c label cur) (enough : cur < fuel) :
    ∃ y, stripLoop p label fuel cur = some y ∧ Stripped p c label y := by
  induction fuel generalizing cur with
  | zero => omega
  | succ fuel ih =>
    have here := prepared.below chain.reach
    have known : p.getLabelInfo cur = some (p.info cur) := if_neg (by have := here.valid; omega)
    simp only [stripLoop, known]
    by_cases op : (p.info cur).op = .zext
    · obtain ⟨-, _, strip⟩ := here.strip_zext op
      have child := here.below strip.reach
      have known1 : p.getLabelInfo (p.info cur).l1 = some (p.info (p.info cur).l1) :=
        if_neg (by have := child.valid; omega)
      have next := chain.trans strip
      simp only [if_pos op, known1, Option.bind_some]
      split
      · exact ⟨_, rfl, next⟩
      · split
        · exact ⟨_, rfl, next⟩
        · exact ih next (by omega)
    · exact ⟨label, if_neg op, .self, fun _ => rfl, rfl⟩

lemma stripZext_some (prepared : Prepared p c x) :
    ∃ y, stripZext p x = some y ∧ Stripped p c x y :=
  stripLoop_some prepared ⟨.self, fun _ => rfl, rfl⟩ (Nat.lt_succ_self x)

/-! ## Kids -/

/-- The kid of an operand: the operand without its extensions if it contains a
comparison. -/
def KidFor (p : Parser) (c : Caches) (x : Nat) (kid : Option Nat) : Prop :=
  (c.nested x = 0 ∧ kid = none) ∨ (c.nested x ≠ 0 ∧ x ≠ 0 ∧ ∃ y, kid = some y ∧ Stripped p c x y)

lemma nested_zero (scanned : Scanned p c) : c.nested 0 = 0 := by
  by_cases inside : 0 < c.nestedCmp.length
  · rw [scanned 0 inside, nestedCmp_zero]
  · exact List.getD_eq_default _ _ (by omega)

section Kids

variable {p : Parser} {c : Caches} {k : Nat}

lemma leftKid_for (prepared : Prepared p c k) :
    KidFor p c (p.info k).l1 (leftKid p c.nested (p.info k)) := by
  have atZero := nested_zero prepared.scanned
  by_cases flat : c.nested (p.info k).l1 = 0
  · exact .inl ⟨flat, if_pos flat⟩
  have symbolic : (p.info k).l1 ≠ 0 := fun zero => flat (zero ▸ atZero)
  obtain ⟨y, strip, same⟩ := stripZext_some (prepared.below (.first symbolic .self))
  have ne : y ≠ 0 := fun zero => flat (same.nested ▸ zero ▸ atZero)
  refine .inr ⟨flat, symbolic, y, ?_, same⟩
  simp [leftKid, flat, strip, ne]

lemma stripZext_zero (zero : (p.info 0).op = .input) (valid : 0 < p.size) :
    stripZext p 0 = some 0 := by
  have known : p.getLabelInfo 0 = some (p.info 0) := if_neg (by omega)
  simp [stripZext, stripLoop, known, zero]

lemma rightKid_for (prepared : Prepared p c k) (notLoad : (p.info k).op ≠ .load) :
    KidFor p c (p.info k).l2 (rightKid p c.nested (p.info k)) := by
  have atZero := nested_zero prepared.scanned
  by_cases constant : (p.info k).l2 = 0
  · have valid := prepared.valid
    rw [constant]
    refine .inl ⟨atZero, ?_⟩
    simp [rightKid, constant, stripZext_zero prepared.zero (by omega), atZero]
  obtain ⟨y, strip, same⟩ := stripZext_some (prepared.below (.second constant notLoad .self))
  have kid : rightKid p c.nested (p.info k) =
      if 0 < c.nested (p.info k).l2 then some y else none := by
    simp [rightKid, strip, Option.filter, same.nested]
  by_cases flat : c.nested (p.info k).l2 = 0
  · exact .inl ⟨flat, by rw [kid, if_neg (by omega)]⟩
  · exact .inr ⟨flat, constant, y, by rw [kid, if_pos (by omega)], same⟩

lemma KidFor.kidOf (side : KidFor p c x kid) (prepared : Prepared p c x) (before : x < k)
    (reach : InDag p.info k x) (isKid : kid = some y) : KidOf p c.nested k y := by
  rcases side with ⟨-, none⟩ | ⟨nested, -, z, kid, same⟩
  · rw [isKid] at none
    cases none
  have eq : z = y := Option.some.inj (kid.symm.trans isKid)
  subst eq
  have here := prepared.below same.reach
  have le := prepared.conditions.le same.reach
  rw [← same.nested] at nested
  refine ⟨fun zero => nested (zero ▸ nested_zero here.scanned), by omega, nested, ?_,
    inDag_trans reach same.reach⟩
  intro load
  exact nested (here.nested.trans (nestedCmp_load load))

lemma Prepared.descends (prepared : Prepared p c l) (notLoad : (p.info l).op ≠ .load) :
    Descends p c.nested l := by
  refine ⟨notLoad, fun k inside notLoad y isKid => ?_⟩
  have here := prepared.below inside
  obtain ⟨before1, before2⟩ := (here.conditions k .self).2.1
  rcases isKid with kid | kid
  · have side := leftKid_for here
    have symbolic : (p.info k).l1 ≠ 0 := by
      rcases side with ⟨-, none⟩ | ⟨-, ne, -⟩
      · rw [kid] at none
        cases none
      · exact ne
    have reach : InDag p.info k (p.info k).l1 := .first symbolic .self
    exact side.kidOf (here.below reach) before1 reach kid
  · have side := rightKid_for here notLoad
    have symbolic : (p.info k).l2 ≠ 0 := by
      rcases side with ⟨-, none⟩ | ⟨-, ne, -⟩
      · rw [kid] at none
        cases none
      · exact ne
    have reach : InDag p.info k (p.info k).l2 := .second symbolic notLoad .self
    exact side.kidOf (here.below reach) (before2 notLoad) reach kid

/-- An operand with its kid and the kid's node, which has the property `Q`. -/
def Side (p : Parser) (c : Caches) (Q : Nat → AstNode → Prop) (x : Nat) (kid : Option Nat)
    (node : Option AstNode) : Prop :=
  (c.nested x = 0 ∧ kid = none ∧ node = none) ∨
    (c.nested x ≠ 0 ∧ x ≠ 0 ∧ ∃ y t, kid = some y ∧ node = some t ∧ Stripped p c x y ∧ Q y t)

lemma KidFor.side (side : KidFor p c x kid) (rel : Option.Rel Q kid node) :
    Side p c Q x kid node := by
  rcases side with ⟨flat, rfl⟩ | ⟨nested, ne, y, rfl, same⟩
  · cases rel
    exact .inl ⟨flat, rfl, rfl⟩
  · cases rel with
    | some holds => exact .inr ⟨nested, ne, y, _, rfl, rfl, same, holds⟩

end Kids

/-! ## Values of boolean records -/

def sideValue (info : Nat → LabelInfo) (inp : Input) (l const : Nat) : Nat :=
  if l = 0 then const else den info inp l

lemma sideValue_lt {const w : Nat} (fits : Fits info l const w) (inp : Input) :
    sideValue info inp l const < 2 ^ w := by
  simp only [Fits] at fits
  simp only [sideValue]
  split
  next zero =>
    rwa [if_pos zero] at fits
  next ne =>
    rw [if_neg ne] at fits
    exact fits ▸ den_lt info inp l

lemma operands_fit {r : LabelInfo} (plain : r.op ≠ .concat) (fits1 : Fits info r.l1 r.op1 r.size)
    (fits2 : Fits info r.l2 r.op2 r.size) (inp : Input) :
    operand1 info (den info inp) r = sideValue info inp r.l1 r.op1 ∧
      operand2 info (den info inp) r = sideValue info inp r.l2 r.op2 := by
  obtain ⟨first, second⟩ := operands_plain info (den info inp) plain
  have side : ∀ {l c}, Fits info l c r.size →
      (if l = 0 then c % 2 ^ r.size else den info inp l) = sideValue info inp l c := by
    intro l c fits
    unfold sideValue
    split
    next zero =>
      rw [Fits, if_pos zero] at fits
      exact Nat.mod_eq_of_lt fits
    · rfl
  exact ⟨first.trans (side fits1), second.trans (side fits2)⟩

section

variable (ne : l ≠ 0) (ordered : Ordered info l) (op : (info l).op = .icmp q) (inp : Input)

include ne ordered op inp

lemma den_icmp : den info inp l = (recordHolds info inp q l).toNat := by
  rw [den_eq info inp ne ordered]
  simp only [evalRecord, op, width]
  exact Nat.mod_eq_of_lt (Bool.toNat_lt _)

lemma den_icmp_ne_zero : (den info inp l != 0) = recordHolds info inp q l := by
  rw [den_icmp ne ordered op]
  cases recordHolds info inp q l <;> rfl

end

def boolOp : Operator → Bool → Bool → Bool
  | .and => and
  | .or => or
  | .xor => xor
  | _ => fun _ _ => false

lemma applyOp_boolOp {op : Operator} (logic : op = .and ∨ op = .or ∨ op = .xor) {a b : Nat}
    (bit1 : a < 2) (bit2 : b < 2) (w1 off : Nat) :
    isInteger op = true ∧ (applyOp op 1 w1 off a b % 2 != 0) = boolOp op (a != 0) (b != 0) := by
  have first : a = 0 ∨ a = 1 := by omega
  have second : b = 0 ∨ b = 1 := by omega
  rcases logic with rfl | rfl | rfl <;> rcases first with rfl | rfl <;>
    rcases second with rfl | rfl <;> exact ⟨rfl, rfl⟩

lemma den_boolOp (ne : l ≠ 0) (ordered : Ordered info l)
    (op : (info l).op = .and ∨ (info l).op = .or ∨ (info l).op = .xor) (size : (info l).size = 1)
    (fits1 : Fits info (info l).l1 (info l).op1 1) (fits2 : Fits info (info l).l2 (info l).op2 1)
    (inp : Input) :
    (den info inp l != 0) = boolOp (info l).op
      (sideValue info inp (info l).l1 (info l).op1 != 0)
      (sideValue info inp (info l).l2 (info l).op2 != 0) := by
  have plain : (info l).op ≠ .concat := by
    rcases op with op | op | op <;> simp [op]
  obtain ⟨first, second⟩ := operands_fit plain (size.symm ▸ fits1) (size.symm ▸ fits2) inp
  obtain ⟨integer, value⟩ := applyOp_boolOp op (sideValue_lt fits1 inp) (sideValue_lt fits2 inp)
    (width1 info (info l)) (info l).op2
  have notLeaf : (info l).op ≠ .input ∧ (info l).op ≠ .load := by
    rcases op with op | op | op <;> simp [op]
  have narrow : width (info l) = 1 := by
    rcases op with op | op | op <;> simp only [width, op, size]
  rw [den_eq info inp ne ordered, evalRecord, if_neg notLeaf.1, if_neg notLeaf.2, if_pos integer,
    first, second, narrow, size]
  exact value

lemma den_not (ne : l ≠ 0) (ordered : Ordered info l) (op : (info l).op = .not)
    (size : (info l).size = 1) (symbolic : (info l).l2 ≠ 0) (narrow : width (info (info l).l2) = 1)
    (inp : Input) : (den info inp l != 0) = !(den info inp (info l).l2 != 0) := by
  have lt := den_lt info inp (info l).l2
  rw [narrow] at lt
  have bit : den info inp (info l).l2 = 0 ∨ den info inp (info l).l2 = 1 := by omega
  rw [den_eq info inp ne ordered]
  rcases bit with bit | bit <;>
    simp [evalRecord, op, isInteger, applyOp, width, size, operand2, symbolic, bit]

/-! ## Processing one label -/

/-- A leaf as `find_roots` makes it. -/
abbrev RootAtom : NodeData → Prop := Labelled isAtomKind (· ≠ 0)

/-- The node is a formula with the truth value of the label. -/
structure Good (p : Parser) (exclusive : Prop) (k : Nat) (t : AstNode) : Prop where
  truth : ∀ inp, truth p.info inp t = (den p.info inp k != 0)
  formula : Formula RootAtom exclusive t
  bits : t.data.bits = 1

lemma Good.kind (good : Good p exclusive k t) : t.kind ≠ .bool := by
  cases good.formula with
  | leaf admitted =>
    intro bool
    have atom := admitted.1
    simp only [AstNode.kind, AstNode.data] at bool
    rw [bool] at atom
    cases atom
  | lnot kind arg => simp [AstNode.kind, AstNode.data, kind]
  | land kind left right => simp [AstNode.kind, AstNode.data, kind]
  | lor kind left right | xor kind allowed left right => simp [AstNode.kind, AstNode.data, kind]

lemma Good.unstrip (good : Good p exclusive y t) (same : Stripped p c x y) :
    Good p exclusive x t :=
  ⟨fun inp => by rw [good.truth, same.value], good.formula, good.bits⟩

/-- A comparison without comparisons in its operands keeps one operand symbolic; a
boolean is compared for equality, with 0 or, if it is one bit wide, with 1. -/
def ComparisonClean (p : Parser) (c : Caches) (q : Predicate) (k : Nat) : Prop :=
  match leftKid p c.nested (p.info k), rightKid p c.nested (p.info k) with
  | none, none =>
    (concretizeLeaf p c (p.info k) k).map (fun made => concreteOps (p.info k) made.1) ≠ some 3
  | some y, none => (q = .bveq ∨ q = .bvneq) ∧ (p.info k).l2 = 0 ∧
      ((p.info k).op2 = 0 ∨ ((p.info k).op2 = 1 ∧ width (p.info y) = 1))
  | none, some y => (q = .bveq ∨ q = .bvneq) ∧ (p.info k).l1 = 0 ∧
      ((p.info k).op1 = 0 ∨ ((p.info k).op1 = 1 ∧ width (p.info y) = 1))
  | some _, some _ => False

/-- A label is processed without being folded to a constant. -/
def LocalClean (p : Parser) (c : Caches) (exclusive : Prop) (k : Nat) : Prop :=
  match (p.info k).op with
  | .and => (p.info k).l1 = 0 → (p.info k).op1 ≠ 0
  | .or => (p.info k).l1 = 0 → (p.info k).op1 ≠ 1
  | .xor => (p.info k).l1 ≠ 0 → exclusive
  | .icmp q => ComparisonClean p c q k
  | _ => True

instance (p : Parser) (c : Caches) (q : Predicate) (k : Nat) :
    Decidable (ComparisonClean p c q k) := by
  unfold ComparisonClean
  split <;> infer_instance

instance (p : Parser) (c : Caches) (exclusive : Prop) [Decidable exclusive] (k : Nat) :
    Decidable (LocalClean p c exclusive k) := by
  unfold LocalClean
  split <;> infer_instance

section Processing

variable {p : Parser} {c now c' : Caches} {exclusive : Prop} {k : Nat} {t : AstNode}
  {left right : Option AstNode} {q : Predicate} {a : AstNode}

/-- The sides of a label that is being processed. -/
abbrev LeftSide (p : Parser) (c : Caches) (exclusive : Prop) (k : Nat) (left : Option AstNode) :=
  Side p c (Good p exclusive) (p.info k).l1 (leftKid p c.nested (p.info k)) left

abbrev RightSide (p : Parser) (c : Caches) (exclusive : Prop) (k : Nat) (right : Option AstNode) :=
  Side p c (Good p exclusive) (p.info k).l2 (rightKid p c.nested (p.info k)) right

lemma withKids_empty (empty : (withKids left right).childrenSize = 0) :
    left = none ∧ right = none := by
  cases left <;> cases right <;> simp_all [withKids, AstNode.childrenSize]

lemma Side.none (side : Side p c Q x kid node) (zero : x = 0) : node = none := by
  rcases side with ⟨-, -, none⟩ | ⟨-, ne, -⟩
  · exact none
  · exact absurd zero ne

lemma Side.good (side : Side p c (Good p exclusive) x kid (some a)) (const : Nat) :
    Good p exclusive x a ∧ x ≠ 0 ∧ ∀ inp, sideValue p.info inp x const = den p.info inp x := by
  rcases side with ⟨-, -, none⟩ | ⟨-, ne, y, t, -, same, strip, good⟩
  · cases none
  · cases same
    exact ⟨good.unstrip strip, ne, fun inp => if_neg ne⟩

lemma processMemcmp_good (prepared : Prepared p c k)
    (h : processMemcmp k (withKids left right) = some t) : Good p exclusive k t := by
  have ne := (prepared.conditions k .self).1
  simp only [processMemcmp] at h
  split at h
  · cases h
  next empty =>
    obtain ⟨rfl, rfl⟩ := withKids_empty (not_not.mp empty)
    cases h
    exact ⟨fun inp => rfl, .leaf ⟨rfl, ne⟩, rfl⟩

/-- The decision to make an operand concrete is the one of the first caches. -/
lemma concretizeLeaf_asBefore {concretize : Nat} (before : AsBefore c now k)
    (flat1 : c.nested (p.info k).l1 = 0) (flat2 : c.nested (p.info k).l2 = 0)
    (h : concretizeLeaf p now (p.info k) k = some (concretize, c')) :
    (concretizeLeaf p c (p.info k) k).map (·.1) = some concretize := by
  obtain ⟨_, keeps, notHere, nested⟩ := before
  have here := keeps.entry k notHere
  have same1 := (keeps.entry (p.info k).l1 fun inside => nested _ inside flat1).1
  have same2 := (keeps.entry (p.info k).l2 fun inside => nested _ inside flat2).1
  simp only [concretizeLeaf, here.1, here.2, same1, same2] at h
  obtain ⟨_, some, h⟩ := bind_eq_some_iff.mp h
  simp only [concretizeLeaf, some]
  split at h
  next large =>
    obtain ⟨_, some1, h⟩ := bind_eq_some_iff.mp h
    obtain ⟨_, some2, h⟩ := bind_eq_some_iff.mp h
    cases h
    simp [if_pos large, some1, some2]
  next small =>
    cases h
    simp [if_neg small]

lemma processLeaf_good (prepared : Prepared p c k) (op : (p.info k).op = .icmp q)
    (before : AsBefore c now k) (flat1 : c.nested (p.info k).l1 = 0)
    (flat2 : c.nested (p.info k).l2 = 0)
    (clean : (concretizeLeaf p c (p.info k) k).map (fun made => concreteOps (p.info k) made.1) ≠
      some 3)
    (h : processLeaf p now q (p.info k) k (.leaf (NodeData.fresh.setBits 1)) = some (t, c')) :
    Good p exclusive k t := by
  obtain ⟨ne, ordered, -⟩ := prepared.conditions k .self
  obtain ⟨⟨concretize, _⟩, decided, h⟩ := bind_eq_some_iff.mp h
  have first := concretizeLeaf_asBefore before flat1 flat2 decided
  have symbolic : concreteOps (p.info k) concretize ≠ 3 := by
    intro three
    obtain ⟨_, some, same⟩ := map_eq_some_iff.mp first
    exact clean (by simp [some, same, three])
  simp only [if_neg symbolic] at h
  obtain ⟨_, known, ⟨⟩⟩ := map_eq_some_iff.mp h
  rw [op] at known
  obtain ⟨pred, rel⟩ := predicateOf_opMap known
  refine ⟨fun inp => ?_, .leaf ⟨by simp [isAtomKind, NodeData.setKind, NodeData.setLabel, rel], ne⟩,
    rfl⟩
  rw [den_icmp_ne_zero ne ordered op]
  exact leafTruth_relational pred

lemma compareBool_good {const : Nat} (good : Good p exclusive x a)
    (value : ∀ inp, (den p.info inp k != 0) = if q = .bveq then den p.info inp x ==
      const else den p.info inp x != const)
    (simple : const = 0 ∨ (const = 1 ∧ ∀ inp, den p.info inp x < 2))
    (h : compareBool q a (.node1 (NodeData.fresh.setBits 1) a) 0 const = some t) :
    Good p exclusive k t := by
  have keep : (∀ inp, (den p.info inp k != 0) = (den p.info inp x != 0)) →
      Good p exclusive k a := fun same =>
    ⟨fun inp => by rw [same, good.truth], good.formula, good.bits⟩
  have negate : (∀ inp, (den p.info inp k != 0) = !(den p.info inp x != 0)) →
      Good p exclusive k (.node1 ((NodeData.fresh.setBits 1).setKind .lnot) a) := fun differs =>
    ⟨fun inp => by simp [truth, NodeData.setKind, differs, good.truth], .lnot rfl good.formula, rfl⟩
  have one : const = 1 → ∀ inp, (den p.info inp x == const) = (den p.info inp x != 0) := by
    rintro isOne inp
    have lt : den p.info inp x < 2 := by
      rcases simple with zero | ⟨-, lt⟩
      · omega
      · exact lt inp
    have bit : den p.info inp x = 0 ∨ den p.info inp x = 1 := by omega
    rcases bit with bit | bit <;> simp [bit, isOne]
  simp only [compareBool, good.bits, ne_eq, not_true_eq_false, if_false, if_true] at h
  split at h
  next eq =>
    simp only [eq, if_true] at value
    split at h
    next isOne =>
      cases h
      exact keep fun inp => by rw [value, one isOne]
    · cases h
      have zero : const = 0 := by omega
      exact negate fun inp => by rw [value, zero]; exact (Bool.not_not _).symm
  next ne =>
    simp only [if_neg ne] at value
    split at h
    next zero =>
      cases h
      exact keep fun inp => by rw [value, zero]
    · cases h
      have isOne : const = 1 := by omega
      exact negate fun inp => by rw [value, ← one isOne]; rfl

lemma recordHolds_equality (op : (info l).op = .icmp q) (eqOrNe : q = .bveq ∨ q = .bvneq)
    (fits1 : Fits info (info l).l1 (info l).op1 (info l).size)
    (fits2 : Fits info (info l).l2 (info l).op2 (info l).size) (inp : Input) :
    recordHolds info inp q l =
      if q = .bveq then sideValue info inp (info l).l1 (info l).op1 ==
        sideValue info inp (info l).l2 (info l).op2
      else sideValue info inp (info l).l1 (info l).op1 !=
        sideValue info inp (info l).l2 (info l).op2 := by
  obtain ⟨first, second⟩ := operands_fit (by simp [op]) fits1 fits2 inp
  have lt1 := sideValue_lt fits1 inp
  have lt2 := sideValue_lt fits2 inp
  have inj : (BitVec.ofNat (info l).size (sideValue info inp (info l).l1 (info l).op1) ==
      BitVec.ofNat (info l).size (sideValue info inp (info l).l2 (info l).op2)) =
        (sideValue info inp (info l).l1 (info l).op1 ==
          sideValue info inp (info l).l2 (info l).op2) := by
    rw [Bool.eq_iff_iff, beq_iff_eq, beq_iff_eq, ← BitVec.toNat_inj, BitVec.toNat_ofNat,
      BitVec.toNat_ofNat, Nat.mod_eq_of_lt lt1, Nat.mod_eq_of_lt lt2]
  rw [recordHolds, first, second]
  rcases eqOrNe with rfl | rfl
  · simp [inj, Denotation.compare]
  · simp [bne, inj, Denotation.compare]

section Sides

variable (prepared : Prepared p c k) (leftSide : LeftSide p c exclusive k left)
  (rightSide : RightSide p c exclusive k right)

include leftSide rightSide

lemma sides_eq (nested : now.nested = c.nested) :
    sides now (p.info k) (withKids left right) = (left, right) := by
  simp only [sides, nested]
  rcases leftSide with ⟨flat, -, rfl⟩ | ⟨deep, -, _, a, -, rfl, -⟩ <;>
    rcases rightSide with ⟨flat', -, rfl⟩ | ⟨deep', -, _, b, -, rfl, -⟩
  · simp [flat, flat']
  · simp [flat, Nat.pos_of_ne_zero deep', withKids, AstNode.child]
  · simp [flat', Nat.pos_of_ne_zero deep, withKids, AstNode.child]
  · simp [Nat.pos_of_ne_zero deep, Nat.pos_of_ne_zero deep', withKids, AstNode.child]

include prepared

lemma processNot_good (op : (p.info k).op = .not)
    (h : processNot (p.info k) (withKids left right) = some t) : Good p exclusive k t := by
  obtain ⟨ne, ordered, condition⟩ := prepared.conditions k .self
  simp only [Condition, op] at condition
  obtain ⟨constant, symbolic, narrow⟩ := condition
  obtain rfl := leftSide.none constant
  simp only [processNot] at h
  split at h
  · cases h
  rename_i one
  split at h
  · cases h
  rename_i size
  rw [not_not] at size
  rcases rightSide with ⟨-, -, rfl⟩ | ⟨-, -, y, b, -, rfl, same, good⟩
  · exact absurd Nat.zero_ne_one one
  have good := good.unstrip same
  simp only [withKids, AstNode.child, if_true, if_neg good.kind] at h
  cases h
  refine ⟨fun inp => ?_, .lnot rfl good.formula, rfl⟩
  rw [den_not ne ordered op size symbolic (narrow size)]
  simp [AstNode.update, NodeData.setKind, truth, good.truth]

lemma processLogic_good {absorbing : Nat} {kind : AstKind}
    (op : ((p.info k).op = .and ∧ absorbing = 0 ∧ kind = .land) ∨
      ((p.info k).op = .or ∧ absorbing = 1 ∧ kind = .lor))
    (clean : (p.info k).l1 = 0 → (p.info k).op1 ≠ absorbing) (nested : now.nested = c.nested)
    (h : processLogic absorbing kind now (p.info k) (withKids left right) = some t) :
    Good p exclusive k t := by
  obtain ⟨ne, ordered, condition⟩ := prepared.conditions k .self
  have fits : (p.info k).size = 1 → Fits p.info (p.info k).l1 (p.info k).op1 1 ∧
      Fits p.info (p.info k).l2 (p.info k).op2 1 := by
    rcases op with ⟨op, -⟩ | ⟨op, -⟩ <;> simpa only [Condition, op] using condition
  simp only [processLogic, sides_eq leftSide rightSide nested] at h
  obtain ⟨-, h⟩ := ite_none_left_eq_some.mp h
  obtain ⟨size, h⟩ := ite_none_left_eq_some.mp h
  rw [not_not] at size
  obtain ⟨fits1, fits2⟩ := fits size
  have value := den_boolOp ne ordered (op.imp (·.1) fun or => .inl or.1) size fits1 fits2
  by_cases constant : (p.info k).l1 = 0
  · rw [if_pos constant, if_neg (clean constant)] at h
    obtain ⟨unit, rfl⟩ := Option.ite_none_right_eq_some.mp h
    obtain ⟨good, -, same⟩ := rightSide.good (p.info k).op2
    refine ⟨fun inp => ?_, good.formula, good.bits⟩
    rw [value, same, sideValue, if_pos constant, unit, good.truth]
    rcases op with ⟨op, rfl, -⟩ | ⟨op, rfl, -⟩
    · rw [op]
      exact (Bool.true_and _).symm
    · rw [op]
      exact (Bool.false_or _).symm
  · rw [if_neg constant] at h
    obtain ⟨a, rfl, h⟩ := bind_eq_some_iff.mp h
    obtain ⟨b, rfl, h⟩ := bind_eq_some_iff.mp h
    obtain ⟨goodA, -, sameA⟩ := leftSide.good (p.info k).op1
    obtain ⟨goodB, -, sameB⟩ := rightSide.good (p.info k).op2
    rw [if_neg goodA.kind, if_neg goodB.kind] at h
    cases h
    have both : ∀ inp, (den p.info inp k != 0) =
        boolOp (p.info k).op (truth p.info inp a) (truth p.info inp b) := by
      intro inp
      rw [value, sameA, sameB, goodA.truth, goodB.truth]
    rcases op with ⟨op, -, rfl⟩ | ⟨op, -, rfl⟩
    · exact ⟨fun inp => by rw [both, op]; rfl, .land rfl goodA.formula goodB.formula, rfl⟩
    · exact ⟨fun inp => by rw [both, op]; rfl, .lor rfl goodA.formula goodB.formula, rfl⟩

lemma processXor_good (op : (p.info k).op = .xor)
    (clean : (p.info k).l1 ≠ 0 → exclusive) (nested : now.nested = c.nested)
    (h : processXor now (p.info k) (withKids left right) = some t) : Good p exclusive k t := by
  obtain ⟨ne, ordered, condition⟩ := prepared.conditions k .self
  simp only [Condition, op] at condition
  simp only [processXor, sides_eq leftSide rightSide nested] at h
  obtain ⟨-, h⟩ := ite_none_left_eq_some.mp h
  obtain ⟨size, h⟩ := ite_none_left_eq_some.mp h
  rw [not_not] at size
  obtain ⟨fits1, fits2⟩ := condition size
  have value := den_boolOp ne ordered (.inr (.inr op)) size fits1 fits2
  by_cases constant : (p.info k).l1 = 0
  · rw [if_pos constant] at h
    obtain ⟨b, rfl, h⟩ := bind_eq_some_iff.mp h
    obtain ⟨good, -, same⟩ := rightSide.good (p.info k).op2
    obtain rfl := leftSide.none constant
    rw [if_neg good.kind] at h
    by_cases one : (p.info k).op1 = 1
    · rw [if_pos one] at h
      cases h
      refine ⟨fun inp => ?_, .lnot rfl good.formula, rfl⟩
      rw [value, same, sideValue, if_pos constant, one, op, ← good.truth]
      exact (Bool.true_xor _).symm
    · rw [if_neg one] at h
      cases h
      simp only [Fits, if_pos constant] at fits1
      have zero : (p.info k).op1 = 0 := by omega
      refine ⟨fun inp => ?_, good.formula, good.bits⟩
      rw [value, same, sideValue, if_pos constant, zero, op, good.truth]
      exact (Bool.false_xor _).symm
  · rw [if_neg constant] at h
    obtain ⟨a, rfl, h⟩ := bind_eq_some_iff.mp h
    obtain ⟨b, rfl, h⟩ := bind_eq_some_iff.mp h
    obtain ⟨goodA, -, sameA⟩ := leftSide.good (p.info k).op1
    obtain ⟨goodB, -, sameB⟩ := rightSide.good (p.info k).op2
    rw [if_neg goodA.kind, if_neg goodB.kind] at h
    cases h
    refine ⟨fun inp => ?_, .xor rfl (clean constant) goodA.formula goodB.formula, rfl⟩
    rw [value, sameA, sameB, ← goodA.truth, ← goodB.truth, op]
    rfl

lemma processIcmp_good (op : (p.info k).op = .icmp q) (clean : LocalClean p c exclusive k)
    (before : AsBefore c now k) (nested : now.nested = c.nested)
    (h : processIcmp p now q (p.info k) k (withKids left right) = some (t, c')) :
    Good p exclusive k t := by
  obtain ⟨ne, ordered, condition⟩ := prepared.conditions k .self
  simp only [Condition, op] at condition
  obtain ⟨fits1, fits2⟩ := condition
  have bit : ∀ {x y : Nat}, Stripped p c x y → ∀ {const : Nat},
      const = 0 ∨ (const = 1 ∧ width (p.info y) = 1) →
      const = 0 ∨ (const = 1 ∧ ∀ inp, den p.info inp x < 2) := by
    intro x y strip const simple
    refine simple.imp_right fun one => ⟨one.1, fun inp => ?_⟩
    have lt := den_lt p.info inp y
    rwa [one.2, strip.value] at lt
  have equality : q = .bveq ∨ q = .bvneq → ¬(q ≠ .bveq ∧ q ≠ .bvneq) :=
    fun eqOrNe other => eqOrNe.elim other.1 other.2
  simp only [LocalClean, op, ComparisonClean] at clean
  rcases leftSide with ⟨flat, kid, rfl⟩ | ⟨deep, symbolic, y, a, kid, rfl, strip, good⟩ <;>
    rcases rightSide with
      ⟨flat', kid', rfl⟩ | ⟨deep', symbolic', y', b, kid', rfl, strip', good'⟩ <;>
    simp only [kid, kid'] at clean
  · exact processLeaf_good prepared op before flat flat' clean h
  · obtain ⟨eqOrNe, constant, simple⟩ := clean
    simp only [processIcmp, if_neg (equality eqOrNe), nested, nested_zero prepared.scanned,
      Nat.pos_of_ne_zero deep', constant] at h
    obtain ⟨_, made, ⟨⟩⟩ := map_eq_some_iff.mp h
    refine compareBool_good (good'.unstrip strip') (fun inp => ?_) (bit strip' simple) made
    rw [den_icmp_ne_zero ne ordered op, recordHolds_equality op eqOrNe fits1 fits2]
    simp only [sideValue, if_pos constant, if_neg symbolic', bne, BEq.comm]
  · obtain ⟨eqOrNe, constant, simple⟩ := clean
    simp only [processIcmp, if_neg (equality eqOrNe), nested, deep, ne_eq, constant] at h
    obtain ⟨_, made, ⟨⟩⟩ := map_eq_some_iff.mp h
    refine compareBool_good (good.unstrip strip) (fun inp => ?_) (bit strip simple) made
    rw [den_icmp_ne_zero ne ordered op, recordHolds_equality op eqOrNe fits1 fits2]
    simp only [sideValue, if_pos constant, if_neg symbolic]

end Sides

/-- Processing a label that is not folded keeps the formulas right. -/
lemma closed_good (prepared : Prepared p c k) (notLoad : (p.info k).op ≠ .load)
    (clean : LocalClean p c exclusive k) : Closed p c (Good p exclusive) k := by
  intro left right now t c' relL relR before h
  have leftSide := (leftKid_for prepared).side relL
  have rightSide := (rightKid_for prepared notLoad).side relR
  have nested : now.nested = c.nested := by
    obtain ⟨_, keeps, -⟩ := before
    exact keeps.nested
  have local' := clean
  simp only [processNode] at h
  split at h
  next op =>
    obtain ⟨_, made, ⟨⟩⟩ := map_eq_some_iff.mp h
    exact processNot_good prepared leftSide rightSide op made
  next op =>
    simp only [LocalClean, op] at local'
    obtain ⟨_, made, ⟨⟩⟩ := map_eq_some_iff.mp h
    exact processLogic_good prepared leftSide rightSide (.inl ⟨op, rfl, rfl⟩) local' nested made
  next op =>
    simp only [LocalClean, op] at local'
    obtain ⟨_, made, ⟨⟩⟩ := map_eq_some_iff.mp h
    exact processLogic_good prepared leftSide rightSide (.inr ⟨op, rfl, rfl⟩) local' nested made
  next op =>
    simp only [LocalClean, op] at local'
    obtain ⟨_, made, ⟨⟩⟩ := map_eq_some_iff.mp h
    exact processXor_good prepared leftSide rightSide op local' nested made
  next q op =>
    exact processIcmp_good prepared leftSide rightSide op clean before nested h
  · obtain ⟨_, made, ⟨⟩⟩ := map_eq_some_iff.mp h
    exact processMemcmp_good prepared made
  · cases h

end Processing

/-! ## The whole formula -/

/-- No sub-condition is reached twice and none is folded to a constant. -/
def RootsClean (p : Parser) (c : Caches) (exclusive : Prop) (l : Nat) : Prop :=
  (footprint p c.nested l).Nodup ∧ ∀ k, k ∈ footprint p c.nested l → LocalClean p c exclusive k

lemma Prepared.descends_of_bit (prepared : Prepared p c l) (bit : width (p.info l) = 1) :
    Descends p c.nested l := by
  apply prepared.descends
  intro load
  have size := (prepared.conditions l .self).2.2
  simp only [Condition, load] at size
  simp only [width, load] at bit
  omega

lemma findRoots_good {c' : Caches} (prepared : Prepared p c l) (bit : width (p.info l) = 1)
    (clean : RootsClean p c exclusive l) (h : findRoots p c fuel l = some (t, c')) :
    Good p exclusive l t := by
  have down := prepared.descends_of_bit bit
  refine findRoots_rule down (prepared.conditions l .self).1 clean.1 (fun k inside => ?_) h
  obtain ⟨reach, notLoad⟩ := footprint_inDag down inside
  exact closed_good (prepared.below reach) notLoad (clean.2 k inside)

/-- The formula of a 1-bit label has the truth value of the label on every input, if
no sub-condition is reached twice and none is folded to a constant. -/
theorem findRoots_sound (p : Parser) (c c' : Caches) (fuel l : Nat) (t : AstNode)
    (prepared : Prepared p c l) (bit : width (p.info l) = 1) (clean : RootsClean p c True l)
    (h : findRoots p c fuel l = some (t, c')) (inp : Input) :
    (truth p.info inp t).toNat = den p.info inp l := by
  have lt := den_lt p.info inp l
  rw [bit] at lt
  rw [(findRoots_good prepared bit clean h).truth]
  have value : den p.info inp l = 0 ∨ den p.info inp l = 1 := by omega
  rcases value with value | value <;> rw [value] <;> rfl

/-- Caches before the first scan. -/
def noCaches : Caches := ⟨[], [], fun _ => 0⟩

lemma noCaches_inStep (p : Parser) : InStep p noCaches :=
  ⟨fun k lt => absurd lt (Nat.not_lt_zero k), rfl⟩

lemma prepared_scan (zero : (p.info 0).op = .input) (conditions : Conditions p.info l)
    (success : (scanLabels p noCaches l).1 = true) (valid : l < p.size) :
    Prepared p (scanLabels p noCaches l).2 l := by
  obtain ⟨inStep, covers⟩ := scanLabels_inStep (noCaches_inStep p) (Prod.ext success rfl)
  exact ⟨zero, conditions, inStep.scanned, covers, valid⟩

/-- The negation of a disjunction, one side of which is a comparison of an extended
boolean with zero. -/
theorem findRoots_sound_negated_disjunction :
    let p : Parser := ⟨(TableGrowth.tableOf [⟨0, 0, 0, 0, .input, 8, 0⟩,
      ⟨1, 0, 0, 65, .icmp .bveq, 8, 0⟩, ⟨1, 0, 0, 100, .icmp .bvugt, 8, 0⟩,
      ⟨2, 0, 0, 0, .zext, 32, 0⟩, ⟨4, 0, 0, 0, .icmp .bvneq, 32, 0⟩, ⟨5, 3, 0, 0, .or, 1, 0⟩,
      ⟨0, 6, 0, 0, .not, 1, 0⟩] 1000).info, 1000, 200, 200, [4]⟩
    ∃ t c', findRoots p (scanLabels p noCaches 7).2 40 7 = some (t, c') ∧
      ∀ inp, (truth p.info inp t).toNat = den p.info inp 7 := by
  intro p
  have prepared : Prepared p (scanLabels p noCaches 7).2 7 :=
    prepared_scan rfl (dag_of_range (n := 7) (by decide) (by decide)) rfl (by decide)
  have run : (findRoots p (scanLabels p noCaches 7).2 40 7).isSome = true := by decide
  obtain ⟨⟨t, c'⟩, h⟩ := Option.isSome_iff_exists.mp run
  exact ⟨t, c', h, fun inp => findRoots_sound p _ c' 40 7 t prepared rfl
    ⟨by decide, by decide⟩ h inp⟩

/-- A comparison that is also part of the other operand: its second occurrence is a
new node, a constant, and the formula of `x = 65 ∧ (x = 65 ∨ x > 100)` is false on
65. -/
theorem findRoots_shared_comparison :
    let p : Parser := ⟨(TableGrowth.tableOf [⟨0, 0, 0, 0, .input, 8, 0⟩,
      ⟨1, 0, 0, 65, .icmp .bveq, 8, 0⟩, ⟨1, 0, 0, 100, .icmp .bvugt, 8, 0⟩,
      ⟨2, 3, 0, 0, .or, 1, 0⟩, ⟨2, 4, 0, 0, .and, 1, 0⟩] 1000).info, 1000, 200, 200, [4]⟩
    let inp : Input := ⟨fun _ _ => 65, fun _ => 0⟩
    Prepared p (scanLabels p noCaches 5).2 5 ∧ width (p.info 5) = 1 ∧
      (findRoots p (scanLabels p noCaches 5).2 40 5).map (fun made => truth p.info inp made.1) =
        some false ∧
      den p.info inp 5 = 1 := by
  exact ⟨prepared_scan rfl (dag_of_range (n := 5) (by decide) (by decide)) rfl (by decide),
    rfl, by decide, by decide⟩

end RootMeaning
