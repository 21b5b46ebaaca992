import SymSan.BitMixing
import SymSan.TaskWiring
import SymSan.JigsawCode
import SymSan.TableGrowth

/-!
# The cache of compiled functions

A constraint takes over the function that was compiled for an equal AST. Equality
compares the shape, the widths, the kinds (of which all comparisons count as one) and
the hashes. The hash of a leaf is one-to-one in the position of its argument, so equal
leaves load the same arguments. The bit offset of an Extract does not enter the hash,
the second node of a label has no hash at all, and a string conversion may take over the
argument of a byte after a read of it has been hashed.
-/

namespace FunctionCache

open LabelTable TypedLabels OrderedMaps RgdAst JigsawTask UtaRel DrawnTrees JigsawCode BitMixing
open TaskLayout (Indexed)
open Option (bind_eq_some_iff bind_some map_eq_some_iff)

/-! ## `isEqualAst` -/

def isEqualNode (lhs rhs : NodeData) : Bool :=
  decide (lhs.bits = rhs.bits) &&
    if lhs.kind ≠ rhs.kind then isRelationalKind lhs.kind && isRelationalKind rhs.kind
    else decide (lhs.hash = rhs.hash)

/-- `isEqualAstRecursive` -/
def isEqualAst : AstNode → AstNode → Bool
  | .leaf d, .leaf e => isEqualNode d e
  | .node1 d a, .node1 e b => isEqualNode d e && isEqualAst a b
  | .node2 d a a', .node2 e b b' => isEqualNode d e && (isEqualAst a b && isEqualAst a' b')
  | _, _ => false

/-- The function of a constraint, if code can be generated for it. -/
def compiled (m : Machine) (c : Constraint) (args : Nat → Nat) : Option (Nat → Nat) :=
  (operands m c args).bind fun (x, y) => outcome c.ast.kind x y args

/-! ## The hash of an argument position -/

lemma rotl32_injective : Function.Injective (fun x => rotl32 x 17) := by
  intro x y same
  have bits := congrArg UInt32.toBitVec same
  exact UInt32.toBitVec_inj.mp (rotate_injective (w := 32) (r := 17) (by decide) bits)

lemma mul32_injective {p q : UInt32} (unit : p * q = 1) :
    Function.Injective (fun x : UInt32 => x * p) := by
  intro x y same
  have bits := congrArg UInt32.toBitVec same
  exact UInt32.toBitVec_inj.mp (mul_injective (congrArg UInt32.toBitVec unit) bits)

lemma xxhash_injective (h1 h2 : UInt32) : Function.Injective (xxhash h1 h2) := by
  intro x y same
  have shift16 : Function.Injective (fun x : UInt32 => x ^^^ (x >>> 16)) := fun x y same =>
    UInt32.toBitVec_inj.mp (xor_ushiftRight_injective (w := 32) (k := 16) (by decide)
      (congrArg UInt32.toBitVec same))
  have shift13 : Function.Injective (fun x : UInt32 => x ^^^ (x >>> 13)) := fun x y same =>
    UInt32.toBitVec_inj.mp (xor_ushiftRight_injective (w := 32) (k := 13) (by decide)
      (congrArg UInt32.toBitVec same))
  have shift15 : Function.Injective (fun x : UInt32 => x ^^^ (x >>> 15)) := fun x y same =>
    UInt32.toBitVec_inj.mp (xor_ushiftRight_injective (w := 32) (k := 15) (by decide)
      (congrArg UInt32.toBitVec same))
  have prime2 : (2246822519 : UInt32) * 3066638151 = 1 := by decide
  have prime3 : (3266489917 : UInt32) * 2828982549 = 1 := by decide
  have prime4 : (668265263 : UInt32) * 2701016015 = 1 := by decide
  have avalanche := shift15 (mul32_injective prime2 (shift13
    (mul32_injective prime3 (shift16 same))))
  have added := rotl32_injective (mul32_injective prime4 avalanche)
  exact mul32_injective prime3 (add_left_cancel added)

lemma ofNat32_inj {i j : Nat} (same : UInt32.ofNat i = UInt32.ofNat j) :
    i % 2 ^ 32 = j % 2 ^ 32 := by
  have nat := congrArg UInt32.toNat same
  simpa using nat

/-! ## Hashed trees -/

/-- The bounds on a record under which no constant operand of its node is cut off. -/
structure Regular (info : Nat → LabelInfo) (k : Nat) : Prop where
  size : (info k).size < 2 ^ 16
  memcmp : (info k).op = .fmemcmp → (info k).size * 8 < 2 ^ 16
  concat : (info k).op = .concat → (info (info k).l1).size ≤ (info k).size ∧
    (info (info k).l2).size ≤ (info k).size

instance (info : Nat → LabelInfo) (k : Nat) : Decidable (Regular info k) :=
  decidable_of_iff ((info k).size < 2 ^ 16 ∧
      ((info k).op = .fmemcmp → (info k).size * 8 < 2 ^ 16) ∧
      ((info k).op = .concat → (info (info k).l1).size ≤ (info k).size ∧
        (info (info k).l2).size ≤ (info k).size))
    ⟨fun ⟨size, memcmp, concat⟩ => ⟨size, memcmp, concat⟩,
      fun ⟨size, memcmp, concat⟩ => ⟨size, memcmp, concat⟩⟩

/-- Every Read has been hashed with the argument that its offset has in the end. -/
def Current (localMap : OrderedMap Nat) (t : AstNode) : Prop :=
  ∀ d, d ∈ allData t → d.kind = .read → (localMap.find d.index).map (fun start =>
    xxhash (UInt32.ofNat d.bits) (kindCode .read) (UInt32.ofNat start)) = some d.hash

instance (localMap : OrderedMap Nat) (t : AstNode) : Decidable (Current localMap t) :=
  inferInstanceAs (Decidable (∀ d, d ∈ allData t → _))

/-- Every leaf has the hash of its width and its argument; a constant has hashed the
width in the given unit. -/
inductive Hashed (localMap : OrderedMap Nat) : Nat → AstNode → Prop where
  | again {unit : Nat} {d : NodeData} (kind : d.kind = .bool) (value : d.boolvalue = 0) :
      Hashed localMap unit (.leaf d)
  | read {unit start : Nat} {d : NodeData} (kind : d.kind = .read)
      (found : localMap.find d.index = some start)
      (hash : d.hash = xxhash (UInt32.ofNat d.bits) (kindCode .read) (UInt32.ofNat start)) :
      Hashed localMap unit (.leaf d)
  | constant {unit width j : Nat} {d : NodeData} (kind : d.kind = .constant)
      (bits : d.bits = width * unit) (index : d.index = j % 2 ^ 30)
      (hash : d.hash = xxhash (UInt32.ofNat width) (kindCode .constant) (UInt32.ofNat j)) :
      Hashed localMap unit (.leaf d)
  | node1 {unit : Nat} {d : NodeData} {t : AstNode} (operator : arity d.kind ≠ some .zero)
      (below : Hashed localMap 1 t) : Hashed localMap unit (.node1 d t)
  | node2 {unit : Nat} {d : NodeData} {t1 t2 : AstNode} (operator : arity d.kind ≠ some .zero)
      (left : Hashed localMap (if d.kind = .memcmp then 8 else 1) t1)
      (right : Hashed localMap 1 t2) : Hashed localMap unit (.node2 d t1 t2)

section Drawing

variable {ctx : Context} {capacity l fuel label : Nat} {t : AstNode} {s s' : Draft}
  {draw : Nat → Draft → Option (AstNode × Draft)} {localMap : OrderedMap Nat} {kind : AstKind}

lemma Current.node1 {d : NodeData} (current : Current localMap (.node1 d t)) :
    Current localMap t := fun x inside => current x (List.mem_cons_of_mem _ inside)

lemma Current.node2 {d : NodeData} {t1 t2 : AstNode} (current : Current localMap (.node2 d t1 t2)) :
    Current localMap t1 ∧ Current localMap t2 :=
  ⟨fun x inside => current x (List.mem_cons_of_mem _ (List.mem_append_left _ inside)),
    fun x inside => current x (List.mem_cons_of_mem _ (List.mem_append_right _ inside))⟩

lemma Current.read {d : NodeData} (current : Current localMap (.leaf d)) (kind : d.kind = .read)
    (unit : Nat) : Hashed localMap unit (.leaf d) := by
  obtain ⟨_, found, hash⟩ := map_eq_some_iff.mp (current d (List.mem_singleton.mpr rfl) kind)
  exact .read kind found hash.symm

lemma operandNode_hashed {k : Nat} {mark side const other : Nat}
    (regular : Regular ctx.parser.info k)
    (others : (ctx.parser.info k).op = .concat →
      (ctx.parser.info other).size ≤ (ctx.parser.info k).size)
    (drawn : label ≠ 0 → ∀ s s', draw label s = some (t, s') → Hashed localMap 1 t)
    (h : operandNode ctx capacity draw (ctx.parser.info k) kind mark side label const other s =
      some (t, s')) : Hashed localMap 1 t := by
  obtain ⟨-, ⟨symbolic, s2, rfl, made⟩ | ⟨-, rfl, rfl⟩⟩ := operandNode_cases h
  · exact drawn symbolic.2 _ s2 made
  have small : constantBits ctx.parser.info (ctx.parser.info k) other < 2 ^ 16 := by
    have sizeField := regular.size
    simp only [constantBits]
    split
    next concat =>
      have le := others concat
      omega
    · exact sizeField
  refine .constant rfl ?_ rfl rfl
  change constantBits ctx.parser.info (ctx.parser.info k) other % 2 ^ 16 =
    constantBits ctx.parser.info (ctx.parser.info k) other * 1
  omega

lemma memcmpNode_hashed {unit : Nat} (short : (ctx.parser.info l).size * 8 < 2 ^ 16)
    (current : Current localMap t)
    (left : (ctx.parser.info l).l1 ≠ 0 → ∀ unit s t s', Current localMap t →
      draw (ctx.parser.info l).l1 s = some (t, s') → Hashed localMap unit t)
    (right : ∀ s t s', Current localMap t → draw (ctx.parser.info l).l2 s = some (t, s') →
      Hashed localMap 1 t)
    (h : memcmpNode ctx capacity draw l (ctx.parser.info l) s = some (t, s')) :
    Hashed localMap unit t := by
  obtain ⟨s1, -, h⟩ := bind_eq_some_iff.mp h
  obtain ⟨⟨t1, s2⟩, made1, h⟩ := bind_eq_some_iff.mp h
  obtain ⟨_, -, h⟩ := bind_eq_some_iff.mp h
  obtain ⟨⟨_, _⟩, made2, ⟨⟩⟩ := map_eq_some_iff.mp h
  obtain ⟨current1, current2⟩ := current.node2
  refine .node2 nofun ?_ (right _ _ _ current2 made2)
  change Hashed localMap 8 t1
  split at made1
  next symbolic =>
    obtain ⟨⟨_, s'⟩, made, ⟨⟩⟩ := map_eq_some_iff.mp made1
    exact left (by omega) 8 s1 t1 s' current1 made
  · obtain ⟨_, -, ⟨⟩⟩ := map_eq_some_iff.mp made1
    exact .constant rfl (Nat.mod_eq_of_lt short) rfl rfl

lemma opMap_operator {op : Operator} (mapped : opMap op = some kind) :
    kind ≠ .memcmp ∧ arity kind ≠ some .zero := by
  cases op with
  | icmp q => cases q <;> cases mapped <;> exact ⟨nofun, nofun⟩
  | _ => cases mapped <;> exact ⟨nofun, nofun⟩

variable (regular : ∀ k, InDag ctx.parser.info l k → Regular ctx.parser.info k)

include regular

lemma doUtaRel_hashed {unit : Nat} (current : Current localMap t)
    (h : doUtaRel ctx capacity fuel l s = some (t, s')) : Hashed localMap unit t := by
  induction fuel generalizing l unit s s' t with
  | zero => cases h
  | succ fuel ih =>
    obtain ⟨root, below1, below2⟩ := forall_inDag.mp regular
    rcases doUtaRel_some h with
      (⟨-, rfl, rfl⟩ | ⟨-, op, made⟩ | ⟨-, notLoad, made⟩) | ⟨op, made⟩ | ⟨-, offset, made⟩
    · exact .again rfl rfl
    · cases made
      exact current.read rfl unit
    · obtain ⟨kind, _, _, mapped, made1, both⟩ := operatorNode_cases made
      obtain ⟨notMemcmp, operator⟩ := opMap_operator mapped
      rcases both with ⟨-, rfl, rfl⟩ | ⟨-, t2, made2, rfl⟩
      · exact .node1 operator (operandNode_hashed root (fun concat => (root.concat concat).2)
          (fun ne s s' => ih (below1 ne) current.node1) made1)
      obtain ⟨current1, current2⟩ := current.node2
      refine .node2 operator ?_ (operandNode_hashed root (fun concat => (root.concat concat).1)
        (fun ne s s' => ih (below2 ne notLoad) current2) made2)
      change Hashed _ (if kind = .memcmp then 8 else 1) _
      rw [if_neg notMemcmp]
      exact operandNode_hashed root (fun concat => (root.concat concat).2)
        (fun ne s s' => ih (below1 ne) current1) made1
    · have notLoad : (ctx.parser.info l).op ≠ .load := by simp [op]
      refine memcmpNode_hashed (root.memcmp op) current
        (fun ne unit s t s' current => ih (below1 ne) current)
        (fun s t s' current2 made2 => ?_) made
      by_cases zero : (ctx.parser.info l).l2 = 0
      · rw [zero] at made2
        cases fuel with
        | zero => cases made2
        | succ fuel => exact absurd made2 (by simp [doUtaRel])
      · exact ih (below2 zero notLoad) current2 made2
    · simp only [atoiNode] at made
      split at made
      · cases made
      · cases made
        exact current.read rfl unit

lemma parseConstraint_hashed {astSize : List Nat} {c : Constraint}
    (current : Current c.args.localMap c.ast) (h : parseConstraint ctx astSize fuel l = some c) :
    Hashed c.args.localMap 1 c.ast ∧ Indexed c.args := by
  obtain ⟨-, _, s, -, made, args⟩ := parseConstraint_some h
  exact ⟨doUtaRel_hashed regular current made,
    TaskWiring.drawn_indexed ⟨_, _, _, _, s, made, args⟩⟩

end Drawing

/-! ## Equal trees -/

/-- The data of corresponding nodes. -/
def nodePairs : AstNode → AstNode → List (NodeData × NodeData)
  | .leaf d, .leaf e => [(d, e)]
  | .node1 d a, .node1 e b => (d, e) :: nodePairs a b
  | .node2 d a a', .node2 e b b' => (d, e) :: (nodePairs a b ++ nodePairs a' b')
  | _, _ => []

variable (pairs : List (NodeData × NodeData))

/-- Corresponding nodes match where equality does not look: in the bit offset of an
Extract and in which nodes share a label. -/
structure Aligned : Prop where
  extract : ∀ p, p ∈ pairs → p.1.kind = .extract → p.1.index = p.2.index
  labelled : ∀ p, p ∈ pairs → (p.1.label = 0 ↔ p.2.label = 0)
  shared : ∀ p, p ∈ pairs → ∀ q, q ∈ pairs → (p.1.label = q.1.label ↔ p.2.label = q.2.label)

instance (pairs : List (NodeData × NodeData)) : Decidable (Aligned pairs) :=
  decidable_of_iff ((∀ p, p ∈ pairs → p.1.kind = .extract → p.1.index = p.2.index) ∧
      (∀ p, p ∈ pairs → (p.1.label = 0 ↔ p.2.label = 0)) ∧
      ∀ p, p ∈ pairs → ∀ q, q ∈ pairs → (p.1.label = q.1.label ↔ p.2.label = q.2.label))
    ⟨fun ⟨extract, labelled, shared⟩ => ⟨extract, labelled, shared⟩,
      fun ⟨extract, labelled, shared⟩ => ⟨extract, labelled, shared⟩⟩

/-- The caches have the same values for corresponding labels. -/
def SameCache (cache cache' : ValueCache) : Prop :=
  ∀ p, p ∈ pairs → p.1.label ≠ 0 → cache p.1.label = cache' p.2.label

/-- Both fail, or both give the same value and keep the caches the same. -/
def SameMade (made made' : Option (Value × ValueCache)) : Prop :=
  (made = none ∧ made' = none) ∨ ∃ v cache cache', made = some (v, cache) ∧
    made' = some (v, cache') ∧ SameCache pairs cache cache'

section Equal

variable {pairs : List (NodeData × NodeData)} {m : Machine} {unit : Nat} {d e : NodeData}
  {made made' : Option (Value × ValueCache)} {cache cache' : ValueCache} {a a' : ArgMap}
  {t t' : AstNode}

lemma SameMade.bind {next next' : Value × ValueCache → Option (Value × ValueCache)}
    (same : SameMade pairs made made')
    (after : ∀ v cache cache', SameCache pairs cache cache' →
      SameMade pairs (next (v, cache)) (next' (v, cache'))) :
    SameMade pairs (made.bind next) (made'.bind next') := by
  rcases same with ⟨rfl, rfl⟩ | ⟨v, cache, cache', rfl, rfl, caches⟩
  · exact .inl ⟨rfl, rfl⟩
  · exact after v cache cache' caches

lemma SameMade.value (made : Option Value) (caches : SameCache pairs cache cache') :
    SameMade pairs (made.map (·, cache)) (made.map (·, cache')) := by
  cases made with
  | none => exact .inl ⟨rfl, rfl⟩
  | some v => exact .inr ⟨v, cache, cache', rfl, rfl, caches⟩

lemma cached_same (aligned : Aligned pairs) (mem : (d, e) ∈ pairs)
    (caches : SameCache pairs cache cache') (same : SameMade pairs made made') :
    SameMade pairs (cached d cache made) (cached e cache' made') := by
  by_cases zero : d.label = 0
  · have zero' : e.label = 0 := (aligned.labelled _ mem).mp zero
    simp only [cached, zero, zero']
    rcases same with ⟨rfl, rfl⟩ | ⟨v, kept, kept', rfl, rfl, after⟩
    · exact .inl ⟨rfl, rfl⟩
    · exact .inr ⟨v, kept, kept', rfl, rfl, after⟩
  · have zero' : e.label ≠ 0 := fun no => zero ((aligned.labelled _ mem).mpr no)
    have here : cache d.label = cache' e.label := caches _ mem zero
    simp only [cached, if_neg zero, if_neg zero', here]
    cases cache' e.label with
    | some v => exact .inr ⟨v, cache, cache', rfl, rfl, caches⟩
    | none =>
      rcases same with ⟨rfl, rfl⟩ | ⟨v, kept, kept', rfl, rfl, after⟩
      · exact .inl ⟨rfl, rfl⟩
      refine .inr ⟨v, _, _, rfl, rfl, fun p inside ne => ?_⟩
      have shared := aligned.shared p inside _ mem
      have stored : kept d.label = kept' e.label := after _ mem zero
      by_cases equal : p.1.label = d.label
      · rw [equal, shared.mp equal, Function.update_self, Function.update_self]
        simp only [stored]
      · rw [Function.update_of_ne equal, Function.update_of_ne (fun no => equal (shared.mpr no))]
        exact after p inside ne

lemma isEqualNode_cases (equal : isEqualNode d e = true) :
    d.bits = e.bits ∧ ((d.kind = e.kind ∧ d.hash = e.hash) ∨
      (isRelationalKind d.kind = true ∧ isRelationalKind e.kind = true)) := by
  simp only [isEqualNode, Bool.and_eq_true, decide_eq_true_eq] at equal
  obtain ⟨bits, rest⟩ := equal
  refine ⟨bits, ?_⟩
  split at rest
  · exact .inr (Bool.and_eq_true_iff.mp rest)
  next same =>
    exact .inl ⟨not_not.mp same, decide_eq_true_eq.mp rest⟩

lemma kind_same (equal : isEqualNode d e = true) :
    arity d.kind = arity e.kind ∧ (d.kind = .memcmp ↔ e.kind = .memcmp) ∧
      (arity d.kind ≠ none → d.kind = e.kind) := by
  obtain ⟨-, ⟨same, -⟩ | ⟨relational, relational'⟩⟩ := isEqualNode_cases equal
  · rw [same]
    exact ⟨rfl, .rfl, fun _ => rfl⟩
  have none : ∀ kind, isRelationalKind kind = true → arity kind = none ∧ kind ≠ .memcmp := by
    intro kind relational
    cases kind <;> cases relational <;> exact ⟨rfl, nofun⟩
  obtain ⟨none1, ne1⟩ := none _ relational
  obtain ⟨none2, ne2⟩ := none _ relational'
  rw [none1, none2]
  exact ⟨rfl, ⟨fun no => absurd no ne1, fun no => absurd no ne2⟩, fun no => absurd rfl no⟩

lemma nullary_same (args : Nat → Nat) (positive : 0 < unit)
    (hashed : Hashed a.localMap unit (.leaf d)) (hashed' : Hashed a'.localMap unit (.leaf e))
    (indexed : Indexed a) (indexed' : Indexed a') (few : a.inputArgs.length ≤ 2 ^ 32)
    (few' : a'.inputArgs.length ≤ 2 ^ 32) (equal : isEqualNode d e = true) :
    d.kind = e.kind ∧ nullary a.localMap args d = nullary a'.localMap args e := by
  have leaf : isRelationalKind d.kind = false := by
    cases hashed with
    | again kind | read kind | constant kind => rw [kind]; rfl
  obtain ⟨bits, ⟨same, hash⟩ | ⟨relational, -⟩⟩ := isEqualNode_cases equal
  · refine ⟨same, ?_⟩
    cases hashed with
    | again kind value =>
      cases hashed' with
      | again kind' value' => simp only [nullary, kind, kind', value, value']
      | read kind' | constant kind' => rw [kind, kind'] at same; cases same
    | @read _ start _ kind found code =>
      cases hashed' with
      | again kind' => rw [kind, kind'] at same; cases same
      | @read _ start' _ kind' found' code' =>
        rw [code, code', bits] at hash
        have argument := ofNat32_inj (xxhash_injective _ _ hash)
        have lt := (List.getElem?_eq_some_iff.mp (indexed.symbolic _ _ found)).1
        have lt' := (List.getElem?_eq_some_iff.mp (indexed'.symbolic _ _ found')).1
        have starts : start = start' := by omega
        simp only [nullary, kind, kind', found, found', starts]
        rw [bits]
      | constant kind' => rw [kind, kind'] at same; cases same
    | @constant _ width j _ kind wide index code =>
      cases hashed' with
      | again kind' | read kind' => rw [kind, kind'] at same; cases same
      | @constant _ width' j' _ kind' wide' index' code' =>
        have widths : width = width' := by
          rw [wide, wide'] at bits
          exact Nat.eq_of_mul_eq_mul_right positive bits
        rw [code, code', widths] at hash
        have argument := ofNat32_inj (xxhash_injective _ _ hash)
        have indices : d.index = e.index := by omega
        simp only [nullary, kind, kind', indices]
        rw [bits]
  · rw [leaf] at relational
    cases relational

lemma unary_same (kind : d.kind = e.kind) (bits : d.bits = e.bits)
    (extract : d.kind = .extract → d.index = e.index) (v : Value) : unary m d v = unary m e v := by
  obtain ⟨k, w, _, _, _, _⟩ := d
  obtain ⟨_, _, _, _, _, _⟩ := e
  cases kind
  cases bits
  by_cases isExtract : k = .extract
  · cases extract isExtract
    rfl
  · cases k <;> first | rfl | exact absurd rfl isExtract

lemma combine_same (kind : d.kind = e.kind) (bits1 bits2 : Nat) (x y : Value) :
    combine m d bits1 bits2 x y = combine m e bits1 bits2 x y := by
  simp only [combine, kind]

lemma leaf_arity {localMap : OrderedMap Nat} (hashed : Hashed localMap unit (.leaf d)) :
    arity d.kind = some .zero := by
  cases hashed with
  | again kind | read kind | constant kind => rw [kind]; rfl

lemma isEqualAst_data (equal : isEqualAst t t' = true) : isEqualNode t.data t'.data = true := by
  cases t <;> cases t' <;> first
    | cases equal
    | exact equal
    | exact (Bool.and_eq_true_iff.mp equal).1

lemma Hashed.pair {map map' : OrderedMap Nat} {unit unit' : Nat} {t1 t2 t1' t2' : AstNode}
    (hashed : Hashed map unit (.node2 d t1 t2)) (hashed' : Hashed map' unit' (.node2 e t1' t2'))
    (units : d.kind = .memcmp ↔ e.kind = .memcmp) :
    arity d.kind ≠ some .zero ∧ (∃ wide, 0 < wide ∧ Hashed map wide t1 ∧ Hashed map' wide t1') ∧
      Hashed map 1 t2 ∧ Hashed map' 1 t2' := by
  cases hashed with
  | node2 operator left right =>
    cases hashed' with
    | node2 _ left' right' =>
      simp only [← units] at left'
      exact ⟨operator, ⟨_, by split <;> decide, left, left'⟩, right, right'⟩

/-- Code for equal trees computes the same value. -/
lemma codegen_same (m : Machine) (args : Nat → Nat) (positive : 0 < unit)
    (hashed : Hashed a.localMap unit t) (hashed' : Hashed a'.localMap unit t') (indexed : Indexed a)
    (indexed' : Indexed a') (few : a.inputArgs.length ≤ 2 ^ 32)
    (few' : a'.inputArgs.length ≤ 2 ^ 32) (aligned : Aligned pairs)
    (inside : ∀ p ∈ nodePairs t t', p ∈ pairs) (equal : isEqualAst t t' = true)
    (caches : SameCache pairs cache cache') :
    SameMade pairs (codegen m a.localMap args t cache) (codegen m a'.localMap args t' cache') := by
  induction t generalizing t' unit cache cache' with
  | leaf d =>
    cases t' with
    | leaf e =>
      obtain ⟨kind, leaves⟩ :=
        nullary_same args positive hashed hashed' indexed indexed' few few' equal
      refine cached_same aligned (inside _ List.mem_cons_self) caches ?_
      simp only [leaf_arity hashed, leaf_arity hashed', leaves]
      exact .value _ caches
    | node1 | node2 => cases equal
  | node1 d t ih =>
    cases t' with
    | leaf => cases equal
    | node1 e t' =>
      obtain ⟨equal, equalBelow⟩ := Bool.and_eq_true_iff.mp equal
      obtain ⟨arities, -, kinds⟩ := kind_same equal
      have here := inside _ List.mem_cons_self
      have bits := isEqualAst_data equalBelow
      cases hashed with
      | node1 operator below =>
        cases hashed' with
        | node1 _ below' =>
          have same := ih Nat.one_pos below below'
            (fun p mem => inside p (List.mem_cons_of_mem _ mem)) equalBelow caches
          refine cached_same aligned here caches ?_
          rw [← arities]
          rcases ar : arity d.kind with _ | ar'
          · exact .inl ⟨rfl, rfl⟩
          have kind := kinds (by rw [ar]; nofun)
          have nodeBits := (isEqualNode_cases equal).1
          cases ar' with
          | zero => exact absurd ar operator
          | one =>
            refine same.bind fun v kept kept' after => ?_
            simp only [unary_same kind nodeBits (aligned.extract _ here)]
            exact .value _ after
          | two =>
            refine same.bind fun v kept kept' after => ?_
            simp only [combine_same kind, (isEqualNode_cases bits).1]
            exact .value _ after
    | node2 => cases equal
  | node2 d t1 t2 ih1 ih2 =>
    cases t' with
    | leaf | node1 => cases equal
    | node2 e t1' t2' =>
      obtain ⟨equal, equalBelow⟩ := Bool.and_eq_true_iff.mp equal
      obtain ⟨equal1, equal2⟩ := Bool.and_eq_true_iff.mp equalBelow
      obtain ⟨arities, units, kinds⟩ := kind_same equal
      have here := inside _ List.mem_cons_self
      have bits1 := (isEqualNode_cases (isEqualAst_data equal1)).1
      have bits2 := (isEqualNode_cases (isEqualAst_data equal2)).1
      obtain ⟨operator, ⟨_, positive, left, left'⟩, right, right'⟩ := hashed.pair hashed' units
      have same1 : ∀ {kept kept' : ValueCache}, SameCache pairs kept kept' → _ :=
        fun after => ih1 positive left left' (fun p mem => inside p
          (List.mem_cons_of_mem _ (List.mem_append_left _ mem))) equal1 after
      have same2 : ∀ {kept kept' : ValueCache}, SameCache pairs kept kept' → _ :=
        fun after => ih2 Nat.one_pos right right' (fun p mem => inside p
          (List.mem_cons_of_mem _ (List.mem_append_right _ mem))) equal2 after
      refine cached_same aligned here caches ?_
      rw [← arities]
      rcases ar : arity d.kind with _ | ar'
      · exact .inl ⟨rfl, rfl⟩
      have kind := kinds (by rw [ar]; nofun)
      have nodeBits := (isEqualNode_cases equal).1
      cases ar' with
      | zero => exact absurd ar operator
      | one =>
        refine (same1 caches).bind fun v kept kept' after => ?_
        simp only [unary_same kind nodeBits (aligned.extract _ here)]
        exact .value _ after
      | two =>
        refine (same1 caches).bind fun v kept kept' after => ?_
        refine (same2 after).bind fun w kept2 kept2' after2 => ?_
        simp only [combine_same kind, bits1, bits2]
        exact .value _ after2

end Equal

lemma parseConstraint_root {ctx : Context} {astSize : List Nat} {fuel l : Nat} {c : Constraint}
    (h : parseConstraint ctx astSize fuel l = some c) : ∃ d t1 t2, c.ast = .node2 d t1 t2 := by
  obtain ⟨cmp, _, s, -, made, -⟩ := parseConstraint_some h
  rcases fuel with _ | fuel
  · cases made
  rcases doUtaRel_some made with (⟨seen, -⟩ | ⟨-, op, -⟩ | ⟨-, -, made⟩) | ⟨-, made⟩ | ⟨op, -⟩
  · cases seen
  · rcases op with op | op
    all_goals
      rw [op] at cmp
      cases cmp
  · obtain ⟨_, t1, _, -, -, both⟩ := operatorNode_cases made
    rcases both with ⟨unary, -⟩ | ⟨-, t2, -, root⟩
    · cases op : (ctx.parser.info l).op <;> rw [op] at cmp unary <;> cases unary <;> cases cmp
    · exact ⟨_, t1, t2, root⟩
  · obtain ⟨_, -, made⟩ := bind_eq_some_iff.mp made
    obtain ⟨⟨t1, _⟩, -, made⟩ := bind_eq_some_iff.mp made
    obtain ⟨_, -, made⟩ := bind_eq_some_iff.mp made
    obtain ⟨⟨t2, _⟩, -, done⟩ := map_eq_some_iff.mp made
    exact ⟨_, t1, t2, (Prod.mk.inj done).1.symm⟩
  · rw [op] at cmp
    cases cmp

lemma outcome_same {d e : NodeData} (equal : isEqualNode d e = true) (x y : Value)
    (args : Nat → Nat) : outcome d.kind x y args = outcome e.kind x y args := by
  obtain ⟨-, ⟨same, -⟩ | ⟨relational, relational'⟩⟩ := isEqualNode_cases equal
  · rw [same]
  · simp [outcome, relational, relational']

/-- Two constraints whose ASTs are equal and aligned have the same function. -/
theorem compiled_same (ctx ctx' : Context) (astSize astSize' : List Nat) (fuel fuel' l l' : Nat)
    (c c' : Constraint) (parsed : parseConstraint ctx astSize fuel l = some c)
    (parsed' : parseConstraint ctx' astSize' fuel' l' = some c')
    (regular : ∀ k, InDag ctx.parser.info l k → Regular ctx.parser.info k)
    (regular' : ∀ k, InDag ctx'.parser.info l' k → Regular ctx'.parser.info k)
    (current : Current c.args.localMap c.ast) (current' : Current c'.args.localMap c'.ast)
    (few : c.args.inputArgs.length ≤ 2 ^ 32) (few' : c'.args.inputArgs.length ≤ 2 ^ 32)
    (aligned : Aligned (nodePairs c.ast c'.ast)) (equal : isEqualAst c.ast c'.ast = true)
    (m : Machine) (args : Nat → Nat) : compiled m c args = compiled m c' args := by
  obtain ⟨hashed, indexed⟩ := parseConstraint_hashed regular current parsed
  obtain ⟨hashed', indexed'⟩ := parseConstraint_hashed regular' current' parsed'
  obtain ⟨d, t1, t2, root⟩ := parseConstraint_root parsed
  obtain ⟨e, t1', t2', root'⟩ := parseConstraint_root parsed'
  rw [root] at hashed aligned equal
  rw [root'] at hashed' aligned equal
  obtain ⟨equal, equalBelow⟩ := Bool.and_eq_true_iff.mp equal
  obtain ⟨equal1, equal2⟩ := Bool.and_eq_true_iff.mp equalBelow
  obtain ⟨-, ⟨_, positive, left, left'⟩, right, right'⟩ :=
    hashed.pair hashed' (kind_same equal).2.1
  have none : SameCache (nodePairs (.node2 d t1 t2) (.node2 e t1' t2')) (fun _ => none)
      (fun _ => none) := fun _ _ _ => rfl
  have child : ∀ i, (c.ast.child i = if i = 0 then t1 else t2) ∧
      (c'.ast.child i = if i = 0 then t1' else t2') := by
    intro i
    rw [root, root']
    exact ⟨rfl, rfl⟩
  have kind : c.ast.kind = d.kind ∧ c'.ast.kind = e.kind := by
    rw [root, root']
    exact ⟨rfl, rfl⟩
  simp only [compiled, operands, (child 0).1, (child 0).2, (child 1).1, (child 1).2, if_true,
    kind.1, kind.2, Nat.one_ne_zero, if_false]
  rcases codegen_same m args positive left left' indexed indexed' few few' aligned
      (fun p mem => List.mem_cons_of_mem _ (List.mem_append_left _ mem)) equal1 none with
    ⟨no, no'⟩ | ⟨x, kept, kept', made, made', after⟩
  · rw [no, no']
    rfl
  rw [made, made', bind_some, bind_some]
  rcases codegen_same m args Nat.one_pos right right' indexed indexed' few
      few' aligned (fun p mem => List.mem_cons_of_mem _ (List.mem_append_right _ mem)) equal2
      after with ⟨no, no'⟩ | ⟨y, kept2, kept2', made2, made2', -⟩
  · rw [no, no']
    rfl
  · rw [made2, made2']
    exact outcome_same equal x y args

/-- The number that a string at an offset is converted to, compared with a constant. -/
def converted (offset value : Nat) : Nat → LabelInfo :=
  (TableGrowth.tableOf [⟨0, 0, offset, 0, .input, 8, 0⟩, ⟨1, 1, 0, 0, .load, 8, 0⟩,
    ⟨0, 2, 10, 1, .fatoi, 32, 0⟩, ⟨3, 0, 0, value, .icmp .bveq, 32, 0⟩] 1000).info

/-- A byte of a word, compared with a constant. -/
def byteOfWord (offset : Nat) : Nat → LabelInfo :=
  (TableGrowth.tableOf [⟨0, 0, 0, 0, .input, 8, 0⟩, ⟨0, 0, 1, 0, .input, 8, 0⟩,
    ⟨1, 2, 0, 0, .load, 16, 0⟩, ⟨3, 0, 0, offset, .extract, 8, 0⟩,
    ⟨4, 0, 0, 7, .icmp .bveq, 8, 0⟩] 1000).info

/-- Strings at other offsets, compared with other constants, share the function. -/
theorem compiled_same_conversions : ∃ c c',
    parseConstraint (plainContext (converted 0 5) [8]) [0, 1, 1, 1, 3] 5 4 = some c ∧
      parseConstraint (plainContext (converted 7 9) [8]) [0, 1, 1, 1, 3] 5 4 = some c' ∧
      ∀ args, compiled leavingMachine c args = compiled leavingMachine c' args := by
  have run : ((parseConstraint (plainContext (converted 0 5) [8]) [0, 1, 1, 1, 3] 5 4).bind
      fun c => (parseConstraint (plainContext (converted 7 9) [8]) [0, 1, 1, 1, 3] 5 4).map
        fun c' => (decide (c.args.inputArgs.length ≤ 2 ^ 32), decide (c'.args.inputArgs.length ≤
          2 ^ 32), decide (Current c.args.localMap c.ast), decide (Current c'.args.localMap c'.ast),
          decide (Aligned (nodePairs c.ast c'.ast)), isEqualAst c.ast c'.ast)) =
      some (true, true, true, true, true, true) := by decide +kernel
  obtain ⟨c, parsed, run⟩ := bind_eq_some_iff.mp run
  obtain ⟨c', parsed', run⟩ := map_eq_some_iff.mp run
  simp only [Prod.mk.injEq, decide_eq_true_eq] at run
  obtain ⟨few, few', current, current', aligned, equal⟩ := run
  refine ⟨c, c', parsed, parsed', fun args => ?_⟩
  exact compiled_same _ _ _ _ 5 5 4 4 c c' parsed parsed'
    (fun k reach => (dag_of_range (n := 4) (by decide) (by decide) k reach).2.2)
    (fun k reach => (dag_of_range (n := 4) (by decide) (by decide) k reach).2.2)
    current current' few few' aligned equal leavingMachine args

/-- The low and the high byte of a word share the function that was compiled first. -/
theorem compiled_extract_confused : let args : Nat → Nat := fun i => [0, 0, 1, 2, 7].getD i 0
    ∃ c c', parseConstraint (plainContext (byteOfWord 0) [4]) [0, 1, 1, 1, 2, 4] 6 5 = some c ∧
      parseConstraint (plainContext (byteOfWord 8) [4]) [0, 1, 1, 1, 2, 4] 6 5 = some c' ∧
      c.ast.data.hash = c'.ast.data.hash ∧ isEqualAst c.ast c'.ast = true ∧
      (compiled leavingMachine c args).map (· 0) = some 1 ∧
      (compiled leavingMachine c' args).map (· 0) = some 2 := by
  intro args
  have run : ((parseConstraint (plainContext (byteOfWord 0) [4]) [0, 1, 1, 1, 2, 4] 6 5).bind
      fun c => (parseConstraint (plainContext (byteOfWord 8) [4]) [0, 1, 1, 1, 2, 4] 6 5).map
        fun c' => (decide (c.ast.data.hash = c'.ast.data.hash) && isEqualAst c.ast c'.ast,
          (compiled leavingMachine c args).map (· 0),
          (compiled leavingMachine c' args).map (· 0))) =
      some (true, some 1, some 2) := by decide +kernel
  obtain ⟨c, parsed, run⟩ := bind_eq_some_iff.mp run
  obtain ⟨c', parsed', run⟩ := map_eq_some_iff.mp run
  obtain ⟨same, slots⟩ := Prod.mk.inj run
  obtain ⟨hash, equal⟩ := Bool.and_eq_true_iff.mp same
  obtain ⟨slot, slot'⟩ := Prod.mk.inj slots
  exact ⟨c, c', parsed, parsed', decide_eq_true_eq.mp hash, equal, slot, slot'⟩

end FunctionCache
