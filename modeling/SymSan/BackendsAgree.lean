import SymSan.AstSolver
import SymSan.OperandMeaning
import SymSan.Z3Caches

/-!
# The two Z3 back ends

`Z3Solver` reads the AST that `do_uta_rel` has drawn and `Z3AstParser` the union table
itself. On a comparison over the bytes of one input buffer both formulas hold of the
same inputs. The induction follows the drawn tree: the expression of a node means the
operand the node was drawn for, and so does every expression that is kept for a label,
which is all that a second node of the label needs.
-/

namespace BackendsAgree

open LabelTable Denotation TypedLabels BitTerms LittleEndian RgdAst JigsawTask UtaRel DrawnTrees
open OperandMeaning AstSolver Z3Soundness Z3Caches
open Option (bind_eq_some_iff map_eq_some_iff)

/-- The constants of the solver are the offsets of a buffer. -/
def buffer (id : Nat) (inp : Input) : Nat → Nat := fun offset => (inp.byte id offset).toNat

def MeansLabel (info : Nat → LabelInfo) (id l : Nat) (e : Expr Nat) : Prop :=
  Means (buffer id) (width (info l)) (fun inp => den info inp l) e

section Serialize

variable {info : Nat → LabelInfo} {mark : Nat → Nat} {id l w : Nat} {a : ArgMap} {v : List Nat}
  {cache cache' : ExprCache} {d : NodeData} {e x y : Expr Nat} {kind : AstKind}
  {v1 v2 : Input → Nat} {op : Operator} {arith : Arith}

lemma cached_fresh {make : Option (Expr Nat × ExprCache)}
    (kept : Kept (MeansLabel info id) v cache)
    (label : d.label = 0 ∨ d.label ∉ v) : cached d cache make = make := by
  have none : (if d.label = 0 then none else cache d.label) = none := by
    rcases label with zero | fresh
    · exact if_pos zero
    · rw [kept.none_of_fresh fresh]
      exact ite_self _
  rw [cached, none]

/-! ## Leaves -/

lemma constant_means {value bits j : Nat} {args : List (Bool × Nat)}
    (narrow : bits ≤ 64 ∧ value < 2 ^ bits) (small : args.length ≤ 2 ^ 30)
    (width : d.bits = bits % 2 ^ 16) (index : d.index = j % 2 ^ 30)
    (arg : args[j]? = some (false, value)) (made : constant args d = some e) :
    Means (buffer id) bits (fun _ => value % 2 ^ bits) e := by
  have inside := (List.getElem?_eq_some_iff.mp arg).1
  have same : d.index = j := by omega
  have wide : d.bits = bits := by omega
  simp only [constant, same, arg, wide, if_pos narrow.1] at made
  split at made
  next one =>
    subst one
    cases made
    exact .truth narrow.2
  · exact .num made

lemma const_means (id offset : Nat) :
    Means (buffer id) 8 (fun inp => (inp.byte id offset).toNat) (Expr.const offset 8) := by
  refine ⟨rfl, fun inp => ?_⟩
  exact Nat.mod_eq_of_lt (BitVec.isLt _)

lemma readBytes_means (id : Nat) {index n : Nat} (made : readBytes index n = some e) :
    Means (buffer id) (8 * (n + 1))
      (fun inp => word (fun i => (inp.byte id (index + i)).toNat) (n + 1)) e := by
  induction n generalizing e with
  | zero =>
    cases made
    refine ⟨rfl, fun inp => ?_⟩
    rw [word_one]
    exact (const_means id index).value inp
  | succ n ih =>
    obtain ⟨_, made', joined⟩ := bind_eq_some_iff.mp made
    have both := (const_means id (index + (n + 1))).concat (ih made') joined
    refine ⟨both.wide.trans (by omega), fun inp => ?_⟩
    rw [both.value, word_succ _ (n + 1), two_pow_mul_eight]

/-! ## Operators -/

lemma asBits_means {value : Input → Nat} (means : Means (buffer id) w value x)
    (made : asBits x = some e) : Means (buffer id) w value e := by
  simp only [asBits] at made
  split at made
  next bool =>
    obtain ⟨one, made1, made⟩ := bind_eq_some_iff.mp made
    obtain ⟨zero, made0, made⟩ := bind_eq_some_iff.mp made
    obtain ⟨-, -, sort, choice⟩ := Expr.ite_some made
    have oneMeans : Means (buffer id) 1 _ one := .num made1
    have zeroMeans : Means (buffer id) 1 _ zero := .num made0
    have bit : w = 1 := by rw [← means.wide, Expr.width, bool, Srt.width]
    refine ⟨?_, fun inp => ?_⟩
    · rw [Expr.width, sort, ← Expr.width, oneMeans.wide, bit]
    · have lt := means.lt inp
      rw [choice, means.value, oneMeans.value, zeroMeans.value]
      rw [bit] at lt
      split <;> omega
  · cases made
    exact means

lemma unary_means (plain : Plain info mark id l) (cast : isUnary (info l).op = true)
    (plain1 : Plain info mark id (info l).l1) (stamped : Stamped info l d)
    (index : d.index = (if (info l).op = .extract then (info l).op2 else 0) % 2 ^ 30)
    {childBits : Nat} (child : childBits = width (info (info l).l1))
    (means : Means (buffer id) (width (info (info l).l1)) (fun inp => den info inp (info l).l1) x)
    (made : unary d childBits x = some e) :
    Means (buffer id) (width (info l)) (fun inp => den info inp l) e := by
  obtain ⟨bits, _, casts⟩ := cast_cases plain cast plain1 stamped index
  rw [plain.width_eq]
  have grown : ∀ x' w', Means (buffer id) (width (info (info l).l1))
      (fun inp => den info inp (info l).l1) x' → extension d.bits childBits x' = some w' →
      w' = (info l).size := by
    intro x' w' means' made
    obtain ⟨_, made⟩ := Option.ite_none_right_eq_some.mp made
    have wide := means'.wide
    have total := Option.some.inj made
    omega
  rcases casts with ⟨op, kind⟩ | ⟨op, kind⟩ | ⟨op, kind, low⟩
  · simp only [unary, kind] at made
    obtain ⟨x', bitsMade, made⟩ := bind_eq_some_iff.mp made
    obtain ⟨w', sized, made⟩ := bind_eq_some_iff.mp made
    have means' := asBits_means means bitsMade
    cases grown x' w' means' sized
    have wider := means'.zext made
    exact ⟨wider.wide, fun inp => (wider.value inp).trans ((den_zext plain op).2 inp).symm⟩
  · simp only [unary, kind] at made
    obtain ⟨w', sized, made⟩ := bind_eq_some_iff.mp made
    cases grown x w' means sized
    have wider := means.sext made
    exact ⟨wider.wide, fun inp => (wider.value inp).trans ((den_sext plain op).2 inp).symm⟩
  · obtain ⟨_, value⟩ := den_extract plain op
    simp only [unary, kind, low, bits] at made
    obtain ⟨_, cut⟩ := means.extract made
    have size : (lowBit (info l) + (info l).size + 2 ^ 32 - 1) % 2 ^ 32 + 1 - lowBit (info l) =
        (info l).size := by
      omega
    rw [size] at cut
    exact ⟨cut.wide, fun inp => (cut.value inp).trans (value inp).symm⟩

lemma bitwise_means {logic : Logic}
    (agree : ∀ p q, logic.eval p q = ((arith.eval (BitVec.ofNat 1 p.toNat) (BitVec.ofNat 1
      q.toNat)).toNat == 1)) (left : Means (buffer id) w v1 x) (right : Means (buffer id) w v2 y)
    (made : bitwise logic arith x y = some e) :
    Means (buffer id) w
      (fun inp => (arith.eval (BitVec.ofNat w (v1 inp)) (BitVec.ofNat w (v2 inp))).toNat) e := by
  simp only [bitwise] at made
  split at made
  · exact .logic agree left right made
  · exact left.arith right made

lemma arith_means (mapped : opMap op = some kind) (meant : arithOf op = some arith)
    (left : Means (buffer id) w v1 x) (right : Means (buffer id) w v2 y)
    (made : binary kind x y = some e) :
    Means (buffer id) w
      (fun inp => (arith.eval (BitVec.ofNat w (v1 inp)) (BitVec.ofNat w (v2 inp))).toNat) e := by
  cases op <;> cases meant <;> cases mapped <;> first
    | exact left.arith right made
    | exact bitwise_means (by decide) left right made

lemma binary_means (plain : Plain info mark id l) (twoOperands : isUnary (info l).op = false)
    (stamped : Stamped info l d)
    (left : Means (buffer id) (Operand.width info (first info mark l))
      (fun inp => Operand.value info inp (first info mark l)) x)
    (right : Means (buffer id) (Operand.width info (second info mark l))
      (fun inp => Operand.value info inp (second info mark l)) y)
    (made : binary d.kind x y = some e) :
    Means (buffer id) (width (info l)) (fun inp => den info inp l) e := by
  rw [plain.width_eq]
  rcases concat_or_arith stamped.kind twoOperands (plain.noCompare l .self) with
    ⟨op, kind⟩ | ⟨arith, op⟩
  · obtain ⟨_, _, _, pair, value⟩ := den_concat plain op
    rw [pair.width1] at left
    rw [pair.width2] at right
    rw [kind] at made
    have joined := right.concat left made
    refine ⟨joined.wide.trans (by omega), fun inp => ?_⟩
    rw [joined.value, value]
  · obtain ⟨pair, value⟩ := den_arith plain op
    rw [pair.width1] at left
    rw [pair.width2] at right
    have result := arith_means stamped.kind op left right made
    exact ⟨result.wide, fun inp => (result.value inp).trans (value inp).symm⟩

/-- The kind of a drawn operation decides the branch of `serialize`. -/
lemma kind_unary (mapped : opMap op = some kind) (cast : isUnary op = true) :
    isNullaryKind kind = false ∧ isUnaryKind kind = true := by
  cases op <;> cases cast <;> cases mapped <;> exact ⟨rfl, rfl⟩

lemma kind_binary (mapped : opMap op = some kind) (twoOperands : isUnary op = false) :
    isNullaryKind kind = false ∧ isUnaryKind kind = false := by
  cases op with
  | zext | sext | trunc | extract => cases twoOperands
  | icmp q => cases q <;> cases mapped <;> exact ⟨rfl, rfl⟩
  | _ => cases mapped <;> exact ⟨rfl, rfl⟩

/-! ## Trees -/

/-- The expression of a drawn node means its operand, and the labels of the tree are
kept. -/
lemma serialize_means {v' : List Nat} {o : Operand} {t : AstNode}
    (drawn : Drawn info mark a v o t v') (small : a.inputArgs.length ≤ 2 ^ 30)
    (sane : Sane info mark id o) (kept : Kept (MeansLabel info id) v cache)
    (h : serialize a.inputArgs t cache = some (e, cache')) :
    Means (buffer id) (Operand.width info o) (fun inp => Operand.value info inp o) e ∧
      Kept (MeansLabel info id) (o.after v') cache' := by
  induction drawn generalizing e cache cache' with
  | constant kind width label arg =>
    obtain ⟨j, index, found⟩ := arg
    rw [serialize, cached_fresh kept (.inl label)] at h
    simp only [kind, nullary] at h
    obtain ⟨out, made, ⟨⟩⟩ := map_eq_some_iff.mp h
    exact ⟨constant_means sane small width index found made, kept⟩
  | @again v l seen =>
    obtain ⟨e', found⟩ := (kept.drawn l).mp seen
    have ne : l ≠ 0 := sane.typed.root.1
    have same : serialize a.inputArgs (visitedNode l (info l).size) cache = some (e', cache) := by
      have label : (visitedNode l (info l).size).data.label = l := rfl
      simp only [visitedNode, AstNode.data] at label ⊢
      rw [serialize, cached, label, if_neg ne, found]
    rw [same] at h
    cases h
    exact ⟨kept.right l _ found, kept.again seen⟩
  | @read v l d fresh op kind bits label index mapped =>
    obtain ⟨_, size, value⟩ := den_read sane op
    obtain ⟨-, _⟩ := sane.oneInput l .self op
    have narrow := sane.narrow l .self
    rw [serialize, cached_fresh kept (.inr (label ▸ fresh))] at h
    simp only [kind, nullary] at h
    obtain ⟨out, made, done⟩ := map_eq_some_iff.mp h
    have offset : d.index = (readOf info l).2.1 := by omega
    have length : d.bits / 8 - 1 + 1 = (readOf info l).2.2 := by omega
    have bytes := readBytes_means id made
    rw [offset, length] at bytes
    have means : Means (buffer id) (width (info l)) (fun inp => den info inp l) out := by
      refine ⟨bytes.wide.trans (by rw [sane.width_eq, size]), fun inp => ?_⟩
      rw [bytes.value, value]
    rw [label, cacheExpr, if_neg sane.typed.root.1] at done
    cases done
    exact ⟨means, kept.add means⟩
  | @unary v v' l d t fresh op stamped index child ih =>
    obtain ⟨_, same, plain1⟩ := cast_first sane (isCast_of_isUnary op)
    obtain ⟨notNullary, unaryKind⟩ := kind_unary stamped.kind op
    rw [serialize, cached_fresh kept (.inr (stamped.label ▸ fresh))] at h
    simp only [notNullary, unaryKind] at h
    obtain ⟨⟨x, _⟩, made1, h⟩ := bind_eq_some_iff.mp h
    obtain ⟨_, made, done⟩ := map_eq_some_iff.mp h
    rw [same] at ih child ⊢
    obtain ⟨means1, kept1⟩ := ih plain1 kept made1
    have means := unary_means sane op plain1 stamped index (drawn_bits child plain1) means1 made
    rw [stamped.label, cacheExpr, if_neg sane.typed.root.1] at done
    cases done
    exact ⟨means, kept1.add means⟩
  | @binary v v1 v2 l d t1 t2 fresh op stamped _ _ ih1 ih2 =>
    obtain ⟨notNullary, notUnary⟩ := kind_binary stamped.kind op
    rw [serialize, cached_fresh kept (.inr (stamped.label ▸ fresh))] at h
    simp only [notNullary, notUnary] at h
    obtain ⟨⟨x, _⟩, made1, h⟩ := bind_eq_some_iff.mp h
    obtain ⟨⟨y, _⟩, made2, h⟩ := bind_eq_some_iff.mp h
    obtain ⟨_, made, done⟩ := map_eq_some_iff.mp h
    obtain ⟨sane1, sane2⟩ := sane.operands stamped.kind op
    obtain ⟨means1, kept1⟩ := ih1 sane1 kept made1
    obtain ⟨means2, kept2⟩ := ih2 sane2 kept1 made2
    have means := binary_means sane op stamped means1 means2 made
    rw [stamped.label, cacheExpr, if_neg sane.typed.root.1] at done
    cases done
    exact ⟨means, kept2.add means⟩

lemma compareExprs_means {q : Predicate} (known : predicateOf kind = some q)
    (left : Means (buffer id) w v1 x) (right : Means (buffer id) w v2 y)
    (made : compareExprs kind x y = some e) :
    Means (buffer id) 1
      (fun inp => (compare q (BitVec.ofNat w (v1 inp)) (BitVec.ofNat w (v2 inp))).toNat) e := by
  cases kind <;> cases known <;> first
    | exact left.equal right made
    | exact left.distinct right made
    | exact left.order right made

end Serialize

/-! ## Comparisons -/

section Compares

variable {info : Nat → LabelInfo} {mark : Nat → Nat} {id l : Nat} {q : Predicate} {a : ArgMap}
  {v : List Nat} {e : Expr Nat} {cache : ExprCache}

lemma serializeRel_relates {t : AstNode} {kind : AstKind} {q' : Predicate}
    (cmp : Compares info q l) (one : OneBuffer info mark id l)
    (drawn : Drawn info mark a [] (.label l) t v) (small : a.inputArgs.length ≤ 2 ^ 30)
    (known : predicateOf kind = some q')
    (h : serializeRel kind t a.inputArgs (fun _ => none) = some (e, cache)) :
    Means (buffer id) 1 (fun inp =>
      (compare q' (BitVec.ofNat (info l).size (operand1 info (den info inp) (info l)))
        (BitVec.ofNat (info l).size (operand2 info (den info inp) (info l)))).toNat) e := by
  obtain ⟨pair, -⟩ := cmp.den one
  obtain ⟨d, _, _, _, _, rfl, _, left, right⟩ := drawn_compare drawn cmp.op
  obtain ⟨⟨x, _⟩, made1, h⟩ := bind_eq_some_iff.mp h
  obtain ⟨⟨y, _⟩, made2, h⟩ := bind_eq_some_iff.mp h
  obtain ⟨_, made, ⟨⟩⟩ := map_eq_some_iff.mp h
  obtain ⟨means1, kept1⟩ := serialize_means left small pair.sane1 kept_nil made1
  obtain ⟨means2, -⟩ := serialize_means right small pair.sane2 kept1 made2
  rw [pair.width1] at means1
  rw [pair.width2] at means2
  have means := compareExprs_means known means1 means2 made
  refine ⟨means.wide, fun inp => ?_⟩
  rw [means.value, pair.value1, pair.value2]

lemma serializeRel_means {t : AstNode} (cmp : Compares info q l) (one : OneBuffer info mark id l)
    (drawn : Drawn info mark a [] (.label l) t v) (small : a.inputArgs.length ≤ 2 ^ 30)
    (h : serializeRel t.kind t a.inputArgs (fun _ => none) = some (e, cache)) :
    Means (buffer id) 1 (fun inp => den info inp l) e := by
  obtain ⟨pair, value⟩ := cmp.den one
  obtain ⟨d, _, _, _, _, rfl, stamped, -⟩ := drawn_compare drawn cmp.op
  have kind := stamped.kind
  rw [cmp.op] at kind
  have means := serializeRel_relates cmp one drawn small (predicateOf_opMap kind).1 h
  refine ⟨means.wide, fun inp => ?_⟩
  rw [means.value, value, pair.value1, pair.value2]

/-- A constant operand of a Concat of at most 64 bits fits into the size byte. -/
lemma constantFits_of_narrow (cmp : Compares info q l) {k : Nat} (reach : InDag info l k) :
    ConstantFits info (info k) := by
  have narrow := cmp.narrow k reach
  obtain ⟨-, -, typed, -⟩ := cmp.typed k reach
  intro op
  simp only [Typed, op] at typed
  exact ⟨fun _ => by omega, fun _ => by omega⟩

end Compares

/-- On a comparison over the bytes of one buffer the two formulas hold of the same
inputs. -/
theorem backends_agree (ctx : Context) (p : Z3Parser.Parser) (table : p.info = ctx.parser.info)
    (astSize : List Nat) (fuel l id : Nat) (q : Predicate) (cmp : Compares ctx.parser.info q l)
    (one : OneBuffer ctx.parser.info ctx.concretize id l)
    (sized : ∀ size, astSize[l]? = some size → size ≤ 2 ^ 27) (c : Constraint)
    (parsed : parseConstraint ctx astSize fuel l = some c) (e1 : Expr Nat) (cache : ExprCache)
    (drawn : serializeRel c.ast.kind c.ast c.args.inputArgs (fun _ => none) = some (e1, cache))
    (caches caches' : Z3Parser.Caches) (deps deps' : Z3Parser.Deps) (e2 : Expr Z3Parser.Name)
    (reached : Reached p caches)
    (made : Z3Parser.serialize p caches l deps = (some (e2, deps'), caches'))
    (inp : Input) (env : Z3Parser.Name → Nat) (agrees : Agrees inp env) :
    e1.value (buffer id inp) = 1 ↔ e2.value env = 1 := by
  obtain ⟨v, size, tree, known, _⟩ := parseConstraint_draws cmp.typed cmp.narrow parsed
  have le := sized size known
  have means := serializeRel_means cmp one tree (by omega) drawn
  have consistent : Consistent p caches' := by
    have next := serialize_consistent l deps reached.consistent
    rw [made] at next
    exact next
  obtain ⟨_, found, -⟩ := serialize_some made
  rw [← table] at cmp
  obtain ⟨e, _, found', represents⟩ := translated_of_fits consistent cmp.typed found
    fun k reach => constantFits_of_narrow cmp reach
  rw [found] at found'
  cases found'
  rw [means.value, represents.value inp env agrees, table]

/-- A word added to itself, compared with the word: the second node of the word has its
label only. -/
def doubled : Nat → LabelInfo := (TableGrowth.tableOf [⟨0, 0, 0, 0, .input, 8, 0⟩,
  ⟨0, 0, 1, 0, .input, 8, 0⟩, ⟨1, 2, 0, 0, .load, 16, 0⟩, ⟨3, 3, 0, 0, .add, 16, 0⟩,
  ⟨4, 3, 0, 0, .icmp .bvult, 16, 0⟩] 1000).info

/-- The first bytes of two inputs, compared. -/
def twoInputs : Nat → LabelInfo := (TableGrowth.tableOf [⟨0, 0, 0, 0, .input, 8, 0⟩,
  ⟨0, 0, 0, 1, .input, 8, 0⟩, ⟨1, 2, 0, 0, .icmp .bveq, 8, 0⟩] 1000).info

def environment (inp : Input) : Z3Parser.Name → Nat
  | .input id offset => (inp.byte id offset).toNat
  | _ => 0

theorem backends_agree_doubled : let p : Z3Parser.Parser := ⟨doubled, 1000, .keep⟩
    ∃ c e1 cache e2 deps caches,
      parseConstraint (plainContext doubled [4, 4]) [0, 1, 1, 1, 3, 7] 6 5 = some c ∧
      serializeRel c.ast.kind c.ast c.args.inputArgs (fun _ => none) = some (e1, cache) ∧
      Z3Parser.serialize p .restart 5 ∅ = (some (e2, deps), caches) ∧
      ∀ inp, e1.value (buffer 0 inp) = 1 ↔ e2.value (environment inp) = 1 := by
  intro p
  have cmp : Compares doubled .bvult 5 := compares_of_range (by decide) (by decide) rfl
  have reads : ∀ k, k < 6 → (doubled k).op = .input ∨ (doubled k).op = .load →
      (readOf doubled k).1 = 0 ∧ (readOf doubled k).2.1 + (readOf doubled k).2.2 ≤ 2 ^ 30 := by
    decide
  have one : OneBuffer doubled (fun _ => 0) 0 5 :=
    ⟨fun _ _ => rfl, fun k reach => reads k (Nat.lt_succ_of_le (cmp.typed.le reach))⟩
  have run : ((parseConstraint (plainContext doubled [4, 4]) [0, 1, 1, 1, 3, 7] 6 5).bind fun c =>
      serializeRel c.ast.kind c.ast c.args.inputArgs (fun _ => none)).isSome = true := by
    decide +kernel
  obtain ⟨⟨e1, cache⟩, run⟩ := Option.isSome_iff_exists.mp run
  obtain ⟨c, parsed, drawn⟩ := bind_eq_some_iff.mp run
  have success : (Z3Parser.serialize p .restart 5 ∅).1.isSome = true := by decide +kernel
  obtain ⟨⟨e2, deps⟩, some⟩ := Option.isSome_iff_exists.mp success
  have made : Z3Parser.serialize p .restart 5 ∅ =
      (Option.some (e2, deps), (Z3Parser.serialize p .restart 5 ∅).2) := by
    rw [← some]
  refine ⟨c, e1, cache, e2, deps, _, parsed, drawn, made, fun inp => ?_⟩
  exact backends_agree (plainContext doubled [4, 4]) p rfl _ 6 5 0 .bvult cmp one (by decide) c
    parsed e1 cache drawn .restart _ ∅ deps e2 .restart made inp (environment inp)
    fun id offset => rfl

/-- The AST names a byte by its offset only: the first bytes of two inputs become one
constant, and the comparison of the two always holds. -/
theorem backends_disagree_on_two_inputs : let p : Z3Parser.Parser := ⟨twoInputs, 1000, .keep⟩
    let inp : Input := ⟨fun id _ => BitVec.ofNat 8 id, fun _ => 0⟩
    Compares twoInputs .bveq 3 ∧ (∀ id, id < 2 →
      ((parseConstraint (plainContext twoInputs [4, 4]) [0, 1, 1, 3] 4 3).bind fun c =>
      serializeRel c.ast.kind c.ast c.args.inputArgs (fun _ => none)).map
        (fun r => r.1.value (buffer id inp)) = some 1) ∧
      (Z3Parser.serialize p .restart 3 ∅).1.map (fun r => r.1.value (environment inp)) =
        some 0 := by
  refine ⟨compares_of_range (by decide) (by decide) rfl, ?_, ?_⟩
  · decide +kernel
  · decide +kernel

end BackendsAgree
