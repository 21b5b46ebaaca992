import SymSan.TaskLayout
import SymSan.TypedLabels
import SymSan.UtaRel

/-!
# What `do_uta_rel` draws

The tree of a label as a relation between the label, the node and the labels that
have a node before and after it, over the arguments of the finished constraint. The
relation forgets how the arguments were numbered and what fits into the arena; it is
what the two back ends that read the tree rely on.
-/

namespace DrawnTrees

open LabelTable TypedLabels RgdAst FindRoots JigsawTask OrderedMaps UtaRel TaskLayout
open Option (bind_eq_some_iff ite_none_left_eq_some map_eq_some_iff)

/-! ## Arguments only grow -/

structure Extends (a a' : ArgMap) : Prop where
  localMap : ∀ x i, a.localMap.find x = some i → a'.localMap.find x = some i
  inputArgs : ∀ (j : Nat) v, a.inputArgs[j]? = some v → a'.inputArgs[j]? = some v

variable (a : ArgMap)

lemma Extends.refl : Extends a a := ⟨fun _ _ h => h, fun _ _ h => h⟩

lemma Extends.trans {a b c : ArgMap} (first : Extends a b) (second : Extends b c) : Extends a c :=
  ⟨fun x i h => second.localMap x i (first.localMap x i h),
    fun j v h => second.inputArgs j v (first.inputArgs j v h)⟩

lemma getElem?_append_of_some {α : Type} {l l' : List α} {j : Nat} {v : α}
    (h : l[j]? = some v) : (l ++ l')[j]? = some v := by
  obtain ⟨lt, -⟩ := List.getElem?_eq_some_iff.mp h
  rw [List.getElem?_append_left lt]
  exact h

lemma addInput_extends (x v : Nat) :
    Extends a (a.addInput x v) ∧ ∃ i, (a.addInput x v).localMap.find x = some i := by
  simp only [ArgMap.addInput]
  split
  next i known =>
    exact ⟨.refl a, i, known⟩
  rename_i new
  refine ⟨⟨fun y i found => ?_, fun j w found => getElem?_append_of_some found⟩,
    a.inputArgs.length, if_pos rfl⟩
  have other : y ≠ x := by
    rintro rfl
    rw [new] at found
    cases found
  rw [OrderedMap.find_insert, if_neg other]
  exact found

variable (buf : Nat → BitVec 8) (offset length : Nat)

lemma mapUpTo_extends (a : ArgMap) (j : Nat) :
    Extends a (mapUpTo buf offset length a j) ∧
      ∀ k < j, ∃ i, (mapUpTo buf offset length a j).localMap.find (offset + k) = some i := by
  induction j with
  | zero => exact ⟨.refl a, fun k lt => absurd lt (Nat.not_lt_zero k)⟩
  | succ j ih =>
    obtain ⟨before, mapped⟩ := ih
    obtain ⟨step, here⟩ := addInput_extends (mapUpTo buf offset length a j) (offset + j)
      (buf (offset + j)).toNat
    rw [mapUpTo_succ]
    refine ⟨before.trans ⟨step.localMap, step.inputArgs⟩, fun k lt => ?_⟩
    by_cases last : k = j
    · rw [last]
      exact here
    · obtain ⟨i, found⟩ := mapped k (by omega)
      exact ⟨i, step.localMap _ i found⟩

lemma mapArg_extends (a : ArgMap) :
    Extends a (mapArg buf offset length a) ∧
      ∀ k < length, ∃ i, (mapArg buf offset length a).localMap.find (offset + k) = some i :=
  mapUpTo_extends buf offset length a length

lemma pushConst_extends (value : Nat) :
    Extends a (a.pushConst value) ∧
      (a.pushConst value).inputArgs[a.inputArgs.length]? = some (false, value) :=
  ⟨⟨fun _ _ h => h, fun _ _ h => getElem?_append_of_some h⟩, List.getElem?_concat_length⟩

/-! ## Trees -/

/-- An operand: a label, or a constant with its width. -/
inductive Operand where
  | label (l : Nat)
  | constant (value bits : Nat)

/-- The label of an operand counts as drawn afterwards. -/
def Operand.after (o : Operand) (visited : List Nat) : List Nat :=
  match o with
  | .label l => l :: visited
  | .constant _ _ => visited

variable (info : Nat → LabelInfo)

/-- Input, offset and length of the bytes that a raw label or a Load stands for. -/
def readOf (l : Nat) : Nat × Nat × Nat :=
  if (info l).op = .load then
    ((info (info l).l1).op2 % 2 ^ 32, (info (info l).l1).op1 % 2 ^ 32, (info l).l2)
  else ((info l).op2 % 2 ^ 32, (info l).op1 % 2 ^ 32, 1)

def constantBits (r : LabelInfo) (other : Nat) : Nat :=
  if r.op = .concat then (r.size + 2 ^ 32 - (info other).size) % 2 ^ 32 else r.size

def operandOf (r : LabelInfo) (mark side label const other : Nat) : Operand :=
  if mark ≠ side ∧ label ≠ 0 then .label label
  else .constant const (constantBits info r other)

def first (mark : Nat → Nat) (l : Nat) : Operand :=
  operandOf info (info l) (mark l) 1 (info l).l1 (info l).op1 (info l).l2

def second (mark : Nat → Nat) (l : Nat) : Operand :=
  operandOf info (info l) (mark l) 2 (info l).l2 (info l).op2 (info l).l1

/-- A node of an operation has the kind, the size and the label. -/
structure Stamped (l : Nat) (d : NodeData) : Prop where
  kind : opMap (info l).op = some d.kind
  bits : d.bits = (info l).size % 2 ^ 16
  label : d.label = l

inductive Drawn (info : Nat → LabelInfo) (mark : Nat → Nat) (a : ArgMap) :
    List Nat → Operand → AstNode → List Nat → Prop where
  | constant {v : List Nat} {value bits : Nat} {d : NodeData} (kind : d.kind = .constant)
      (width : d.bits = bits % 2 ^ 16) (label : d.label = 0)
      (arg : ∃ j, d.index = j % 2 ^ 30 ∧ a.inputArgs[j]? = some (false, value)) :
      Drawn info mark a v (.constant value bits) (.leaf d) v
  | again {v : List Nat} {l : Nat} (seen : l ∈ v) :
      Drawn info mark a v (.label l) (visitedNode l (info l).size) v
  | read {v : List Nat} {l : Nat} {d : NodeData} (fresh : l ∉ v)
      (op : (info l).op = .input ∨ (info l).op = .load) (kind : d.kind = .read)
      (bits : d.bits = (readOf info l).2.2 * 8 % 2 ^ 16) (label : d.label = l)
      (index : d.index = (readOf info l).2.1 % 2 ^ 30)
      (mapped : ∀ k, k < (readOf info l).2.2 →
        ∃ i, a.localMap.find ((readOf info l).2.1 + k) = some i) :
      Drawn info mark a v (.label l) (.leaf d) v
  | unary {v v' : List Nat} {l : Nat} {d : NodeData} {t : AstNode} (fresh : l ∉ v)
      (op : isUnary (info l).op = true) (stamped : Stamped info l d)
      (index : d.index = (if (info l).op = .extract then (info l).op2 else 0) % 2 ^ 30)
      (arg : Drawn info mark a v (first info mark l) t v') :
      Drawn info mark a v (.label l) (.node1 d t) ((first info mark l).after v')
  | binary {v v1 v2 : List Nat} {l : Nat} {d : NodeData} {t1 t2 : AstNode} (fresh : l ∉ v)
      (op : isUnary (info l).op = false) (stamped : Stamped info l d)
      (left : Drawn info mark a v (first info mark l) t1 v1)
      (right : Drawn info mark a ((first info mark l).after v1) (second info mark l) t2 v2) :
      Drawn info mark a v (.label l) (.node2 d t1 t2) ((second info mark l).after v2)

lemma Drawn.extend {info : Nat → LabelInfo} {mark : Nat → Nat} {a a' : ArgMap}
    {v v' : List Nat} {o : Operand} {t : AstNode} (drawn : Drawn info mark a v o t v')
    (grows : Extends a a') : Drawn info mark a' v o t v' := by
  induction drawn with
  | constant kind width label arg =>
    obtain ⟨j, index, found⟩ := arg
    exact .constant kind width label ⟨j, index, grows.inputArgs j _ found⟩
  | again seen => exact .again seen
  | read fresh op kind bits label index mapped =>
    refine .read fresh op kind bits label index fun k lt => ?_
    obtain ⟨i, found⟩ := mapped k lt
    exact ⟨i, grows.localMap _ i found⟩
  | unary fresh op stamped index _ ih => exact .unary fresh op stamped index ih
  | binary fresh op stamped _ _ left right => exact .binary fresh op stamped left right

lemma drawn_compare {info : Nat → LabelInfo} {mark : Nat → Nat} {a : ArgMap} {l : Nat}
    {q : Predicate} {t : AstNode} {v : List Nat} (drawn : Drawn info mark a [] (.label l) t v)
    (op : (info l).op = .icmp q) :
    ∃ d t1 t2 v1 v2, t = .node2 d t1 t2 ∧ Stamped info l d ∧
      Drawn info mark a [] (first info mark l) t1 v1 ∧
      Drawn info mark a ((first info mark l).after v1) (second info mark l) t2 v2 := by
  cases drawn with
  | again seen => cases seen
  | read fresh isRead =>
    rw [op] at isRead
    rcases isRead with isRead | isRead <;> cases isRead
  | unary fresh cast =>
    rw [op] at cast
    cases cast
  | binary fresh twoOperands stamped left right =>
    exact ⟨_, _, _, _, _, rfl, stamped, left, right⟩

/-! ## Results kept for labels -/

/-- A reader of the tree keeps a result for every drawn label, each of which is right. -/
structure Kept {α : Type} (right : Nat → α → Prop) (v : List Nat) (cache : Nat → Option α) :
    Prop where
  drawn : ∀ l, l ∈ v ↔ ∃ x, cache l = some x
  right : ∀ l x, cache l = some x → right l x

section Kept

variable {α : Type} {right : Nat → α → Prop} {v : List Nat} {cache : Nat → Option α} {l : Nat}

lemma kept_nil : Kept right [] (fun _ => none) :=
  ⟨fun _ => ⟨fun mem => absurd mem List.not_mem_nil, nofun⟩, nofun⟩

variable (kept : Kept right v cache)

include kept

lemma Kept.none_of_fresh (fresh : l ∉ v) : cache l = none := by
  cases found : cache l with
  | none => rfl
  | some x => exact absurd ((kept.drawn l).mpr ⟨x, found⟩) fresh

lemma Kept.again (seen : l ∈ v) : Kept right (l :: v) cache := by
  refine ⟨fun k => ?_, kept.right⟩
  rw [← kept.drawn]
  constructor
  · intro mem
    rcases List.mem_cons.mp mem with rfl | mem
    · exact seen
    · exact mem
  · exact List.mem_cons_of_mem l

lemma Kept.add {x : α} (made : right l x) :
    Kept right (l :: v) (Function.update cache l ((cache l).or (some x))) := by
  constructor
  · intro k
    by_cases same : k = l
    · subst same
      simp only [List.mem_cons_self, Function.update_self, true_iff]
      cases cache k with
      | none => exact ⟨x, rfl⟩
      | some old => exact ⟨old, rfl⟩
    · rw [Function.update_of_ne same, ← kept.drawn, List.mem_cons]
      exact or_iff_right same
  · intro k y found
    by_cases same : k = l
    · subst same
      rw [Function.update_self] at found
      cases known : cache k with
      | none =>
        rw [known] at found
        cases found
        exact made
      | some old =>
        rw [known] at found
        cases found
        exact kept.right k _ known
    · rw [Function.update_of_ne same] at found
      exact kept.right k y found

end Kept

/-! ## Drawing -/

section Draw

variable {ctx : Context} {capacity const fuel l label mark other side : Nat} {t : AstNode}
  {s s' : Draft} {r : LabelInfo} {draw : Nat → Draft → Option (AstNode × Draft)}

lemma constantSize_bits {size : Nat} (h : constantSize ctx r other = some size) :
    size = constantBits ctx.parser.info r other := by
  simp only [constantSize] at h
  simp only [constantBits]
  split at h
  · obtain ⟨-, h⟩ := ite_none_left_eq_some.mp h
    obtain ⟨o, found, rfl⟩ := map_eq_some_iff.mp h
    rw [getLabelInfo_eq found, if_pos ‹_›]
  · rw [if_neg ‹_›]
    exact (Option.some.inj h).symm

lemma operandNode_cases {kind : AstKind}
    (h : operandNode ctx capacity draw r kind mark side label const other s = some (t, s')) :
    s.nodes < capacity ∧
      (((mark ≠ side ∧ label ≠ 0) ∧ ∃ s2, s' = s2.visit label ∧
          draw label { s with nodes := s.nodes + 1 } = some (t, s2)) ∨
        (¬ (mark ≠ side ∧ label ≠ 0) ∧
          s' = { s with nodes := s.nodes + 1, args := s.args.pushConst const } ∧
          t = constantNode (constantBits ctx.parser.info r other)
            (constantBits ctx.parser.info r other) s.args.inputArgs.length)) := by
  obtain ⟨_, added, h⟩ := bind_eq_some_iff.mp h
  obtain ⟨fits, made⟩ := ite_none_left_eq_some.mp added
  cases made
  refine ⟨Nat.lt_of_not_le fits, ?_⟩
  by_cases symbolic : mark ≠ side ∧ label ≠ 0
  · have positive : mark ≠ side ∧ 1 ≤ label := by omega
    rw [if_pos positive] at h
    obtain ⟨⟨_, s2⟩, made, done⟩ := map_eq_some_iff.mp h
    cases done
    exact .inl ⟨symbolic, s2, rfl, made⟩
  · have notPositive : ¬ (mark ≠ side ∧ 1 ≤ label) := by omega
    rw [if_neg notPositive] at h
    obtain ⟨-, h⟩ := ite_none_left_eq_some.mp h
    obtain ⟨_, sized, done⟩ := map_eq_some_iff.mp h
    cases done
    cases constantSize_bits sized
    exact .inr ⟨symbolic, rfl, rfl⟩

/-- What one call gives: the tree over the arguments it leaves. -/
def Draws (ctx : Context) (o : Operand) (s : Draft) (t : AstNode) (s' : Draft) (v : List Nat) :
    Prop :=
  Extends s.args s'.args ∧ Drawn ctx.parser.info ctx.concretize s'.args s.visited o t v

lemma operandNode_draws {kind : AstKind}
    (drawn : label ≠ 0 → ∀ s t s', draw label s = some (t, s') →
      Draws ctx (.label label) s t s' s'.visited)
    (h : operandNode ctx capacity draw r kind mark side label const other s = some (t, s')) :
    ∃ v, Draws ctx (operandOf ctx.parser.info r mark side label const other) s t s' v ∧
      s'.visited = (operandOf ctx.parser.info r mark side label const other).after v := by
  obtain ⟨-, ⟨symbolic, s2, rfl, made⟩ | ⟨constant, rfl, rfl⟩⟩ := operandNode_cases h
  · rw [operandOf, if_pos symbolic]
    obtain ⟨grows, tree⟩ := drawn symbolic.2 _ t s2 made
    exact ⟨s2.visited, ⟨grows, tree⟩, rfl⟩
  · rw [operandOf, if_neg constant]
    obtain ⟨grows, arg⟩ := pushConst_extends s.args const
    refine ⟨s.visited, ⟨grows, ?_⟩, rfl⟩
    exact .constant rfl rfl rfl ⟨s.args.inputArgs.length, rfl, arg⟩

/-- A label is visited again, it reads the input or it is an operator. -/
def Visits (ctx : Context) (capacity fuel l : Nat) (s : Draft) (t : AstNode) (s' : Draft) : Prop :=
  (l ∈ s.visited ∧ t = visitedNode l (ctx.parser.info l).size ∧ s' = s) ∨
    (l ∉ s.visited ∧ ((ctx.parser.info l).op = .input ∨ (ctx.parser.info l).op = .load) ∧
      (t, s') = readNode ctx l (readOf ctx.parser.info l).1 (readOf ctx.parser.info l).2.1
        (readOf ctx.parser.info l).2.2 s) ∨
    (l ∉ s.visited ∧ (ctx.parser.info l).op ≠ .load ∧
      operatorNode ctx capacity (doUtaRel ctx capacity fuel) l (ctx.parser.info l) s = some (t, s'))

lemma doUtaRel_some (h : doUtaRel ctx capacity (fuel + 1) l s = some (t, s')) :
    Visits ctx capacity fuel l s t s' ∨
      ((ctx.parser.info l).op = .fmemcmp ∧
        memcmpNode ctx capacity (doUtaRel ctx capacity fuel) l (ctx.parser.info l) s =
          some (t, s')) ∨
      ((ctx.parser.info l).op = .fatoi ∧ ∃ offset,
        atoiNode l offset (ctx.parser.info l).size (s.visit (ctx.parser.info l).l2) =
          some (t, s')) := by
  obtain ⟨-, h⟩ := ite_none_left_eq_some.mp h
  obtain ⟨r, found, h⟩ := bind_eq_some_iff.mp h
  cases getLabelInfo_eq found
  by_cases seen : l ∈ s.visited
  · rw [if_pos seen] at h
    cases h
    exact .inl (.inl ⟨seen, rfl, rfl⟩)
  rw [if_neg seen] at h
  cases op : (ctx.parser.info l).op with
  | input =>
    simp only [op] at h
    cases h
    refine .inl (.inr (.inl ⟨seen, .inl op, ?_⟩))
    rw [readOf, if_neg (by rw [op]; nofun)]
    rfl
  | load =>
    simp only [op] at h
    obtain ⟨_, found, done⟩ := map_eq_some_iff.mp h
    cases getLabelInfo_eq found
    cases done
    refine .inl (.inr (.inl ⟨seen, .inr op, ?_⟩))
    rw [readOf, if_pos op]
    rfl
  | fmemcmp =>
    simp only [op] at h
    exact .inr (.inl ⟨rfl, h⟩)
  | fatoi =>
    simp only [op] at h
    obtain ⟨-, h⟩ := ite_none_left_eq_some.mp h
    obtain ⟨_, -, h⟩ := bind_eq_some_iff.mp h
    obtain ⟨-, h⟩ := ite_none_left_eq_some.mp h
    obtain ⟨_, -, h⟩ := bind_eq_some_iff.mp h
    exact .inr (.inr ⟨rfl, _, h⟩)
  | fsize =>
    simp only [op] at h
    cases h
  | _ =>
    simp only [op] at h
    exact .inl (.inr (.inr ⟨seen, by rw [op]; nofun, h⟩))

lemma doUtaRel_cases (wt : WellTyped ctx.parser.info l)
    (h : doUtaRel ctx capacity (fuel + 1) l s = some (t, s')) :
    Visits ctx capacity fuel l s t s' := by
  have typed := wt.root.2.2.1
  rcases doUtaRel_some h with visits | ⟨op, -⟩ | ⟨op, -⟩
  · exact visits
  all_goals
    simp only [Typed, op] at typed
    cases typed.1

lemma operatorNode_cases (h : operatorNode ctx capacity draw l r s = some (t, s')) :
    ∃ kind left s1, opMap r.op = some kind ∧
      operandNode ctx capacity draw r kind (ctx.concretize l) 1 r.l1 r.op1 r.l2 s =
        some (left, s1) ∧
      ((isUnary r.op = true ∧ s' = s1 ∧
          t = .node1 (((operatorData l r kind).setHash
            (xxhash (UInt32.ofNat r.size) (kindCode kind) left.data.hash)).setIndex
              (if r.op = .extract then r.op2 else 0)) left) ∨
        (isUnary r.op = false ∧ ∃ right,
          operandNode ctx capacity draw r kind (ctx.concretize l) 2 r.l2 r.op2 r.l1 s1 =
            some (right, s') ∧
          t = .node2 ((operatorData l r kind).setHash
            (operatorHash (operatorData l r kind) left right)) left right)) := by
  obtain ⟨kind, mapped, h⟩ := bind_eq_some_iff.mp h
  obtain ⟨⟨left, s1⟩, made1, h⟩ := bind_eq_some_iff.mp h
  refine ⟨kind, left, s1, mapped, made1, ?_⟩
  cases unary : isUnary r.op with
  | true =>
    simp only [unary] at h
    cases h
    exact .inl ⟨rfl, rfl, rfl⟩
  | false =>
    simp only [unary] at h
    obtain ⟨⟨right, _⟩, made2, done⟩ := map_eq_some_iff.mp h
    cases done
    exact .inr ⟨rfl, right, made2, rfl⟩

/-- A call on a well-typed label draws its tree; the visited labels do not include it
yet. -/
lemma doUtaRel_draws (wt : WellTyped ctx.parser.info l)
    (h : doUtaRel ctx capacity fuel l s = some (t, s')) :
    Draws ctx (.label l) s t s' s'.visited := by
  induction fuel generalizing l s s' t with
  | zero => cases h
  | succ fuel ih =>
    rcases doUtaRel_cases wt h with ⟨seen, rfl, rfl⟩ | ⟨fresh, op, made⟩ | ⟨fresh, notLoad, made⟩
    · exact ⟨.refl _, .again seen⟩
    · cases made
      obtain ⟨grows, mapped⟩ := mapArg_extends (ctx.bytes (readOf ctx.parser.info l).1)
        (readOf ctx.parser.info l).2.1 (readOf ctx.parser.info l).2.2 s.args
      exact ⟨grows, .read fresh op rfl rfl rfl rfl mapped⟩
    obtain ⟨_, _, _, mapped, made1, both⟩ := operatorNode_cases made
    obtain ⟨_, ⟨grows1, tree1⟩, visited1⟩ := operandNode_draws
      (fun ne s t s' => ih (wt.first ne)) made1
    rcases both with ⟨unary, rfl, rfl⟩ | ⟨binary, t2, made2, rfl⟩
    · rw [visited1]
      exact ⟨grows1, .unary fresh unary ⟨mapped, rfl, rfl⟩ rfl tree1⟩
    obtain ⟨_, ⟨grows2, tree2⟩, visited2⟩ := operandNode_draws
      (fun ne s t s' => ih (wt.second ne notLoad)) made2
    rw [visited1] at tree2
    rw [visited2]
    exact ⟨grows1.trans grows2,
      .binary fresh binary ⟨mapped, rfl, rfl⟩ (tree1.extend grows2) tree2⟩

end Draw

/-! ## The number of arguments -/

section Bound

variable {ctx : Context} {capacity l fuel : Nat} {s s' : Draft} {astSize : List Nat}
  {c : Constraint}

lemma mapUpTo_length (buf : Nat → BitVec 8) (offset length : Nat) (a : ArgMap) (j : Nat) :
    (mapUpTo buf offset length a j).inputArgs.length ≤ a.inputArgs.length + j := by
  induction j with
  | zero => exact Nat.le_refl _
  | succ j ih =>
    rw [mapUpTo_succ]
    simp only [mapByte, ArgMap.setShape, ArgMap.addInput]
    split
    · omega
    · simp only [List.length_append, List.length_singleton]
      omega

/-- Every node has at most 8 arguments of its own, and the nodes fit into the arena. -/
def Bounded (capacity own : Nat) (s s' : Draft) : Prop :=
  s'.args.inputArgs.length + 8 * s.nodes ≤ s.args.inputArgs.length + 8 * s'.nodes + 8 * own ∧
    (s.nodes ≤ capacity → s'.nodes ≤ capacity)

lemma operandNode_bounded {draw : Nat → Draft → Option (AstNode × Draft)} {r : LabelInfo}
    {kind : AstKind} {mark side label const other : Nat} {t : AstNode}
    (drawn : label ≠ 0 → ∀ s t s', draw label s = some (t, s') → Bounded capacity 1 s s')
    (h : operandNode ctx capacity draw r kind mark side label const other s = some (t, s')) :
    Bounded capacity 0 s s' := by
  obtain ⟨_, ⟨symbolic, _, rfl, made⟩ | ⟨-, rfl, -⟩⟩ := operandNode_cases h
  · obtain ⟨count, inside⟩ := drawn symbolic.2 _ _ _ made
    simp only at count inside
    exact ⟨by simp only [Draft.visit]; omega, fun _ => inside (by omega)⟩
  · refine ⟨?_, fun _ => by simp only; omega⟩
    simp only [ArgMap.pushConst, List.length_append, List.length_singleton]
    omega

lemma readOf_length (wt : WellTyped ctx.parser.info l) (narrow : (ctx.parser.info l).size ≤ 64) :
    (readOf ctx.parser.info l).2.2 ≤ 8 := by
  have typed := wt.root.2.2.1
  simp only [readOf]
  split
  next load =>
    simp only [Typed, load] at typed
    simp only
    omega
  · exact Nat.one_le_iff_ne_zero.mpr (by decide)

/-- A comparison has no arguments besides those of the nodes below it. -/
lemma Bounded.atMostOne {c : Prop} [Decidable c] (h : Bounded capacity (if c then 0 else 1) s s') :
    Bounded capacity 1 s s' := by
  obtain ⟨count, inside⟩ := h
  exact ⟨by split at count <;> omega, inside⟩

lemma doUtaRel_bounded {t : AstNode} (wt : WellTyped ctx.parser.info l)
    (narrow : ∀ k, InDag ctx.parser.info l k → (ctx.parser.info k).size ≤ 64)
    (h : doUtaRel ctx capacity fuel l s = some (t, s')) :
    Bounded capacity (if isIcmp (ctx.parser.info l).op then 0 else 1) s s' := by
  induction fuel generalizing l s s' t with
  | zero => cases h
  | succ fuel ih =>
    obtain ⟨root, narrow1, narrow2⟩ := forall_inDag.mp narrow
    rcases doUtaRel_cases wt h with ⟨-, -, rfl⟩ | ⟨-, op, made⟩ | ⟨-, notLoad, made⟩
    · exact ⟨by omega, fun inside => inside⟩
    · cases made
      have length := readOf_length wt root
      have count := mapUpTo_length (ctx.bytes (readOf ctx.parser.info l).1)
        (readOf ctx.parser.info l).2.1 (readOf ctx.parser.info l).2.2 s.args
        (readOf ctx.parser.info l).2.2
      have notIcmp : isIcmp (ctx.parser.info l).op = false := by
        rcases op with op | op <;> rw [op] <;> rfl
      rw [notIcmp]
      refine ⟨?_, fun inside => inside⟩
      change (mapUpTo _ _ _ _ _).inputArgs.length + _ ≤ _ + _ + 8 * 1
      simp only
      omega
    · obtain ⟨_, _, _, -, made1, both⟩ := operatorNode_cases made
      obtain ⟨_, inside1⟩ := operandNode_bounded
        (fun ne s t s' made => (ih (wt.first ne) (narrow1 ne) made).atMostOne) made1
      rcases both with ⟨-, rfl, -⟩ | ⟨-, t2, made2, -⟩
      · exact ⟨by omega, inside1⟩
      · obtain ⟨_, inside2⟩ := operandNode_bounded
          (fun ne s t s' made => (ih (wt.second ne notLoad) (narrow2 ne notLoad) made).atMostOne)
          made2
        exact ⟨by omega, fun inside => inside2 (inside1 inside)⟩

lemma parseConstraint_some (h : parseConstraint ctx astSize fuel l = some c) :
    FindRoots.isCmp (ctx.parser.info l).op = true ∧ ∃ size s, astSize[l]? = some size ∧
      doUtaRel ctx (size + 1) fuel l ⟨.empty, [], 1⟩ = some (c.ast, s) ∧ s.args = c.args := by
  obtain ⟨r, found, h⟩ := bind_eq_some_iff.mp h
  cases getLabelInfo_eq found
  obtain ⟨cmp, h⟩ := ite_none_left_eq_some.mp h
  refine ⟨Bool.eq_true_of_not_eq_false cmp, ?_⟩
  cases sized : astSize[l]? with
  | none =>
    simp only [sized] at h
    cases h
  | some size =>
    simp only [sized] at h
    obtain ⟨-, h⟩ := ite_none_left_eq_some.mp h
    obtain ⟨⟨t, s⟩, made, ⟨⟩⟩ := map_eq_some_iff.mp h
    exact ⟨size, s, rfl, made, rfl⟩

lemma parseConstraint_draws (wt : WellTyped ctx.parser.info l)
    (narrow : ∀ k, InDag ctx.parser.info l k → (ctx.parser.info k).size ≤ 64)
    (h : parseConstraint ctx astSize fuel l = some c) :
    ∃ v size, Drawn ctx.parser.info ctx.concretize c.args [] (.label l) c.ast v ∧
      astSize[l]? = some size ∧ c.args.inputArgs.length ≤ 8 * size := by
  obtain ⟨cmp, size, s, sized, made, args⟩ := parseConstraint_some h
  have icmp : isIcmp (ctx.parser.info l).op = true := by
    have typed := wt.root.2.2.1
    cases op : (ctx.parser.info l).op with
    | icmp q => rfl
    | fmemcmp =>
      simp only [Typed, op] at typed
      cases typed.1
    | _ =>
      rw [op] at cmp
      cases cmp
  obtain ⟨count, inside⟩ := doUtaRel_bounded wt narrow made
  have nodes := inside (by simp only; omega)
  simp only [icmp, if_true, ArgMap.empty, List.length_nil, args] at count
  have tree := (doUtaRel_draws wt made).2
  rw [args] at tree
  exact ⟨_, size, tree, sized, by omega⟩

end Bound

end DrawnTrees
