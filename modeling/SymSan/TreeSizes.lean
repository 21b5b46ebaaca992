import SymSan.DrawnTrees
import SymSan.RootMeaning

/-!
# AST sizes

The size that `scan_labels` records for a label counts a shared sub-DAG once for every
path to it, in 32 bits. A comparison whose operands are within the limit of the parser
keeps that size and is never marked for concretization, whatever happens to other
labels, and its AST fits into an arena of that size.
-/

namespace TreeSizes

open LabelTable Denotation TypedLabels RgdAst FindRoots RootWalk RootMeaning UtaRel
  DrawnTrees
open Option (bind_eq_some_iff bind_some isSome_of_eq_some map_eq_some_iff)

/-! ## Sizes of unshared trees -/

variable (info : Nat → LabelInfo)

def treeStep (l : Nat) (earlier : Nat → Nat) : Nat :=
  if l = 0 ∨ (info l).op = .input ∨ (info l).op = .load then 1
  else (if (info l).l1 = 0 then 1 else earlier (info l).l1) +
    (if (info l).l2 = 0 then 1 else earlier (info l).l2) + 1

/-- Nodes of the tree of a label without sharing. -/
def treeSize : Nat → Nat := ScanTables.value (treeStep info) 0

lemma treeSize_zero : treeSize info 0 = 1 := by
  rw [treeSize, ScanTables.value_eq, treeStep]
  exact if_pos (.inl rfl)

lemma treeSize_operation {info : Nat → LabelInfo} {l : Nat} (ne : l ≠ 0)
    (ordered : Ordered info l) (notInput : (info l).op ≠ .input) (notLoad : (info l).op ≠ .load) :
    treeSize info l = treeSize info (info l).l1 + treeSize info (info l).l2 + 1 := by
  have lt1 := ordered.1
  have lt2 := ordered.2 notLoad
  have zero := treeSize_zero info
  have other : ¬(l = 0 ∨ (info l).op = .input ∨ (info l).op = .load) := by
    rintro (h | h | h)
    · exact ne h
    · exact notInput h
    · exact notLoad h
  rw [treeSize, ScanTables.value_eq, treeStep, if_neg other]
  rw [← treeSize]
  split
  next zero1 =>
    split
    next zero2 =>
      rw [zero1, zero2, zero]
    · rw [zero1, zero]
  · split
    next zero2 =>
      rw [zero2, zero]
    · rfl

lemma treeSize_pos (l : Nat) : 1 ≤ treeSize info l := by
  rw [treeSize, ScanTables.value_eq, treeStep]
  split
  · exact Nat.le_refl 1
  · omega

/-! ## What the caches know of small labels -/

/-- The size of no label of the DAG wraps around, and no comparison has an operand that
is over the limit. -/
def Small (p : Parser) (l : Nat) : Prop :=
  ∀ k, InDag p.info l k → k ≠ 0 ∧ Ordered p.info k ∧ treeSize p.info k < 2 ^ 32 ∧
    (isIcmp (p.info k).op = true → treeSize p.info (p.info k).l1 ≤ p.maxAstSize ∧
      treeSize p.info (p.info k).l2 ≤ p.maxAstSize)

structure Sized (p : Parser) (c : Caches) : Prop where
  size : ∀ k, k < c.astSize.length → k = 0 ∨ Small p k → c.astSize[k]? = some (treeSize p.info k)
  unmarked : ∀ k, k = 0 ∨ Small p k → c.concretize k = 0

section Sized

variable {p : Parser} {c c' : Caches} {l mark : Nat}

lemma Small.first (small : Small p l) : (p.info l).l1 = 0 ∨ Small p (p.info l).l1 := by
  by_cases zero : (p.info l).l1 = 0
  · exact .inl zero
  · exact .inr fun k reach => small k (.first zero reach)

lemma Small.second (small : Small p l) (notLoad : (p.info l).op ≠ .load) :
    (p.info l).l2 = 0 ∨ Small p (p.info l).l2 := by
  by_cases zero : (p.info l).l2 = 0
  · exact .inl zero
  · exact .inr fun k reach => small k (.second zero notLoad reach)

lemma noCaches_sized (p : Parser) : Sized p noCaches :=
  ⟨fun k lt => absurd lt (Nat.not_lt_zero k), fun _ _ => rfl⟩

lemma push_sized (sized : Sized p c) {size nested : Nat}
    (here : c.astSize.length = 0 ∨ Small p c.astSize.length →
      size = treeSize p.info c.astSize.length) : Sized p (c.push size nested) := by
  constructor
  · intro k lt small
    simp only [Caches.push, List.length_append, List.length_singleton] at lt ⊢
    by_cases old : k < c.astSize.length
    · rw [List.getElem?_append_left old]
      exact sized.size k old small
    · have new : k = c.astSize.length := by omega
      subst new
      rw [List.getElem?_concat_length, here small]
  · exact sized.unmarked

lemma scanLabel_sized (sized : Sized p c) (h : scanLabel p c = (true, c')) : Sized p c' := by
  cases scanLabel_pushes h
  refine push_sized sized fun small => ?_
  split
  next read =>
    exact (if_pos read).symm
  rename_i other
  simp only [not_or] at other
  obtain ⟨ne, notInput, notLoad⟩ := other
  have small := small.resolve_left ne
  obtain ⟨-, ordered, bound, -⟩ := small _ .self
  have total := treeSize_operation ne ordered notInput notLoad
  have side : ∀ x < c.astSize.length, x = 0 ∨ Small p x →
      (if x = 0 then 1 else c.astSize.getD x 0) = treeSize p.info x := by
    intro x lt small
    split
    next zero =>
      rw [zero, treeSize_zero]
    · rw [List.getD_eq_getElem?_getD, sized.size x lt small, Option.getD_some]
  rw [side _ ordered.1 small.first, side _ (ordered.2 notLoad) (small.second notLoad), ← total]
  exact Nat.mod_eq_of_lt bound

lemma concretizeLeaf_small (sized : Sized p c) (small : Small p l)
    (cmp : isIcmp (p.info l).op = true) (h : concretizeLeaf p c (p.info l) l = some (mark, c')) :
    mark = 0 ∧ c'.astSize = c.astSize ∧ c'.concretize = c.concretize := by
  obtain ⟨-, -, -, limit⟩ := small l .self
  obtain ⟨limit1, limit2⟩ := limit cmp
  have unmarked := sized.unmarked l (.inr small)
  have notLoad : (p.info l).op ≠ .load := by
    intro load
    rw [load] at cmp
    cases cmp
  have within : ∀ x size, x = 0 ∨ Small p x → treeSize p.info x ≤ p.maxAstSize →
      c.astSize[x]? = some size → ¬p.maxAstSize < size := by
    intro x size small limit known
    have inside := (List.getElem?_eq_some_iff.mp known).1
    rw [sized.size x inside small] at known
    cases known
    omega
  obtain ⟨_, known, h⟩ := bind_eq_some_iff.mp h
  split at h
  · obtain ⟨size1, known1, h⟩ := bind_eq_some_iff.mp h
    obtain ⟨size2, known2, h⟩ := bind_eq_some_iff.mp h
    have within1 := within _ size1 small.first limit1 known1
    have within2 := within _ size2 (small.second notLoad) limit2 known2
    simp only [if_neg within1, if_neg within2] at h
    obtain ⟨rfl, rfl⟩ := h
    refine ⟨unmarked, ?_, ?_⟩
    · obtain ⟨inside, value⟩ := List.getElem?_eq_some_iff.mp known
      rw [← value]
      exact List.set_getElem_self inside
    funext k
    dsimp only
    split
    next same =>
      rw [same]
    · rfl
  · cases h
    exact ⟨unmarked, rfl, rfl⟩

lemma concretizeLeaf_lengths {r : LabelInfo} (h : concretizeLeaf p c r l = some (mark, c')) :
    c'.astSize.length = c.astSize.length ∧ c'.nestedCmp = c.nestedCmp := by
  obtain ⟨_, -, h⟩ := bind_eq_some_iff.mp h
  split at h
  · obtain ⟨_, -, h⟩ := bind_eq_some_iff.mp h
    obtain ⟨_, -, h⟩ := bind_eq_some_iff.mp h
    cases h
    exact ⟨List.length_set, rfl⟩
  · cases h
    exact ⟨rfl, rfl⟩

lemma concretizeLeaf_sized (sized : Sized p c) (zero : (p.info 0).op = .input)
    (cmp : isIcmp (p.info l).op = true) (h : concretizeLeaf p c (p.info l) l = some (mark, c')) :
    Sized p c' := by
  by_cases small : Small p l
  · obtain ⟨-, sizes, marks⟩ := concretizeLeaf_small sized small cmp h
    constructor
    · rw [sizes]
      exact sized.size
    · rw [marks]
      exact sized.unmarked
  · have other : ∀ k, k = 0 ∨ Small p k → k ∉ [l] := by
      intro k known inside
      cases List.mem_singleton.mp inside
      rcases known with rfl | isSmall
      · rw [zero] at cmp
        cases cmp
      · exact small isSmall
    have lengths := (concretizeLeaf_lengths h).1
    have keeps := concretizeLeaf_keeps h
    constructor
    · intro k lt known
      rw [(keeps.entry k (other k known)).1]
      exact sized.size k (by omega) known
    · intro k known
      rw [(keeps.entry k (other k known)).2]
      exact sized.unmarked k known

end Sized

/-! ## The traversal -/

structure Belongs (p : Parser) (c : Caches) : Prop where
  inStep : InStep p c
  sized : Sized p c

section Traversal

variable {p : Parser} {c c' : Caches} {l : Nat} {t node : AstNode}

/-- Processing a node only changes the caches by concretizing the operands of a
comparison. -/
lemma processNode_caches {r : LabelInfo} (h : processNode p c r l node = some (t, c')) :
    c' = c ∨ (isIcmp r.op = true ∧ ∃ mark, concretizeLeaf p c r l = some (mark, c')) := by
  simp only [processNode] at h
  split at h
  case h_5 q op =>
    simp only [processIcmp, processLeaf] at h
    split at h
    · obtain ⟨⟨mark, _⟩, leaf, h⟩ := bind_eq_some_iff.mp h
      refine .inr ⟨by rw [op]; rfl, mark, ?_⟩
      split at h
      · cases h
        exact leaf
      · obtain ⟨_, -, ⟨⟩⟩ := map_eq_some_iff.mp h
        exact leaf
    · refine .inl ?_
      repeat' split at h
      all_goals first
        | (cases h; rfl)
        | (obtain ⟨_, -, ⟨⟩⟩ := map_eq_some_iff.mp h; rfl)
        | cases h
  case h_7 => cases h
  all_goals
    obtain ⟨_, -, ⟨⟩⟩ := map_eq_some_iff.mp h
    exact .inl rfl

/-- A property of caches that survives the concretization of operands. -/
def Survives (p : Parser) (I : Caches → Prop) : Prop :=
  ∀ c c' l mark, I c → isIcmp (p.info l).op = true →
    concretizeLeaf p c (p.info l) l = some (mark, c') → I c'

/-- The caches that a step leaves have the property, if it leaves any. -/
def Outcome.Leaves (I : Caches → Prop) : Outcome → Prop
  | .running w => I w.caches
  | .finished _ c => I c
  | .invalid => True

variable {I : Caches → Prop} {w : Walk}

lemma goDown_leaves (before : I w.caches) (f : Frame) (rest : List Frame) (root : Nat) :
    Outcome.Leaves I (goDown p w f rest root) := by
  simp only [goDown]
  repeat' split
  exacts [trivial, trivial, before]

lemma step_survives (survives : Survives p I) (before : I w.caches) :
    Outcome.Leaves I (step p w) := by
  simp only [step]
  split
  · simp only [stepDown]
    repeat' split
    exacts [before, trivial, before, trivial, before, goDown_leaves before _ _ _]
  split
  · trivial
  rename_i f rest frames
  simp only [stepUp]
  split
  · trivial
  rename_i r known
  cases getLabelInfo_eq known
  repeat' split
  · trivial
  · exact goDown_leaves before _ _ _
  · trivial
  rename_i t c made
  have after : I c := by
    rcases processNode_caches made with rfl | ⟨cmp, mark, leaf⟩
    · exact before
    · exact survives _ _ _ _ before cmp leaf
  simp only [popFrame]
  split <;> exact after

lemma walk_survives (survives : Survives p I) {fuel : Nat} (before : I w.caches)
    (h : walk p fuel w = some (t, c')) : I c' :=
  walk_rule (K := Outcome.Leaves I) (fun _ => step_survives survives) before h

lemma belongs_survives (zero : (p.info 0).op = .input) (n : Nat) :
    Survives p fun c => Belongs p c ∧ c.astSize.length = n := by
  rintro c c' l mark ⟨⟨inStep, sized⟩, long⟩ cmp h
  obtain ⟨lengths, nested⟩ := concretizeLeaf_lengths h
  refine ⟨⟨⟨?_, ?_⟩, concretizeLeaf_sized sized zero cmp h⟩, lengths.trans long⟩
  · intro k lt
    rw [nested] at lt
    rw [Caches.nested, nested]
    exact inStep.scanned k lt
  · rw [nested, lengths, inStep.aligned]

end Traversal

/-! ## Drawing -/

/-- Integer code that `do_uta_rel` knows, with nothing to be concretized. -/
structure Supported (ctx : Context) (l : Nat) : Prop where
  typed : WellTyped ctx.parser.info l
  known : ∀ k, InDag ctx.parser.info l k → (ctx.parser.info k).op = .input ∨
    (ctx.parser.info k).op = .load ∨ (opMap (ctx.parser.info k).op).isSome = true
  valid : l < ctx.parser.size ∧ l < kInitializingLabel
  unmarked : ∀ k, InDag ctx.parser.info l k → ctx.concretize k = 0

section Drawing

variable {ctx : Context} {capacity l fuel other x : Nat}
  {draw : Nat → Draft → Option (AstNode × Draft)}

lemma Supported.below (supported : Supported ctx l) {k : Nat}
    (reach : InDag ctx.parser.info l k) : Supported ctx k := by
  have le := supported.typed.le reach
  obtain ⟨_, _⟩ := supported.valid
  exact ⟨fun j rest => supported.typed j (inDag_trans reach rest),
    fun j rest => supported.known j (inDag_trans reach rest), ⟨by omega, by omega⟩,
    fun j rest => supported.unmarked j (inDag_trans reach rest)⟩

lemma Supported.getLabelInfo (supported : Supported ctx l) :
    ctx.parser.getLabelInfo l = some (ctx.parser.info l) :=
  if_neg (Nat.not_le.mpr supported.valid.1)

/-! ## Arenas -/

/-- The same is drawn into both arenas, and there are at most `most` nodes then. -/
def Alike (most : Nat) (made' made : Option (AstNode × Draft)) : Prop :=
  made' = made ∧ ∀ t s, made = some (t, s) → s.nodes ≤ most

section Alike

variable {most most' : Nat} {made made' : Option (AstNode × Draft)}

lemma Alike.none : Alike most .none .none := ⟨rfl, by rintro _ _ ⟨⟩⟩

lemma Alike.bind {f f' : AstNode × Draft → Option (AstNode × Draft)}
    (alike : Alike most made' made)
    (next : ∀ t s, s.nodes ≤ most → Alike most' (f' (t, s)) (f (t, s))) :
    Alike most' (made'.bind f') (made.bind f) := by
  obtain ⟨rfl, bound⟩ := alike
  cases made' with
  | none => exact .none
  | some first => exact next first.1 first.2 (bound _ _ rfl)

lemma Alike.map {f : AstNode × Draft → AstNode × Draft} (alike : Alike most made' made)
    (next : ∀ t s, s.nodes ≤ most → (f (t, s)).2.nodes ≤ most') :
    Alike most' (made'.map f) (made.map f) := by
  rw [Option.map_eq_bind, Option.map_eq_bind]
  refine alike.bind fun t s le => ⟨rfl, fun t' s' made => ?_⟩
  have small := next t s le
  rw [Option.some.inj made] at small
  exact small

end Alike

/-- A label is drawn alike into two arenas, the smaller of which has room for its tree, and into as
many nodes at most. -/
def DrawsAlike (info : Nat → LabelInfo) (capacity : Nat)
    (draw draw' : Nat → Draft → Option (AstNode × Draft)) (x : Nat) : Prop :=
  ∀ s : Draft, s.nodes + treeSize info x ≤ capacity + 1 →
    Alike (s.nodes + treeSize info x - 1) (draw' x s) (draw x s)

section Larger

variable {capacity' : Nat} {draw' : Nat → Draft → Option (AstNode × Draft)}
  (larger : capacity ≤ capacity')

include larger

lemma operandNode_alike {r : LabelInfo} (kind : AstKind) (mark side const : Nat) (s : Draft)
    (room : s.nodes + treeSize ctx.parser.info x ≤ capacity)
    (drawn : DrawsAlike ctx.parser.info capacity draw draw' x) :
    Alike (s.nodes + treeSize ctx.parser.info x)
      (operandNode ctx capacity' draw' r kind mark side x const other s)
      (operandNode ctx capacity draw r kind mark side x const other s) := by
  have pos := treeSize_pos ctx.parser.info x
  have free : ¬capacity ≤ s.nodes := by omega
  have free' : ¬capacity' ≤ s.nodes := by omega
  simp only [operandNode, Draft.addNode, if_neg free, if_neg free', bind_some]
  split
  · refine (drawn { s with nodes := s.nodes + 1 } (by dsimp only; omega)).map fun t s1 le => ?_
    dsimp only [Draft.visit] at le ⊢
    omega
  split
  · exact .none
  refine ⟨rfl, fun t s' made => ?_⟩
  obtain ⟨_, -, same⟩ := Option.map_eq_some_iff.mp made
  cases same
  dsimp only
  omega

section Kids

variable (drawn1 : DrawsAlike ctx.parser.info capacity draw draw' (ctx.parser.info l).l1)
  (drawn2 : DrawsAlike ctx.parser.info capacity draw draw' (ctx.parser.info l).l2)
  (total : treeSize ctx.parser.info l = treeSize ctx.parser.info (ctx.parser.info l).l1 +
    treeSize ctx.parser.info (ctx.parser.info l).l2 + 1)

include drawn1 drawn2 total

lemma operatorNode_alike : DrawsAlike ctx.parser.info capacity
    (fun l => operatorNode ctx capacity draw l (ctx.parser.info l))
    (fun l => operatorNode ctx capacity' draw' l (ctx.parser.info l)) l := by
  intro s room
  have pos2 := treeSize_pos ctx.parser.info (ctx.parser.info l).l2
  simp only [operatorNode]
  cases opMap (ctx.parser.info l).op with
  | none => exact .none
  | some kind =>
    refine (operandNode_alike larger kind _ 1 _ s (by omega) drawn1).bind fun left s1 first => ?_
    dsimp only
    split
    · refine ⟨rfl, ?_⟩
      rintro _ _ ⟨⟩
      omega
    refine (operandNode_alike larger kind _ 2 _ s1 (by omega) drawn2).map fun right s2 second => ?_
    dsimp only
    omega

lemma memcmpNode_alike : DrawsAlike ctx.parser.info capacity
    (fun l => memcmpNode ctx capacity draw l (ctx.parser.info l))
    (fun l => memcmpNode ctx capacity' draw' l (ctx.parser.info l)) l := by
  intro s room
  have pos1 := treeSize_pos ctx.parser.info (ctx.parser.info l).l1
  have pos2 := treeSize_pos ctx.parser.info (ctx.parser.info l).l2
  have free : ¬capacity ≤ s.nodes := by omega
  have free' : ¬capacity' ≤ s.nodes := by omega
  simp only [memcmpNode, Draft.addNode, if_neg free, if_neg free', bind_some]
  refine @Alike.bind (s.nodes + treeSize ctx.parser.info (ctx.parser.info l).l1) _ _ _ _ _ ?_
    fun left s1 first => ?_
  · split
    · refine (drawn1 { s with nodes := s.nodes + 1 } (by dsimp only; omega)).map fun t s1 le => ?_
      dsimp only [Draft.visit] at le ⊢
      omega
    · refine ⟨rfl, fun t s' made => ?_⟩
      obtain ⟨_, -, same⟩ := Option.map_eq_some_iff.mp made
      cases same
      dsimp only
      omega
  · have free : ¬capacity ≤ s1.nodes := by omega
    have free' : ¬capacity' ≤ s1.nodes := by omega
    simp only [if_neg free, if_neg free', bind_some]
    refine (drawn2 { s1 with nodes := s1.nodes + 1 } (by dsimp only; omega)).map
      fun right s2 second => ?_
    dsimp only [Draft.visit] at second ⊢
    omega

end Kids

/-- An arena of the size of the tree is as good as any larger one, whatever the opcodes are. -/
lemma doUtaRel_alike
    (ordered : l ≠ 0 → ∀ k, InDag ctx.parser.info l k → k ≠ 0 ∧ Ordered ctx.parser.info k) :
    DrawsAlike ctx.parser.info capacity (doUtaRel ctx capacity fuel) (doUtaRel ctx capacity' fuel)
      l := by
  induction fuel generalizing l with
  | zero => exact fun s room => .none
  | succ fuel ih =>
    intro s room
    rw [doUtaRel, doUtaRel]
    split
    · exact .none
    have ordered := ordered (by omega)
    obtain ⟨ne, placed⟩ := ordered l .self
    have pos := treeSize_pos ctx.parser.info l
    -- what takes no node is drawn alike
    have leaf : ∀ made : Option (AstNode × Draft), (∀ t s', made = some (t, s') →
        s'.nodes = s.nodes) → Alike (s.nodes + treeSize ctx.parser.info l - 1) made made := by
      intro made keeps
      refine ⟨rfl, fun t s' is => ?_⟩
      have := keeps t s' is
      omega
    have below : (ctx.parser.info l).op ≠ .input → (ctx.parser.info l).op ≠ .load → _ :=
      fun notInput notLoad => treeSize_operation ne placed notInput notLoad
    have draws : ∀ x, (x ≠ 0 → InDag ctx.parser.info l x) → DrawsAlike ctx.parser.info capacity
        (doUtaRel ctx capacity fuel) (doUtaRel ctx capacity' fuel) x :=
      fun x reach => ih fun zero k inside => ordered k (inDag_trans (reach zero) inside)
    cases known : ctx.parser.getLabelInfo l with
    | none => exact .none
    | some r =>
      rw [getLabelInfo_eq known, bind_some, bind_some]
      split
      · exact leaf _ (by rintro _ _ ⟨⟩; rfl)
      split
      · exact leaf _ (by rintro _ _ ⟨⟩; rfl)
      · refine leaf _ fun t s' made => ?_
        obtain ⟨_, -, same⟩ := Option.map_eq_some_iff.mp made
        cases same
        rfl
      next op =>
        have notLoad : (ctx.parser.info l).op ≠ .load := by simp [op]
        exact memcmpNode_alike larger (draws _ fun ne => .first ne .self)
          (draws _ fun ne => .second ne notLoad .self) (below (by simp [op]) notLoad) s room
      · refine leaf _ fun t s' made => ?_
        split at made
        · cases made
        obtain ⟨src, -, made⟩ := Option.bind_eq_some_iff.mp made
        split at made
        · cases made
        obtain ⟨first, -, made⟩ := Option.bind_eq_some_iff.mp made
        simp only [atoiNode] at made
        split at made
        · cases made
        · cases made
          rfl
      · exact .none
      next notInput notLoad _ _ _ =>
        exact operatorNode_alike larger (draws _ fun ne => .first ne .self)
          (draws _ fun ne => .second ne notLoad .self) (below notInput notLoad) s room

end Larger

/-! ## Supported labels -/

/-- A label is drawn if there is room for its tree. -/
def DrawsSmall (ctx : Context) (capacity : Nat) (draw : Nat → Draft → Option (AstNode × Draft))
    (x : Nat) : Prop :=
  ∀ s : Draft, s.nodes + treeSize ctx.parser.info x ≤ capacity + 1 → (draw x s).isSome = true

lemma operandNode_small {r : LabelInfo} (kind : AstKind) (side const : Nat) (s : Draft)
    (isSide : 0 ≠ side) (room : s.nodes + treeSize ctx.parser.info x ≤ capacity)
    (drawn : x ≠ 0 → DrawsSmall ctx capacity draw x)
    (constant : x = 0 → (constantSize ctx r other).isSome) :
    (operandNode ctx capacity draw r kind 0 side x const other s).isSome = true := by
  have pos := treeSize_pos ctx.parser.info x
  have free : ¬capacity ≤ s.nodes := by omega
  simp only [operandNode, Draft.addNode, if_neg free, bind_some]
  by_cases zero : x = 0
  · have notLabel : ¬(0 ≠ side ∧ 1 ≤ x) := by omega
    rw [if_neg notLabel, if_neg (fun marked => marked.1 rfl), Option.isSome_map]
    exact constant zero
  · have symbolic : 0 ≠ side ∧ 1 ≤ x := ⟨isSide, by omega⟩
    rw [if_pos symbolic, Option.isSome_map]
    refine drawn zero _ ?_
    dsimp only
    omega

lemma constantSize_some {r : LabelInfo} (joined : r.op = .concat → x = 0 → other ≠ 0)
    (inTable : other ≠ 0 → (ctx.parser.getLabelInfo other).isSome) (zero : x = 0) :
    (constantSize ctx r other).isSome := by
  simp only [constantSize]
  split
  next concat =>
    have ne := joined concat zero
    rw [if_neg ne, Option.isSome_map]
    exact inTable ne
  · rfl

lemma operatorNode_small {kind : AstKind} {s : Draft} (supported : Supported ctx l)
    (mapped : opMap (ctx.parser.info l).op = some kind)
    (alike : DrawsAlike ctx.parser.info capacity draw draw (ctx.parser.info l).l1)
    (drawn1 : (ctx.parser.info l).l1 ≠ 0 → DrawsSmall ctx capacity draw (ctx.parser.info l).l1)
    (drawn2 : (ctx.parser.info l).l2 ≠ 0 → DrawsSmall ctx capacity draw (ctx.parser.info l).l2)
    (notLoad : (ctx.parser.info l).op ≠ .load)
    (total : treeSize ctx.parser.info l = treeSize ctx.parser.info (ctx.parser.info l).l1 +
      treeSize ctx.parser.info (ctx.parser.info l).l2 + 1)
    (room : s.nodes + treeSize ctx.parser.info l ≤ capacity + 1) :
    (operatorNode ctx capacity draw l (ctx.parser.info l) s).isSome = true := by
  obtain ⟨-, -, typed, -⟩ := supported.typed.root
  have joined : (ctx.parser.info l).op = .concat →
      (ctx.parser.info l).l1 ≠ 0 ∨ (ctx.parser.info l).l2 ≠ 0 := by
    intro op
    simp only [Typed, op] at typed
    exact typed.1
  simp only [operatorNode, mapped, bind_some, supported.unmarked l .self]
  obtain ⟨⟨left, s1⟩, made⟩ := Option.isSome_iff_exists.mp (operandNode_small kind 1
    (ctx.parser.info l).op1 s Nat.zero_ne_one (by omega) drawn1 (constantSize_some
      (fun concat zero => (joined concat).resolve_left (not_not.mpr zero)) fun ne =>
        isSome_of_eq_some (supported.below (.second ne notLoad .self)).getLabelInfo))
  have bound := (operandNode_alike (Nat.le_refl capacity) kind 0 1 _ s (by omega) alike).2 _ _ made
  rw [made, bind_some]
  dsimp only
  split
  · rfl
  rw [Option.isSome_map]
  exact operandNode_small kind 2 (ctx.parser.info l).op2 s1 (by decide) (by omega) drawn2
    (constantSize_some (fun concat zero => (joined concat).resolve_right (not_not.mpr zero))
      fun ne => isSome_of_eq_some (supported.below (.first ne .self)).getLabelInfo)

/-- The AST of a supported label fits into as many nodes as its tree has. -/
lemma doUtaRel_small (capacity : Nat) (supported : Supported ctx l)
    (enough : treeSize ctx.parser.info l ≤ fuel) :
    DrawsSmall ctx capacity (doUtaRel ctx capacity fuel) l := by
  induction l using Nat.strongRecOn generalizing fuel with
  | ind l ih =>
    intro s room
    obtain ⟨ne, ordered, typed, -⟩ := supported.typed.root
    obtain ⟨_, _⟩ := supported.valid
    have pos := treeSize_pos ctx.parser.info l
    rcases fuel with _ | fuel
    · omega
    have ok : ¬(l < 1 ∨ l = kInitializingLabel) := by omega
    rw [doUtaRel, if_neg ok, supported.getLabelInfo, bind_some]
    by_cases seen : l ∈ s.visited
    · rw [if_pos seen]
      rfl
    rw [if_neg seen]
    rcases supported.known l .self with op | op | known
    · simp only [op]
      rfl
    · have symbolic : (ctx.parser.info l).l1 ≠ 0 := by
        simp only [Typed, op] at typed
        exact typed.1
      simp only [op, (supported.below (.first symbolic .self)).getLabelInfo]
      rfl
    · -- the remaining opcodes are the operations of the table of kinds
      have notLoad : (ctx.parser.info l).op ≠ .load := fun op => by simp [op, opMap] at known
      have notInput : (ctx.parser.info l).op ≠ .input := fun op => by simp [op, opMap] at known
      have total := treeSize_operation ne ordered notInput notLoad
      have draws : ∀ x < l, (x ≠ 0 → InDag ctx.parser.info l x) →
          treeSize ctx.parser.info x ≤ fuel → x ≠ 0 →
          DrawsSmall ctx capacity (doUtaRel ctx capacity fuel) x :=
        fun x lt reach enough zero => ih x lt (supported.below (reach zero)) enough
      split
      · exact absurd ‹_› notInput
      · exact absurd ‹_› notLoad
      iterate 3
        next op =>
          simp [op, opMap] at known
      · obtain ⟨_, mapped⟩ := Option.isSome_iff_exists.mp known
        have inner : (ctx.parser.info l).l1 ≠ 0 → ∀ k, InDag ctx.parser.info
            (ctx.parser.info l).l1 k → k ≠ 0 ∧ Ordered ctx.parser.info k := by
          intro symbolic k inside
          obtain ⟨ne, placed, -⟩ := supported.typed k (.first symbolic inside)
          exact ⟨ne, placed⟩
        exact operatorNode_small supported mapped (doUtaRel_alike (Nat.le_refl capacity) inner)
          (draws _ ordered.1 (fun ne => .first ne .self) (by omega))
          (draws _ (ordered.2 notLoad) (fun ne => .second ne notLoad .self) (by omega))
          notLoad total room

lemma parseConstraint_small (supported : Supported ctx l) {astSize : List Nat}
    (cmp : isIcmp (ctx.parser.info l).op = true)
    (sized : astSize[l]? = some (treeSize ctx.parser.info l))
    (enough : treeSize ctx.parser.info l ≤ fuel) :
    (parseConstraint ctx astSize fuel l).isSome := by
  have pos := treeSize_pos ctx.parser.info l
  have isComparison : isCmp (ctx.parser.info l).op = true := by simp [isCmp, cmp]
  obtain ⟨_, made⟩ := Option.isSome_iff_exists.mp (doUtaRel_small (treeSize ctx.parser.info l + 1)
    supported enough ⟨.empty, [], 1⟩ (by dsimp only; omega))
  rw [parseConstraint, supported.getLabelInfo, bind_some, isComparison, sized]
  simp only [if_neg (Nat.one_le_iff_ne_zero.mp pos), made]
  rfl

end Drawing

end TreeSizes
