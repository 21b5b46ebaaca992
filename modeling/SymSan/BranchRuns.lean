import SymSan.BackendsAgree
import SymSan.BranchTasks
import SymSan.RootAtoms
import SymSan.TreeSizes

/-!
# Runs of the RGD parser

The caches of a parser belong to the table in every state that a run of `parse_cond`
reaches, as long as no scan meets a raw byte outside the inputs. An atom of a clause then
has a constraint if its comparison is integer code that `do_uta_rel` knows and no operand
is over the limit.
-/

namespace BranchRuns

open LabelTable Denotation TypedLabels RgdAst FindRoots RootWalk RootMeaning JigsawTask UtaRel
open DrawnTrees OperandMeaning AstSolver BackendsAgree BranchForms
open RootAtoms TreeSizes BranchTasks

/-! ## The conditions on the table -/

variable (p : Parser)

/-- The bytes of a raw label or a Load lie inside the inputs. -/
def insideInputs (l : Nat) : Bool :=
  let r := p.info l
  match r.op with
  | .input => (p.inputs[r.op2 % 2 ^ 32]?).any fun size => r.op1 % 2 ^ 32 < size
  | .load => (p.inputs[(p.info r.l1).op2 % 2 ^ 32]?).any fun size =>
      ((p.info r.l1).op1 + r.l2) % 2 ^ 32 ≤ size
  | _ => true

/-- So do those of all labels up to `l`. -/
def Inside (l : Nat) : Prop := ∀ k, 1 ≤ k → k ≤ l → insideInputs p k = true

lemma Inside.upTo {p : Parser} {l : Nat} (inside : Inside p l) (n : Nat) :
    ∀ j, n ≤ j → j < n + (l + 1 - n) → j ≠ 0 → insideInputs p j = true :=
  fun j _ _ _ => inside j (by omega) (by omega)

/-- A comparison that becomes a constraint: integer code over one buffer without
comparisons and boolean negations in its operands, none of which is over the limit. -/
structure Drawable (id l : Nat) : Prop where
  compares : ∃ q, Compares p.info q l ∧ (opMap (.icmp q)).isSome = true
  symbolic : (p.info l).l1 ≠ 0 ∨ (p.info l).l2 ≠ 0
  noNot : ∀ k, InDag p.info l k → (p.info k).op ≠ .not
  oneInput : ∀ k, InDag p.info l k → (p.info k).op = .input ∨ (p.info k).op = .load →
    (readOf p.info k).1 = id ∧ (readOf p.info k).2.1 + (readOf p.info k).2.2 ≤ 2 ^ 30
  limit : treeSize p.info (p.info l).l1 ≤ p.maxAstSize ∧
    treeSize p.info (p.info l).l2 ≤ p.maxAstSize
  size : treeSize p.info l ≤ 2 ^ 27
  valid : l < p.size ∧ l < kInitializingLabel

/-- The caches right after a scan of the labels up to `l`. -/
def tableCaches (l : Nat) : Caches :=
  ⟨(List.range (l + 1)).map (treeSize p.info), (List.range (l + 1)).map (nestedCmp p.info),
    fun _ => 0⟩

/-- A branch that is translated as a whole: no sub-condition is reached twice or folded
to a constant, there is no exclusive or, and all its atoms become constraints. -/
structure Ready (id l : Nat) : Prop where
  zero : (p.info 0).op = .input
  conditions : Conditions p.info l
  bit : width (p.info l) = 1
  clean : RootsClean p (tableCaches p l) False l
  drawable : ∀ k, AtomLabel p (tableCaches p l) l k → Drawable p id k

/-! ## Small comparisons -/

section Drawable

variable {p : Parser} {id l : Nat} {info : Nat → LabelInfo}

lemma treeSize_le {k : Nat} (wt : WellTyped info l) (reach : InDag info l k) :
    treeSize info k ≤ treeSize info l := by
  induction reach with
  | self => exact Nat.le_refl _
  | @first l k symbolic rest ih =>
    obtain ⟨ne, ordered, typed, -⟩ := wt.root
    have below := ih (wt.first symbolic)
    by_cases load : (info l).op = .load
    · simp only [Typed, load] at typed
      have first : treeSize info (info l).l1 = 1 := if_pos (.inr (.inl typed.2.1))
      have pos := treeSize_pos info l
      omega
    have notInput : (info l).op ≠ .input := by
      intro input
      simp only [Typed, input] at typed
      exact symbolic typed.1
    have total := treeSize_operation ne ordered notInput load
    omega
  | @second l k symbolic notLoad rest ih =>
    obtain ⟨ne, ordered, typed, -⟩ := wt.root
    have below := ih (wt.second symbolic notLoad)
    have notInput : (info l).op ≠ .input := by
      intro input
      simp only [Typed, input] at typed
      exact symbolic typed.2.1
    have total := treeSize_operation ne ordered notInput notLoad
    omega

lemma Drawable.small (drawable : Drawable p id l) {k : Nat} (reach : InDag p.info l k) :
    Small p k := by
  obtain ⟨q, cmp, -⟩ := drawable.compares
  intro j rest
  have inside := inDag_trans reach rest
  obtain ⟨ne, ordered, -, -⟩ := cmp.typed j inside
  have le := treeSize_le cmp.typed inside
  have bound := drawable.size
  refine ⟨ne, ordered, by omega, fun icmp => ?_⟩
  -- the only comparison of the DAG is its root
  by_cases root : j = l
  · rw [root]
    exact drawable.limit
  · rw [cmp.noCompare j inside root] at icmp
    cases icmp

lemma opMap_of_typed {r : LabelInfo} (typed : Typed info r) (notNot : r.op ≠ .not)
    (notIcmp : isIcmp r.op = false) :
    r.op = .input ∨ r.op = .load ∨ (opMap r.op).isSome := by
  rcases typed.cases with op | op | cast | op | op | ⟨same, -⟩
  · exact .inl op
  · exact .inr (.inl op)
  · refine .inr (.inr ?_)
    rcases cast with op | op | op | op <;> rw [op] <;> rfl
  · exact absurd op notNot
  · refine .inr (.inr ?_)
    rw [op]
    rfl
  · refine .inr (.inr ?_)
    cases op : r.op with
    | icmp q =>
      rw [op] at notIcmp
      cases notIcmp
    | _ =>
      rw [op] at same
      first
        | rfl
        | cases same

lemma Drawable.supported (drawable : Drawable p id l) {ctx : Context} (same : ctx.parser = p)
    (unmarked : ∀ k, InDag p.info l k → ctx.concretize k = 0) : Supported ctx l := by
  obtain ⟨q, cmp, known⟩ := drawable.compares
  subst same
  refine ⟨cmp.typed, fun k reach => ?_, drawable.valid, unmarked⟩
  by_cases root : k = l
  · rw [root, cmp.op]
    exact .inr (.inr known)
  · exact opMap_of_typed (cmp.typed k reach).2.2.1 (drawable.noNot k reach)
      (cmp.noCompare k reach root)

lemma Drawable.isIcmp (drawable : Drawable p id l) : LabelTable.isIcmp (p.info l).op = true := by
  obtain ⟨q, cmp, -⟩ := drawable.compares
  rw [cmp.op]
  rfl

end Drawable

/-! ## Constraints of a label -/

/-- The constraint is the tree of the label, with no operand concretized. -/
def DrawnFor (info : Nat → LabelInfo) (l : Nat) (c : Constraint) : Prop :=
  ∃ mark v, (∀ k, InDag info l k → mark k = 0) ∧ Drawn info mark c.args [] (.label l) c.ast v ∧
    c.args.inputArgs.length ≤ 2 ^ 30

/-- The input satisfies a constraint under an operator: the formula that `Z3Solver` makes
of it is true on the bytes of the buffer. -/
def Satisfies (id : Nat) (inp : Input) (made : Constraint × AstKind) : Prop :=
  ∃ e cache, serializeRel made.2 made.1.ast made.1.args.inputArgs (fun _ => none) =
    some (e, cache) ∧ e.value (buffer id inp) = 1

instance (id : Nat) (inp : Input) (made : Constraint × AstKind) :
    Decidable (Satisfies id inp made) :=
  decidable_of_iff ((serializeRel made.2 made.1.ast made.1.args.inputArgs fun _ => none).any
    fun r => r.1.value (buffer id inp) == 1) (by simp [Satisfies, Option.any_eq_true])

/-! ## The state -/

structure Consistent (σ : Setting) (s : State) : Prop where
  belongs : Belongs σ.parser s.caches
  roots : ∀ l t, s.rootExprs l = some t → l < s.caches.astSize.length ∧
    ∃ c c', Belongs σ.parser c ∧ l < c.astSize.length ∧
      findRoots σ.parser c (rounds σ.parser) l = some (t, c')
  drawn : ∀ l k, s.constraints l = some k → ∃ ctx c fuel, ctx.parser = σ.parser ∧
    Sized σ.parser c ∧ ctx.concretize = c.concretize ∧ parseConstraint ctx c.astSize fuel l = some k

section Scan

variable {p : Parser} {c c' : Caches}

lemma scanLabel_refused (inside : c.astSize.length ≠ 0 → insideInputs p c.astSize.length = true)
    (h : scanLabel p c = (false, c')) : c' = c := by
  simp only [scanLabel] at h
  split at h
  · cases h
  rename_i ne
  have inside := inside ne
  split at h
  · cases h
    rfl
  rename_i r known
  cases getLabelInfo_eq known
  split at h
  · cases h
    rfl
  split at h
  next op =>
    simp only [insideInputs, op, Option.any_eq_true, decide_eq_true_eq] at inside
    obtain ⟨_, found, inside⟩ := inside
    rw [found] at h
    cases (if_neg (Nat.not_le.mpr inside)).symm.trans h
  next op =>
    simp only [insideInputs, op, Option.any_eq_true, decide_eq_true_eq] at inside
    obtain ⟨_, found, inside⟩ := inside
    rw [found] at h
    cases (if_neg (Nat.not_lt.mpr inside)).symm.trans h
  · cases h

/-- What a scan leaves: the caches of the table, and everything else. -/
structure Scans (p : Parser) (s s' : State) : Prop where
  belongs : Belongs p s'.caches
  grows : s.caches.astSize.length ≤ s'.caches.astSize.length
  roots : s'.rootExprs = s.rootExprs
  constraints : s'.constraints = s.constraints

lemma scanNext_scans {k : Nat} {s s' : State} {ok : Bool} (belongs : Belongs p s.caches)
    (inside : ∀ j, s.caches.astSize.length ≤ j → j < s.caches.astSize.length + k → j ≠ 0 →
      insideInputs p j = true) (h : scanNext p k s = (ok, s')) :
    Scans p s s' ∧ (ok = true → s'.caches.astSize.length = s.caches.astSize.length + k) := by
  induction k generalizing s with
  | zero =>
    cases h
    exact ⟨⟨belongs, Nat.le_refl _, rfl, rfl⟩, fun _ => rfl⟩
  | succ k ih =>
    simp only [scanNext] at h
    split at h
    next c first =>
      obtain ⟨inStep, _⟩ := scanLabel_inStep belongs.inStep first
      have sized := scanLabel_sized belongs.sized first
      obtain ⟨scans, long⟩ := ih ⟨inStep, sized⟩ (by
        intro j low high ne
        dsimp only at low high
        exact inside j (by omega) (by omega) ne) h
      have grows := scans.grows
      dsimp only at grows long
      refine ⟨⟨scans.belongs, by omega, scans.roots, scans.constraints⟩, fun done => ?_⟩
      have exact := long done
      omega
    next c first =>
      cases h
      have same := scanLabel_refused (inside _ (Nat.le_refl _) (by omega)) first
      subst same
      exact ⟨⟨belongs, Nat.le_refl _, rfl, rfl⟩, nofun⟩

end Scan

/-- A failed traversal leaves caches of the table as well. -/
lemma leftBehind_survives {p : Parser} {I : Caches → Prop} (survives : Survives p I)
    (fuel : Nat) (w : Walk) (before : I w.caches) : I (leftBehind p fuel w) := by
  induction fuel generalizing w with
  | zero => exact before
  | succ fuel ih =>
    have leaves := step_survives survives before
    simp only [leftBehind]
    split
    next w' next =>
      rw [next] at leaves
      exact ih w' leaves
    next t c last =>
      rw [last] at leaves
      exact leaves
    simp only [refused]
    split
    · exact before
    rename_i f rest frames
    split
    · exact before
    split
    next leaf =>
      cases made : concretizeLeaf p w.caches (p.info f.label) f.label with
      | none => exact before
      | some made' => exact survives _ _ _ _ before leaf.1.2.2.1 made
    · exact before

section Root

variable {σ : Setting} {s s' : State} {l : Nat}

lemma Scans.consistent (consistent : Consistent σ s) (scans : Scans σ.parser s s') {c : Caches}
    (belongs : Belongs σ.parser c) (long : c.astSize.length = s'.caches.astSize.length) :
    Consistent σ { s' with caches := c } := by
  have grows := scans.grows
  constructor
  · exact belongs
  · intro x t known
    dsimp only at known ⊢
    rw [scans.roots] at known
    obtain ⟨_, made⟩ := consistent.roots x t known
    exact ⟨by omega, made⟩
  · dsimp only
    rw [scans.constraints]
    exact consistent.drawn

lemma Consistent.addRoot (consistent : Consistent σ s) {t : AstNode} {c c' : Caches}
    (covered : l < s.caches.astSize.length) (belongs : Belongs σ.parser c)
    (inside : l < c.astSize.length)
    (made : findRoots σ.parser c (rounds σ.parser) l = some (t, c')) :
    Consistent σ { s with rootExprs := Function.update s.rootExprs l (some t) } := by
  constructor
  · exact consistent.belongs
  · intro x t' known
    dsimp only at known
    by_cases here : x = l
    · subst here
      rw [Function.update_self] at known
      cases known
      exact ⟨covered, c, c', belongs, inside, made⟩
    · rw [Function.update_of_ne here] at known
      exact consistent.roots x t' known
  · exact consistent.drawn

/-- How `get_root_expr` ends. -/
inductive Fetched (p : Parser) (s : State) (l : Nat) : Option AstNode → State → Prop where
  | refused : Fetched p s l none s
  | cached {t : AstNode} (valid : l < p.size) (known : s.rootExprs l = some t) :
      Fetched p s l (some t) s
  | unscanned {s1 : State} (scan : scanNext p (l + 1 - s.caches.astSize.length) s = (false, s1)) :
      Fetched p s l none s1
  | built {s1 : State} {t : AstNode} {c : Caches} (valid : l < p.size)
      (fresh : s.rootExprs l = none)
      (scan : scanNext p (l + 1 - s.caches.astSize.length) s = (true, s1))
      (made : findRoots p s1.caches (rounds p) l = some (t, c)) :
      Fetched p s l (some t)
        { s1 with caches := c, rootExprs := Function.update s1.rootExprs l (some t) }
  | failed {s1 : State} (scan : scanNext p (l + 1 - s.caches.astSize.length) s = (true, s1)) :
      Fetched p s l none { s1 with caches := leftBehind p (rounds p) ⟨l, 0, [], [], 1, s1.caches⟩ }

lemma getRootExpr_fetched {p : Parser} {root : Option AstNode}
    (h : getRootExpr p s l = (root, s')) : Fetched p s l root s' := by
  simp only [getRootExpr] at h
  split at h
  · cases h
    exact .refused
  have inTable : l < p.size := by omega
  split at h
  next t known =>
    cases h
    exact .cached inTable known
  rename_i fresh
  split at h
  next s1 scan =>
    cases h
    exact .unscanned scan
  rename_i s1 scan
  split at h
  next t c made =>
    cases h
    exact .built inTable fresh scan made
  · cases h
    exact .failed scan

lemma Consistent.scanned (consistent : Consistent σ s) (inside : Inside σ.parser l)
    {ok : Bool} {s1 : State}
    (scan : scanNext σ.parser (l + 1 - s.caches.astSize.length) s = (ok, s1)) :
    Scans σ.parser s s1 ∧ (ok = true → l < s1.caches.astSize.length) := by
  obtain ⟨scans, long⟩ := scanNext_scans consistent.belongs
    (inside.upTo _) scan
  refine ⟨scans, fun done => ?_⟩
  have long := long done
  omega

lemma getRootExpr_consistent (zero : (σ.parser.info 0).op = .input)
    (consistent : Consistent σ s) (inside : Inside σ.parser l) {root : Option AstNode}
    (h : getRootExpr σ.parser s l = (root, s')) :
    Consistent σ s' ∧ ∀ t, root = some t → l < σ.parser.size ∧ s'.rootExprs l = some t := by
  cases getRootExpr_fetched h with
  | refused => exact ⟨consistent, nofun⟩
  | @cached t valid known =>
    refine ⟨consistent, fun t' same => ⟨valid, ?_⟩⟩
    rw [known, ← same]
  | unscanned scan =>
    obtain ⟨scans, -⟩ := consistent.scanned inside scan
    exact ⟨scans.consistent consistent scans.belongs rfl, nofun⟩
  | @built s1 t c valid fresh scan made =>
    obtain ⟨scans, covers⟩ := consistent.scanned inside scan
    have covered := covers rfl
    obtain ⟨belongs, same⟩ := walk_survives (belongs_survives zero s1.caches.astSize.length)
      ⟨scans.belongs, rfl⟩ made
    have next := scans.consistent consistent belongs same
    refine ⟨next.addRoot (by dsimp only; omega) scans.belongs covered made, ?_⟩
    intro t' same
    refine ⟨valid, ?_⟩
    dsimp only
    rw [Function.update_self, same]
  | @failed s1 scan =>
    obtain ⟨scans, -⟩ := consistent.scanned inside scan
    obtain ⟨belongs, same⟩ := leftBehind_survives
      (belongs_survives zero s1.caches.astSize.length) (rounds σ.parser)
      ⟨l, 0, [], [], 1, s1.caches⟩ ⟨scans.belongs, rfl⟩
    exact ⟨scans.consistent consistent belongs same, nofun⟩

end Root

/-! ## Relations that the making of tasks keeps -/

/-- A relation that composes and holds for every constraint that is drawn and every set
of bytes that is replaced. -/
structure TaskSteps (σ : Setting) (R : State → State → Prop) : Prop where
  refl : ∀ s, R s s
  trans : ∀ {s s' s''}, R s s' → R s' s'' → R s s''
  draws : ∀ s l, R s (atomConstraint σ s l).2
  uses : ∀ s l, R s (useInputs σ s l)

section TaskSteps

variable {σ : Setting} {R : State → State → Prop} (steps : TaskSteps σ R)
include steps

lemma TaskSteps.construct (s : State) (clause : List AstNode) :
    R s (constructTask σ s clause).2 := by
  induction clause generalizing s with
  | nil => exact steps.refl s
  | cons node clause ih =>
    have first := steps.draws s node.data.label
    simp only [constructTask]
    split
    all_goals
      rename_i s1 made
      rw [made] at first
      exact steps.trans first (ih s1)

lemma TaskSteps.collect (s : State) (n : Nested) (clause : List AstNode) :
    R s (collectVars σ s n clause).2 := by
  induction clause generalizing s n with
  | nil => exact steps.refl s
  | cons var clause ih =>
    have first := steps.uses s var.data.label
    simp only [collectVars, collectVar]
    split
    all_goals exact steps.trans first (ih _ _)

lemma TaskSteps.parseClause (s : State) (clause : List AstNode) :
    R s (BranchTasks.parseClause σ s clause).2 := by
  have first := steps.construct s clause
  have second := steps.trans first (steps.collect _ ⟨clause, clause.map (·.data.label), false⟩
    clause)
  simp only [BranchTasks.parseClause]
  repeat' split
  · exact first
  iterate 2
    · exact steps.trans second (steps.construct _ _)
  · exact second
  · exact first

lemma TaskSteps.parseClauses (s : State) (dnf : List (List AstNode)) :
    R s (BranchTasks.parseClauses σ s dnf).2 := by
  induction dnf generalizing s with
  | nil => exact steps.refl s
  | cons clause dnf ih => exact steps.trans (steps.parseClause s clause) (ih _)

variable (files : ∀ s uf buckets, R s { s with dataFlow := uf, buckets := buckets })

include files

/-- Atoms are saved by replacing their sets of bytes and changing the sets and buckets. -/
lemma TaskSteps.saveVar (s : State) (var : AstNode) : R s (BranchTasks.saveVar σ s var).2 := by
  have first := steps.uses s var.data.label
  simp only [BranchTasks.saveVar]
  repeat' split
  · exact first
  · exact first
  · exact steps.trans first (files _ _ _)

lemma TaskSteps.saveConstraint (s : State) (root : AstNode) (result : Bool) :
    R s (BranchTasks.saveConstraint σ s root result) := by
  have all : ∀ vars s, R s (saveVars σ s vars) := by
    intro vars
    induction vars with
    | nil => exact steps.refl
    | cons var vars ih =>
      intro s
      have first := steps.saveVar files s var
      simp only [saveVars]
      split
      next s1 saved =>
        rw [saved] at first
        exact steps.trans first (ih s1)
      next s1 saved =>
        rw [saved] at first
        exact first
  simp only [BranchTasks.saveConstraint]
  split
  · exact steps.refl s
  · exact all _ s

/-- What `parse_cond` does after it has the root expression. -/
lemma TaskSteps.parseCond {s s1 : State} {l : Nat} (result addNested : Bool)
    {root : Option AstNode} (found : getRootExpr σ.parser s l = (root, s1)) :
    R s1 (BranchTasks.parseCond σ s l result addNested).2.2 := by
  simp only [BranchTasks.parseCond, found]
  split
  next s2 same =>
    cases same
    exact steps.refl _
  rename_i t s2 same
  cases same
  repeat' split
  · exact steps.refl _
  · exact steps.refl _
  · exact steps.trans (steps.parseClauses s1 _) (steps.saveConstraint files _ _ _)
  · exact steps.parseClauses s1 _

end TaskSteps

/-! ## Everything after the root expression -/

/-- A step that keeps the caches and root expressions and only adds drawn constraints. -/
structure Follows (σ : Setting) (s s' : State) : Prop where
  caches : s'.caches = s.caches
  roots : s'.rootExprs = s.rootExprs
  consistent : Consistent σ s → Consistent σ s'

section Follows

variable {σ : Setting} {s s' s'' : State}

lemma Follows.refl (s : State) : Follows σ s s := ⟨rfl, rfl, fun h => h⟩

lemma Follows.trans (first : Follows σ s s') (second : Follows σ s' s'') : Follows σ s s'' :=
  ⟨second.caches.trans first.caches, second.roots.trans first.roots,
    fun h => second.consistent (first.consistent h)⟩

lemma follows_of_same (caches : s'.caches = s.caches) (roots : s'.rootExprs = s.rootExprs)
    (constraints : s'.constraints = s.constraints) : Follows σ s s' := by
  refine ⟨caches, roots, fun before => ⟨?_, ?_, ?_⟩⟩
  · rw [caches]
    exact before.belongs
  · rw [caches, roots]
    exact before.roots
  · rw [constraints]
    exact before.drawn

lemma atomConstraint_follows (σ : Setting) (s : State) (l : Nat) :
    Follows σ s (atomConstraint σ s l).2 := by
  simp only [atomConstraint]
  split
  · exact .refl s
  split
  next c made =>
    refine ⟨rfl, rfl, fun before => ⟨before.belongs, before.roots, ?_⟩⟩
    intro x k known
    dsimp only at known
    by_cases here : x = l
    · subst here
      rw [Function.update_self] at known
      cases known
      exact ⟨context σ s, s.caches, _, rfl, before.belongs.sized, rfl, made⟩
    · rw [Function.update_of_ne here] at known
      exact before.drawn x k known
  · exact .refl s

lemma useInputs_follows (σ : Setting) (s : State) (l : Nat) : Follows σ s (useInputs σ s l) := by
  simp only [useInputs]
  split
  · exact follows_of_same rfl rfl rfl
  · split
    · exact follows_of_same rfl rfl rfl
    · exact .refl s

lemma follows_steps (σ : Setting) : TaskSteps σ (Follows σ) :=
  ⟨.refl, .trans, atomConstraint_follows σ, useInputs_follows σ⟩

lemma saveVar_follows (σ : Setting) (s : State) (var : AstNode) :
    Follows σ s (saveVar σ s var).2 :=
  (follows_steps σ).saveVar (fun _ _ _ => follows_of_same rfl rfl rfl) s var

lemma parseCond_follows {l : Nat} (result addNested : Bool) {root : Option AstNode}
    (found : getRootExpr σ.parser s l = (root, s')) :
    Follows σ s' (parseCond σ s l result addNested).2.2 :=
  (follows_steps σ).parseCond (fun _ _ _ => follows_of_same rfl rfl rfl) result addNested found

end Follows

/-! ## Runs -/

section Runs

variable {σ : Setting} {s s' : State} {l : Nat}

/-- The states of a run: no scan meets a raw byte outside the inputs. -/
inductive Reached (σ : Setting) : State → Prop where
  | restart : Reached σ (restart σ.parser)
  | memcmp {s : State} (before : Reached σ s) (label : Nat) (content : Nat → BitVec 8) :
      Reached σ (recordMemcmp s label content)
  | cond {s : State} (before : Reached σ s) (l : Nat) (result addNested : Bool)
      (inside : Inside σ.parser l) : Reached σ (parseCond σ s l result addNested).2.2

lemma Reached.consistent (zero : (σ.parser.info 0).op = .input) (reached : Reached σ s) :
    Consistent σ s := by
  induction reached with
  | restart => exact ⟨⟨noCaches_inStep _, noCaches_sized _⟩, nofun, nofun⟩
  | @memcmp s before label content ih =>
    have same : Follows σ s (recordMemcmp s label content) := follows_of_same rfl rfl rfl
    exact same.consistent ih
  | @cond s before l result addNested inside ih =>
    obtain ⟨next, -⟩ := getRootExpr_consistent zero ih inside rfl
    exact (parseCond_follows result addNested rfl).consistent next

end Runs

/-! ## The formula under the caches of a run -/

section Transfer

variable {p : Parser} {c c' : Caches} {id k l : Nat}

lemma kids_eq (prepared : Prepared p c k) (prepared' : Prepared p c' k)
    (notLoad : (p.info k).op ≠ .load) :
    leftKid p c.nested (p.info k) = leftKid p c'.nested (p.info k) ∧
      rightKid p c.nested (p.info k) = rightKid p c'.nested (p.info k) := by
  have atZero : c.nested 0 = c'.nested 0 := by
    rw [nested_zero prepared.scanned, nested_zero prepared'.scanned]
  have same : ∀ x, InDag p.info k x → c.nested x = c'.nested x := by
    intro x reach
    rw [(prepared.below reach).nested, (prepared'.below reach).nested]
  constructor
  · have first : c.nested (p.info k).l1 = c'.nested (p.info k).l1 := by
      by_cases zero : (p.info k).l1 = 0
      · rw [zero, atZero]
      · exact same _ (.first zero .self)
    rw [leftKid, leftKid, first]
  · by_cases zero : (p.info k).l2 = 0
    · have valid := prepared.valid
      rw [rightKid, rightKid, zero, stripZext_zero prepared.zero (by omega)]
      simp only [Option.filter_some, atZero]
    · have reach : InDag p.info k (p.info k).l2 := .second zero notLoad .self
      obtain ⟨y, strip, stripped⟩ := stripZext_some (prepared.below reach)
      rw [rightKid, rightKid, strip]
      simp only [Option.filter_some, same y (inDag_trans reach stripped.reach)]

/-- The labels that become nodes do not depend on the caches. -/
lemma footprint_caches (prepared : Prepared p c k) (prepared' : Prepared p c' k)
    (down : Descends p c.nested k) (down' : Descends p c'.nested k) :
    footprint p c.nested k = footprint p c'.nested k := by
  induction k using Nat.strongRecOn with
  | ind k ih =>
    obtain ⟨left, right⟩ := kids_eq prepared prepared' down.notLoad
    have below : ∀ kid, (∀ y, kid = some y → IsKid p c.nested k y) →
        kidFootprint p c.nested kid = kidFootprint p c'.nested kid := by
      intro kid isKid
      cases kid with
      | none => rfl
      | some y =>
        have here := isKid y rfl
        obtain ⟨-, lt, next⟩ := down.kid here
        have reach := (down.kidOf k .self down.notLoad y here).reach
        have here' : IsKid p c'.nested k y := by
          rw [IsKid, ← left, ← right]
          exact here
        obtain ⟨-, -, next'⟩ := down'.kid here'
        rw [kidFootprint_some, kidFootprint_some]
        exact ih y lt (prepared.below reach) (prepared'.below reach) next next'
    rw [footprint_eq down, footprint_eq down', ← left, ← right,
      below _ fun y kid => .inl kid, below _ fun y kid => .inr kid]

lemma tableCaches_scanned (p : Parser) (l : Nat) : Scanned p (tableCaches p l) := by
  intro k lt
  simp only [tableCaches, List.length_map, List.length_range] at lt
  simp [Caches.nested, tableCaches, List.getElem?_range lt]

lemma concreteOps_zero {r : LabelInfo} (symbolic : r.l1 ≠ 0 ∨ r.l2 ≠ 0) :
    concreteOps r 0 ≠ 3 := by
  simp only [concreteOps]
  rcases symbolic with ne | ne
  · rw [if_neg ne]
    split <;> decide
  · rw [if_neg ne]
    split <;> decide

/-- Only the decision to concretize depends on the caches. -/
lemma localClean_caches (left : leftKid p c.nested (p.info k) = leftKid p c'.nested (p.info k))
    (right : rightKid p c.nested (p.info k) = rightKid p c'.nested (p.info k))
    (symbolic : leftKid p c.nested (p.info k) = none → rightKid p c.nested (p.info k) = none →
      (concretizeLeaf p c (p.info k) k).map (fun made => concreteOps (p.info k) made.1) ≠ some 3)
    (clean : LocalClean p c' False k) : LocalClean p c False k := by
  cases op : (p.info k).op with
  | icmp q =>
    simp only [LocalClean, op, ComparisonClean, ← left, ← right] at clean ⊢
    generalize leftKid p c.nested (p.info k) = kid1 at clean symbolic ⊢
    generalize rightKid p c.nested (p.info k) = kid2 at clean symbolic ⊢
    cases kid1 with
    | none =>
      cases kid2 with
      | none => exact symbolic rfl rfl
      | some y => exact clean
    | some x =>
      cases kid2 with
      | none | some y => exact clean
  | and | or | xor => simpa only [LocalClean, op] using clean
  | _ => simp only [LocalClean, op]

/-- The branch is translated as a whole under all caches of the table. -/
lemma Ready.transfer (ready : Ready p id l) (valid : l < p.size) (belongs : Belongs p c)
    (covers : l < c.astSize.length) :
    Prepared p c l ∧ RootsClean p c False l ∧ ∀ k, AtomLabel p c l k → Drawable p id k := by
  have aligned := belongs.inStep.aligned
  have prepared : Prepared p c l :=
    ⟨ready.zero, ready.conditions, belongs.inStep.scanned, by omega, valid⟩
  have fresh : Prepared p (tableCaches p l) l :=
    ⟨ready.zero, ready.conditions, tableCaches_scanned p l, by simp [tableCaches], valid⟩
  have down := prepared.descends_of_bit ready.bit
  have same := footprint_caches prepared fresh down (fresh.descends_of_bit ready.bit)
  have kids : ∀ k ∈ footprint p c.nested l,
      leftKid p c.nested (p.info k) = leftKid p (tableCaches p l).nested (p.info k) ∧
        rightKid p c.nested (p.info k) = rightKid p (tableCaches p l).nested (p.info k) := by
    intro k inside
    obtain ⟨reach, notLoad⟩ := footprint_inDag down inside
    exact kids_eq (prepared.below reach) (fresh.below reach) notLoad
  have atoms : ∀ k, AtomLabel p c l k → Drawable p id k := by
    rintro k ⟨inside, noLeft, noRight⟩
    obtain ⟨left, right⟩ := kids k inside
    refine ready.drawable k ⟨?_, ?_, ?_⟩
    · rw [← same]
      exact inside
    · rw [← left]
      exact noLeft
    · rw [← right]
      exact noRight
  refine ⟨prepared, ⟨?_, fun k inside => ?_⟩, atoms⟩
  · rw [same]
    exact ready.clean.1
  obtain ⟨left, right⟩ := kids k inside
  have clean := ready.clean.2 k (by rw [← same]; exact inside)
  refine localClean_caches left right (fun noLeft noRight folded => ?_) clean
  -- a comparison over integers: its operands are within the limit
  have drawable := atoms k ⟨inside, noLeft, noRight⟩
  obtain ⟨⟨_, _⟩, leaf, three⟩ := Option.map_eq_some_iff.mp folded
  obtain ⟨rfl, -⟩ := concretizeLeaf_small belongs.sized (drawable.small .self) drawable.isIcmp leaf
  exact concreteOps_zero drawable.symbolic three

end Transfer

/-! ## Whole clauses -/

section Clauses

variable {σ : Setting} {s s' : State} {id l : Nat} {task : Task}

lemma atomConstraint_drawn (consistent : Consistent σ s) (drawable : Drawable σ.parser id l)
    (covers : l < s.caches.astSize.length) :
    ∃ c, (atomConstraint σ s l).1 = some c ∧ DrawnFor σ.parser.info l c := by
  obtain ⟨q, cmp, -⟩ := drawable.compares
  have drawnFor : ∀ ctx c fuel k, ctx.parser = σ.parser → Sized σ.parser c →
      ctx.concretize = c.concretize → parseConstraint ctx c.astSize fuel l = some k →
      DrawnFor σ.parser.info l k := by
    intro ctx c fuel k same sized marks made
    have unmarked : ∀ j, InDag σ.parser.info l j → ctx.concretize j = 0 := by
      intro j reach
      rw [marks]
      exact sized.unmarked j (.inr (drawable.small reach))
    rw [← same] at cmp
    obtain ⟨v, size, tree, known, _⟩ := parseConstraint_draws cmp.typed cmp.narrow made
    have inside := (List.getElem?_eq_some_iff.mp known).1
    rw [sized.size l inside (.inr (drawable.small .self))] at known
    cases known
    rw [same] at tree
    have bound := drawable.size
    exact ⟨ctx.concretize, v, unmarked, tree, by omega⟩
  simp only [atomConstraint]
  cases cached : s.constraints l with
  | some k =>
    obtain ⟨ctx, c, fuel, same, sized, marks, made⟩ := consistent.drawn l k cached
    exact ⟨k, rfl, drawnFor ctx c fuel k same sized marks made⟩
  | none =>
    have sized := consistent.belongs.sized
    have size := sized.size l covers (.inr (drawable.small .self))
    have enough : treeSize σ.parser.info l ≤ s.caches.astSize.getD l 0 + 2 := by
      rw [List.getD_eq_getElem?_getD, size, Option.getD_some]
      omega
    have supported : Supported (context σ s) l := drawable.supported rfl
      fun j reach => sized.unmarked j (.inr (drawable.small reach))
    have success : (drawConstraint σ s l).isSome :=
      parseConstraint_small supported drawable.isIcmp size enough
    obtain ⟨k, made⟩ := Option.isSome_iff_exists.mp success
    simp only [made]
    exact ⟨k, rfl, drawnFor (context σ s) s.caches _ k rfl sized rfl made⟩

lemma Ready.atoms (ready : Ready σ.parser id l) (consistent : Consistent σ s)
    (valid : l < σ.parser.size) {root t : AstNode} (cached : s.rootExprs l = some root)
    {expected : Bool} (nnf : toNnf expected root = some t) {clause : List AstNode}
    (inDnf : clause ∈ toDnf t []) {a : AstNode} (inClause : a ∈ clause) :
    isRelationalKind a.kind = true ∧ Drawable σ.parser id a.data.label ∧
      a.data.label < s.caches.astSize.length := by
  obtain ⟨_, c, _, belongs, inside, made⟩ := consistent.roots l root cached
  obtain ⟨prepared, clean, drawable⟩ := ready.transfer valid belongs inside
  obtain ⟨relational, atom⟩ := findRoots_clauses prepared ready.bit clean
    (fun x atom => (drawable x atom).isIcmp) made nnf clause inDnf a inClause
  have down := prepared.descends_of_bit ready.bit
  have upTo := ready.conditions.le (footprint_inDag down atom.1).1
  exact ⟨relational, drawable _ atom, by omega⟩

/-- A constraint for the atom, with its operator. -/
def ConstraintFor (info : Nat → LabelInfo) (made : Constraint × AstKind) (atom : AstNode) : Prop :=
  made.2 = atom.kind ∧ DrawnFor info atom.data.label made.1

lemma parseCond_task {ok result addNested : Bool} {tasks : List Task}
    (h : parseCond σ s l result addNested = (ok, tasks, s')) (stored : task ∈ tasks) :
    ∃ root t s1, getRootExpr σ.parser s l = (some root, s1) ∧ toNnf (!result) root = some t ∧
      task ∈ (parseClauses σ s1 (toDnf t [])).1 := by
  rw [← show (parseCond σ s l result addNested).2.1 = tasks by rw [h]] at stored
  generalize found : getRootExpr σ.parser s l = out
  obtain ⟨root, s1⟩ := out
  cases root with
  | none =>
    simp only [parseCond, found] at stored
    cases stored
  | some root =>
    simp only [parseCond, found] at stored
    split at stored
    · cases stored
    split at stored
    · cases stored
    next t nnf =>
      refine ⟨root, t, s1, rfl, nnf, ?_⟩
      split at stored
      · exact stored
      · exact stored

end Clauses

/-- A list of labels with their operands as the DAG of a comparison. -/
lemma drawable_of_dag {p : Parser} {id l : Nat} {q : Predicate} (dag : List Nat)
    (op : (p.info l).op = .icmp q)
    (root : l ∈ dag ∧ (opMap (.icmp q)).isSome ∧
      ((p.info l).l1 ≠ 0 ∨ (p.info l).l2 ≠ 0) ∧
      (treeSize p.info (p.info l).l1 ≤ p.maxAstSize ∧
        treeSize p.info (p.info l).l2 ≤ p.maxAstSize) ∧
      treeSize p.info l ≤ 2 ^ 27 ∧ l < p.size ∧ l < kInitializingLabel)
    (closed : ∀ k ∈ dag, ((p.info k).l1 ≠ 0 → (p.info k).l1 ∈ dag) ∧
      ((p.info k).l2 ≠ 0 → (p.info k).op ≠ .load → (p.info k).l2 ∈ dag))
    (records : ∀ k ∈ dag, (k ≠ 0 ∧ Ordered p.info k ∧ Typed p.info (p.info k) ∧
        (p.info k).size < 2 ^ 16) ∧ (p.info k).size ≤ 64 ∧
      (k ≠ l → isIcmp (p.info k).op = false) ∧ (p.info k).op ≠ .not ∧
      ((p.info k).op = .input ∨ (p.info k).op = .load → (readOf p.info k).1 = id ∧
        (readOf p.info k).2.1 + (readOf p.info k).2.2 ≤ 2 ^ 30)) : Drawable p id l := by
  obtain ⟨member, known, symbolic, rest⟩ := root
  have below := fun k reach => records k (inDag_mem closed member reach)
  exact ⟨⟨q, ⟨op, fun k reach => (below k reach).1, fun k reach => (below k reach).2.1,
    fun k reach => (below k reach).2.2.1⟩, known⟩, symbolic,
    fun k reach => (below k reach).2.2.2.1, fun k reach => (below k reach).2.2.2.2,
    rest.1, rest.2.1, rest.2.2⟩

/-- A parser of one input of 4 bytes without nested solving. -/
def plainSetting (info : Nat → LabelInfo) : Setting :=
  ⟨⟨info, 1000, 200, 33, [4]⟩, fun _ _ => 0, false, fun set => set, fun _ => .rfl⟩

end BranchRuns
