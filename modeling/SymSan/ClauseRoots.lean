import SymSan.RootAtoms

/-!
# From a branch condition to clauses

The pipeline of `parse_cond` on one condition: `find_roots` builds its formula, `to_nnf`
asks for the direction that was not taken and `to_dnf` lists the clauses, each of which
becomes a task. Whatever the table, the formula is over labelled comparisons, and what
`to_nnf` cannot negate in it is an exclusive or, a negated constant or a negation with two
operands, which is left of an exclusive or with one constant side. A formula without them
goes through in both directions.
-/

namespace ClauseRoots

open LabelTable Denotation RgdAst FindRoots RootWalk RootMeaning RootAtoms BranchForms
  ClauseForms

/-- No exclusive or, and no negation of a constant or of two operands. -/
def clausal : AstNode → Bool
  | .leaf _ => true
  | .node1 _ a => a.kind ≠ .bool && clausal a
  | .node2 d a b => d.kind ≠ .xor && d.kind ≠ .lnot && clausal a && clausal b

/-- A tree that is not constant is a formula if it is clausal, which it is if `to_nnf` succeeds in
both directions. -/
structure Settled (t : AstNode) : Prop where
  formula : t.kind ≠ .bool → clausal t = true → Formula RootAtom False t
  clausal : t.kind ≠ .bool → (∀ expected, (toNnf expected t).isSome = true) → clausal t = true

section Nodes

variable {d : NodeData} {a b t : AstNode}

lemma Settled.constant (kind : t.kind = .bool) : Settled t :=
  ⟨fun varying => absurd kind varying, fun varying => absurd kind varying⟩

lemma toNnf_constant (kind : t.kind = .bool) : toNnf false t = none := by
  cases t with
  | leaf d | node1 d a | node2 d a b =>
    simp only [AstNode.kind, AstNode.data] at kind
    simp [toNnf, kind, negateLeaf, AstNode.kind, AstNode.data, isRelationalKind]

lemma Settled.lnot (kind : d.kind = .lnot) (arg : Settled a) : Settled (.node1 d a) := by
  constructor
  · intro _ clean
    simp only [ClauseRoots.clausal, Bool.and_eq_true, decide_eq_true_eq] at clean
    exact .lnot kind (arg.formula clean.1 clean.2)
  intro _ made
  have below : ∀ expected, (toNnf expected a).isSome = true := by
    intro expected
    have opposite := made (!expected)
    cases expected <;> simpa [toNnf, kind] using opposite
  have varying : a.kind ≠ .bool := by
    intro constant
    have negated := below false
    rw [toNnf_constant constant] at negated
    cases negated
  simp [ClauseRoots.clausal, varying, arg.clausal varying below]

lemma Settled.logic (kind : d.kind = .land ∨ d.kind = .lor) (left : Settled a) (right : Settled b)
    (varyA : a.kind ≠ .bool) (varyB : b.kind ≠ .bool) : Settled (.node2 d a b) := by
  constructor
  · intro _ clean
    simp only [ClauseRoots.clausal, Bool.and_eq_true] at clean
    have formulaA := left.formula varyA clean.1.2
    have formulaB := right.formula varyB clean.2
    rcases kind with land | lor
    · exact .land land formulaA formulaB
    · exact .lor lor formulaA formulaB
  intro _ made
  have below : ∀ expected, (toNnf expected a).isSome = true ∧
      (toNnf expected b).isSome = true := by
    intro expected
    have both := made expected
    rcases kind with kind | kind
    all_goals
      cases expected
      all_goals simpa [toNnf, kind, Option.isSome_bind, Option.any_eq_true_iff_get] using both
  have here : d.kind ≠ .xor ∧ d.kind ≠ .lnot := by
    rcases kind with kind | kind
    all_goals simp [kind]
  simp [ClauseRoots.clausal, here, left.clausal varyA fun expected => (below expected).1,
    right.clausal varyB fun expected => (below expected).2]

/-- Neither of these is negated. -/
lemma Settled.other (kind : d.kind = .lnot ∨ d.kind = .xor) : Settled (.node2 d a b) := by
  constructor
  · intro _ clean
    rcases kind with kind | kind
    all_goals simp [ClauseRoots.clausal, kind] at clean
  · intro _ made
    have negated := made false
    rcases kind with kind | kind
    all_goals
      simp [toNnf, kind, negateLeaf, AstNode.kind, AstNode.data, isRelationalKind] at negated

lemma Settled.built {r : LabelInfo} {label : Nat} {left right : Option AstNode}
    (built : Built r label left right t) (ne : label ≠ 0)
    (kids : ∀ a, left = some a ∨ right = some a → Settled a) : Settled t := by
  cases built with
  | constant kind => exact .constant kind
  | atom kind noKids isLabel stamped =>
    exact ⟨fun _ _ => .leaf ⟨kind, by rwa [isLabel]⟩, fun _ _ => rfl⟩
  | kid isKid => exact kids t isKid
  | unary isKid kind =>
    rcases kind with bool | lnot
    · exact .constant bool
    · exact .lnot lnot (kids _ isKid)
  | binary isLeft isRight kind =>
    rcases kind with bool | lnot | ⟨xor | ⟨logic, -⟩, varyA, varyB⟩
    · exact .constant bool
    · exact .other (.inl lnot)
    · exact .other (.inr xor)
    · exact .logic logic (kids _ (.inl isLeft)) (kids _ (.inr isRight)) varyA varyB

end Nodes

/-! ## The traversal -/

/-- A node as it is before its label is processed. -/
def Draft : AstNode → Prop
  | .leaf d => d = .fresh
  | .node1 d a => d = .fresh ∧ Settled a
  | .node2 d a b => d = .fresh ∧ Settled a ∧ Settled b

/-- The nodes under construction are drafts, and the result is settled. -/
def Kept : Outcome → Prop
  | .running w => ∀ f ∈ w.frames, f.label ≠ 0 ∧ Draft f.node
  | .finished t _ => Settled t
  | .invalid => True

section Walk

variable {p : Parser} {w : Walk} {f : Frame} {rest : List Frame} {t node : AstNode} {c c' : Caches}

lemma Draft.kids (draft : Draft node) : ∃ left right, node = withKids left right ∧
    ∀ a, left = some a ∨ right = some a → Settled a := by
  cases node with
  | leaf d => exact ⟨none, none, congrArg AstNode.leaf draft, by simp⟩
  | node1 d a =>
    obtain ⟨rfl, settled⟩ := draft
    exact ⟨some a, none, rfl, by simpa using settled⟩
  | node2 d a b =>
    obtain ⟨rfl, left, right⟩ := draft
    refine ⟨some a, some b, rfl, ?_⟩
    rintro k (isLeft | isRight)
    · cases isLeft
      exact left
    · cases isRight
      exact right

lemma Draft.setLast (draft : Draft node) (settled : Settled t) : Draft (node.setLast t) := by
  cases node with
  | leaf d => exact draft
  | node1 d a => exact ⟨draft.1, settled⟩
  | node2 d a b => exact ⟨draft.1, draft.2.1, settled⟩

lemma goDown_kept (here : f.label ≠ 0 ∧ Draft f.node)
    (others : ∀ g ∈ rest, g.label ≠ 0 ∧ Draft g.node) (root : Nat) :
    Kept (goDown p w f rest root) := by
  have new : Settled .fresh := .constant rfl
  simp only [goDown]
  split
  · trivial
  split
  · trivial
  next node added =>
    refine List.forall_mem_cons.mpr ⟨⟨here.1, ?_⟩, others⟩
    obtain ⟨-, draft⟩ := here
    generalize f.node = old at added draft
    cases old with
    | leaf d =>
      cases added
      exact ⟨draft, new⟩
    | node1 d a =>
      cases added
      exact ⟨draft.1, draft.2, new⟩
    | node2 d a b => cases added

lemma step_kept (before : Kept (.running w)) : Kept (step p w) := by
  simp only [step]
  split
  next ne =>
    have frame : w.root ≠ 0 ∧ Draft .fresh := ⟨ne, rfl⟩
    simp only [stepDown]
    repeat' split
    exacts [before, trivial, List.forall_mem_cons.mpr ⟨frame, before⟩, trivial,
      List.forall_mem_cons.mpr ⟨frame, before⟩, goDown_kept frame before _]
  split
  · trivial
  next f rest frames =>
    simp only [Kept, frames] at before
    obtain ⟨here, others⟩ := List.forall_mem_cons.mp before
    simp only [stepUp]
    repeat' split
    · trivial
    · trivial
    · exact goDown_kept here others _
    · trivial
    next t c made =>
      obtain ⟨left, right, node, kids⟩ := here.2.kids
      rw [node] at made
      have settled := Settled.built (processNode_built made) here.1 kids
      simp only [popFrame]
      split
      · exact settled
      next g below =>
        obtain ⟨above, others⟩ := List.forall_mem_cons.mp others
        exact List.forall_mem_cons.mpr ⟨⟨above.1, above.2.setLast settled⟩, others⟩

end Walk

/-- Both directions of a formula that is not constant become clauses over labelled comparisons, if
and only if nothing in it is an exclusive or, a negated constant or a negation of two operands. -/
theorem findRoots_clausal_iff (p : Parser) (c c' : Caches) (fuel l : Nat) (t : AstNode)
    (h : findRoots p c fuel l = some (t, c')) (varying : t.kind ≠ .bool) :
    (∀ expected, ∃ t', toNnf expected t = some t' ∧
      Atoms (fun a => isClauseKind a.kind = true ∧ a.data.label ≠ 0) (toDnf t' [])) ↔
        clausal t = true := by
  have settled : Settled t :=
    walk_rule (fun _ => step_kept) (fun _ none => absurd none List.not_mem_nil) h
  constructor
  · intro made
    refine settled.clausal varying fun expected => ?_
    obtain ⟨t', some, -⟩ := made expected
    rw [some]
    rfl
  · intro clean expected
    obtain ⟨t', made, nnf, -⟩ := toNnf_formula (settled.formula varying clean) expected
    exact ⟨t', made, toDnf_atoms (fun _ atom => atom.1) nnf atoms_nil⟩

/-- A byte, two comparisons of it, and the given records. -/
def comparedTwice (records : List LabelInfo) : Parser :=
  ⟨(TableGrowth.tableOf ([⟨0, 0, 0, 0, .input, 8, 0⟩, ⟨1, 0, 0, 65, .icmp .bveq, 8, 0⟩,
    ⟨1, 0, 0, 100, .icmp .bvugt, 8, 0⟩] ++ records) 1000).info, 1000, 200, 33, [4]⟩

/-- A conjunction with a disjunction that shares a comparison with it. -/
theorem findRoots_clausal_iff_shared :
    let p := comparedTwice [⟨2, 3, 0, 0, .or, 1, 0⟩, ⟨2, 4, 0, 0, .and, 1, 0⟩]
    ∃ t c', findRoots p (scanLabels p noCaches 5).2 40 5 = some (t, c') ∧
      ∀ expected, ∃ t', toNnf expected t = some t' ∧
        Atoms (fun a => isClauseKind a.kind = true ∧ a.data.label ≠ 0) (toDnf t' []) := by
  intro p
  have run : (findRoots p (scanLabels p noCaches 5).2 40 5).map (fun made =>
      (decide (made.1.kind ≠ .bool), clausal made.1)) = some (true, true) := by decide
  obtain ⟨⟨t, c'⟩, h, shape⟩ := Option.map_eq_some_iff.mp run
  simp only [Prod.mk.injEq, decide_eq_true_eq] at shape
  exact ⟨t, c', h, (findRoots_clausal_iff p _ c' 40 5 t h shape.1).mpr shape.2⟩

/-- The exclusive or of two comparisons is a root that cannot be negated, and asking
for it to be true leaves an atom with label 0. -/
theorem findRoots_exclusive_or : let p := comparedTwice [⟨2, 3, 0, 0, .xor, 1, 0⟩]
    ∃ t c', findRoots p (scanLabels p noCaches 4).2 40 4 = some (t, c') ∧ t.kind ≠ .bool ∧
      toNnf false t = none ∧
      (toNnf true t).map (fun t' => (toDnf t' []).map (·.map (·.data.label))) = some [[0]] := by
  intro p
  have run : (findRoots p (scanLabels p noCaches 4).2 40 4).map (fun made =>
      (decide (made.1.kind ≠ .bool), toNnf false made.1,
        (toNnf true made.1).map fun t' => (toDnf t' []).map (·.map (·.data.label)))) =
      some (true, none, some [[0]]) := by decide
  obtain ⟨⟨t, c'⟩, h, shape⟩ := Option.map_eq_some_iff.mp run
  simp only [Prod.mk.injEq, decide_eq_true_eq] at shape
  exact ⟨t, c', h, shape⟩

end ClauseRoots
