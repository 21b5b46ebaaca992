import SymSan.NestedTasks

/-!
# What `save_constraint` records

`save_constraint` transforms the condition of a branch for the direction that was taken
and records the atoms of all clauses, not those of a clause that holds. If an And or Or
in the condition has one true and one false operand, the clause of the other operand is
recorded as well. In a run whose saved branches have no such connective, and are built as
a whole, every recorded atom holds on the current input, and so does everything that a
nested task adds to its clause.
-/

namespace SavedPath

open LabelTable Denotation TypedLabels RgdAst FindRoots RootWalk RootMeaning BranchForms
open ClauseForms RootAtoms JigsawTask BranchTasks BranchRuns NestedTasks

/-! ## The value of a formula on an input -/

/-- The operands and buffers of every label on an input. -/
def assignmentOf (info : Nat → LabelInfo) (inp : Input) : Assignment where
  width l := (info l).size
  first l := BitVec.ofNat (info l).size (operand1 info (den info inp) (info l))
  second l := BitVec.ofNat (info l).size (operand2 info (den info inp) (info l))
  differ l := den info inp l != 0

lemma leafValue_eq {info : Nat → LabelInfo} {inp : Input} {d : NodeData}
    (atom : RootAtom d) : leafValue (assignmentOf info inp) d = leafTruth info inp d := by
  by_cases mem : d.kind = .memcmp
  · simp [leafValue, mem, leafTruth, assignmentOf]
  have relational : isRelationalKind d.kind = true := by
    simpa [isAtomKind, mem] using atom.1
  obtain ⟨q, known⟩ := isRelationalKind_iff.mp relational
  rw [leafValue, if_neg mem, related, known, leafTruth_relational known]
  rfl

lemma value_eq_truth {info : Nat → LabelInfo} {t : AstNode} (formula : Formula RootAtom False t)
    (inp : Input) : value (assignmentOf info inp) t = truth info inp t := by
  induction formula with
  | leaf admitted => exact leafValue_eq admitted
  | lnot kind arg ih => rw [value, if_pos kind, truth, if_pos kind, ih]
  | land kind left right ihA ihB => simp only [value, truth, kind, ihA, ihB]
  | lor kind left right ihA ihB => simp only [value, truth, kind, ihA, ihB]
  | xor kind allowed left right => exact allowed.elim

/-! ## Even formulas -/

/-- Every And and Or has operands with the same value. -/
def Even (A : Assignment) : AstNode → Prop
  | .leaf _ => True
  | .node1 _ a => Even A a
  | .node2 d a b =>
    (d.kind = .land ∨ d.kind = .lor → value A a = value A b) ∧ Even A a ∧ Even A b

def Holding (A : Assignment) (d : NodeData) : Prop :=
  isClauseKind d.kind = true ∧ atomHolds A d = true

/-- Transforming an even formula for the value it has makes all atoms hold. -/
lemma toNnf_even {A : Assignment} {t : AstNode} (formula : Formula RootAtom False t)
    (even : Even A t) : ∃ t', toNnf (value A t) t = some t' ∧ Nnf (Holding A) t' := by
  induction formula with
  | @leaf d admitted =>
    obtain ⟨d', made, ⟨kind, -⟩, holds⟩ := toNnf_leaf admitted (leafValue A d)
    refine ⟨.leaf d', made, .leaf ⟨kind, ?_⟩⟩
    rw [holds]
    exact beq_self_eq_true _
  | @lnot d a kind arg ih =>
    obtain ⟨t', made, nnf⟩ := ih even
    refine ⟨t', ?_, nnf⟩
    rw [value]
    cases known : value A a with
    | false | true => simpa [toNnf, kind, known] using made
  | @land d a b kind left right ihA ihB | @lor d a b kind left right ihA ihB =>
    obtain ⟨same, evenA, evenB⟩ := even
    obtain ⟨_, madeA, nnfA⟩ := ihA evenA
    obtain ⟨_, madeB, nnfB⟩ := ihB evenB
    have equal := same (by simp [kind])
    rw [equal] at madeA
    obtain ⟨_, made, kind'⟩ := toNnf_connective (d := d) (by simp [kind]) madeA madeB
    refine ⟨_, ?_, .connective kind' nnfA nnfB⟩
    simp only [value, kind, equal]
    cases known : value A b <;> simpa [known] using made
  | xor kind allowed left right => exact allowed.elim

/-! ## Even labels -/

/-- An And or Or of two conditions has operands with the same value on the input. -/
def Agrees (info : Nat → LabelInfo) (inp : Input) (k : Nat) : Prop :=
  (info k).op = .and ∨ (info k).op = .or → (info k).l1 ≠ 0 → (info k).l2 ≠ 0 →
    den info inp (info k).l1 = den info inp (info k).l2

instance (info : Nat → LabelInfo) (inp : Input) (k : Nat) : Decidable (Agrees info inp k) :=
  inferInstanceAs (Decidable (_ → _))

section Labels

variable {p : Parser} {c c' : Caches} {inp : Input} {k l fuel : Nat} {t : AstNode}

/-- A formula with the value of its label that is even. -/
structure Plain (p : Parser) (inp : Input) (k : Nat) (t : AstNode) : Prop where
  good : Good p False k t
  even : Even (assignmentOf p.info inp) t

lemma Plain.value (plain : Plain p inp k t) :
    value (assignmentOf p.info inp) t = (den p.info inp k != 0) := by
  rw [value_eq_truth plain.good.formula]
  exact plain.good.truth inp

lemma rel_good {kid : Option Nat} {node : Option AstNode}
    (rel : Option.Rel (Plain p inp) kid node) : Option.Rel (Good p False) kid node := by
  cases rel with
  | some plain => exact .some plain.good
  | none => exact .none

lemma closed_plain (prepared : Prepared p c k) (notLoad : (p.info k).op ≠ .load)
    (clean : LocalClean p c False k) (agrees : Agrees p.info inp k) :
    Closed p c (Plain p inp) k := by
  intro left right now t c' relL relR before h
  have good := closed_good prepared notLoad clean left right now t c' (rel_good relL)
    (rel_good relR) before h
  have ofKid : ∀ a, left = some a ∨ right = some a → Even (assignmentOf p.info inp) a := by
    intro a isKid
    obtain ⟨y, -, plain⟩ := rel_kid relL relR isKid
    exact plain.even
  refine ⟨good, ?_⟩
  cases processNode_built h with
  | constant kind | atom kind noKids isLabel stamped => trivial
  | kid isKid => exact ofKid t isKid
  | @unary d a isKid kind => exact ofKid a isKid
  | @binary d a b isLeft isRight connects =>
    refine ⟨fun kind => ?_, ofKid a (.inl isLeft), ofKid b (.inr isRight)⟩
    subst isLeft isRight
    obtain ⟨goodA, symbolicA, -⟩ := ((leftKid_for prepared).side (rel_good relL)).good 0
    obtain ⟨goodB, symbolicB, -⟩ := ((rightKid_for prepared notLoad).side (rel_good relR)).good 0
    rw [value_eq_truth goodA.formula, value_eq_truth goodB.formula, goodA.truth, goodB.truth,
      agrees (connects.logic kind) symbolicA symbolicB]

/-- A branch that `find_roots` builds as a whole under the caches, without a connective
that one operand decides alone on the input. -/
structure Straight (p : Parser) (inp : Input) (c : Caches) (l : Nat) : Prop where
  conditions : Conditions p.info l
  bit : width (p.info l) = 1
  clean : RootsClean p c False l
  agrees : ∀ k, k ∈ footprint p c.nested l → Agrees p.info inp k

lemma Straight.plain (straight : Straight p inp c l) (prepared : Prepared p c l)
    (h : findRoots p c fuel l = some (t, c')) : Plain p inp l t := by
  have down := prepared.descends_of_bit straight.bit
  refine findRoots_rule down (prepared.conditions l .self).1 straight.clean.1 ?_ h
  intro k inside
  obtain ⟨reach, notLoad⟩ := footprint_inDag down inside
  exact closed_plain (prepared.below reach) notLoad (straight.clean.2 k inside)
    (straight.agrees k inside)

lemma Plain.atoms (plain : Plain p inp l t) {t' : AstNode}
    (made : toNnf (den p.info inp l != 0) t = some t') {a : AstNode}
    (recorded : a ∈ (toDnf t' []).flatten) : atomHolds (assignmentOf p.info inp) a.data = true := by
  obtain ⟨_, some, nnf⟩ := toNnf_even plain.good.formula plain.even
  rw [plain.value] at some
  cases some.symm.trans made
  obtain ⟨clause, inDnf, inClause⟩ := List.mem_flatten.mp recorded
  have all := toDnf_atoms (fun _ holding => holding.1) nnf atoms_nil
  exact (all clause inDnf a inClause).2

end Labels

/-! ## Buckets -/

/-- Every atom in a bucket has the property `P`. -/
def Filed (P : AstNode → Prop) (s : State) : Prop := ∀ i a, a ∈ s.buckets i → P a

section Buckets

variable {σ : Setting} {s : State} {P : AstNode → Prop}

lemma buckets_steps (σ : Setting) : TaskSteps σ fun s s' => s'.buckets = s.buckets :=
  ⟨fun _ => rfl, fun first second => second.trans first,
    fun s l => (atomConstraint_frame σ s l).2.2, fun s l => (useInputs_frame σ s l).2⟩

lemma collectVars_adds (filed : Filed P s) (n : Nested) (clause : List AstNode) :
    ∃ nodes, (collectVars σ s n clause).1.clause = n.clause ++ nodes ∧ ∀ a ∈ nodes, P a := by
  have addAll : ∀ (list : List AstNode) (n : Nested), (∀ a ∈ list, P a) →
      ∃ nodes, (list.foldl .add n).clause = n.clause ++ nodes ∧ ∀ a ∈ nodes, P a := by
    intro list
    induction list with
    | nil => exact fun n _ => ⟨[], (List.append_nil _).symm, nofun⟩
    | cons nc list ih =>
      intro n all
      obtain ⟨nodes, added, hold⟩ := ih (n.add nc) fun a mem => all a (List.mem_cons_of_mem nc mem)
      by_cases known : nc.data.label ∈ n.inserted
      · refine ⟨nodes, ?_, hold⟩
        rw [List.foldl_cons, added, Nested.add, if_pos known]
      · refine ⟨nc :: nodes, ?_, List.forall_mem_cons.mpr ⟨all nc List.mem_cons_self, hold⟩⟩
        rw [List.foldl_cons, added, Nested.add, if_neg known, List.append_assoc,
          List.singleton_append]
  induction clause generalizing s n with
  | nil => exact ⟨[], (List.append_nil _).symm, nofun⟩
  | cons var clause ih =>
    have same := (useInputs_frame σ s var.data.label).2
    have step : ∃ nodes, (collectVar σ s n var).1.clause = n.clause ++ nodes ∧
        ∀ a ∈ nodes, P a := by
      simp only [collectVar]
      split
      · exact ⟨[], (List.append_nil _).symm, nofun⟩
      apply addAll
      intro a mem
      obtain ⟨i, -, inBucket⟩ := List.mem_flatMap.mp mem
      rw [same] at inBucket
      exact filed i a inBucket
    obtain ⟨nodes, added, hold⟩ := step
    have next : Filed P (collectVar σ s n var).2 := by
      intro i a mem
      rw [collectVar_snd, same] at mem
      exact filed i a mem
    obtain ⟨more, added', hold'⟩ := ih next (collectVar σ s n var).1
    refine ⟨nodes ++ more, ?_, ?_⟩
    · rw [← List.append_assoc, ← added]
      exact added'
    · exact List.forall_mem_append.mpr ⟨hold, hold'⟩

lemma saveVars_filed {vars : List AstNode} (filed : Filed P s) (all : ∀ a ∈ vars, P a) :
    Filed P (saveVars σ s vars) := by
  induction vars generalizing s with
  | nil => exact filed
  | cons var vars ih =>
    have same := (useInputs_frame σ s var.data.label).2
    have used : Filed P (useInputs σ s var.data.label) := by
      intro i a mem
      rw [same] at mem
      exact filed i a mem
    have step : Filed P (saveVar σ s var).2 := by
      simp only [saveVar]
      split
      · exact used
      split
      · exact used
      rename_i root uf merged
      intro i a mem
      dsimp only at mem
      by_cases here : i = root
      · subst here
        rw [Function.update_self] at mem
        rcases List.mem_append.mp mem with old | new
        · exact used _ a old
        · rw [List.mem_singleton.mp new]
          exact all var List.mem_cons_self
      · rw [Function.update_of_ne here] at mem
        exact used i a mem
    have rest : ∀ a ∈ vars, P a := fun a mem => all a (List.mem_cons_of_mem var mem)
    simp only [saveVars]
    split
    next s1 saved =>
      rw [saved] at step
      exact ih step rest
    next s1 saved =>
      rw [saved] at step
      exact step

end Buckets

/-! ## Runs -/

/-- The caches with which `get_root_expr` builds a formula. -/
def scannedCaches (p : Parser) (s : State) (l : Nat) : Caches :=
  (scanNext p (l + 1 - s.caches.astSize.length) s).2.caches

/-- The states of a run on an input, where every branch goes in the direction that the
input takes. Only the branches of `kept` are saved, and they are straight when their
formulas are built. -/
inductive PathRun (σ : Setting) (inp : Input) (kept : Nat → Prop) : State → Prop where
  | restart : PathRun σ inp kept (restart σ.parser)
  | memcmp {s : State} (before : PathRun σ inp kept s) (label : Nat) (content : Nat → BitVec 8) :
      PathRun σ inp kept (recordMemcmp s label content)
  | cond {s : State} (before : PathRun σ inp kept s) (l : Nat) (addNested : Bool)
      (inside : Inside σ.parser l) (saves : addNested = true → kept l)
      (straight : kept l → s.rootExprs l = none →
        Straight σ.parser inp (scannedCaches σ.parser s l) l) :
      PathRun σ inp kept (parseCond σ s l (den σ.parser.info inp l != 0) addNested).2.2

/-- The formulas of the kept branches are plain and the recorded atoms hold. -/
structure Recorded (σ : Setting) (inp : Input) (kept : Nat → Prop) (s : State) : Prop where
  roots : ∀ l t, kept l → s.rootExprs l = some t → Plain σ.parser inp l t
  buckets : Filed (fun a => atomHolds (assignmentOf σ.parser.info inp) a.data = true) s

section Runs

variable {σ : Setting} {inp : Input} {kept : Nat → Prop} {s s' : State} {l : Nat}

lemma PathRun.reached (run : PathRun σ inp kept s) : Reached σ s := by
  induction run with
  | restart => exact .restart
  | memcmp before label content ih => exact .memcmp ih label content
  | cond before l addNested inside saves straight ih => exact .cond ih l _ addNested inside

lemma Recorded.follow (recorded : Recorded σ inp kept s) (follows : Follows σ s s')
    (buckets : s'.buckets = s.buckets) : Recorded σ inp kept s' := by
  constructor
  · intro l t isKept known
    rw [follows.roots] at known
    exact recorded.roots l t isKept known
  · intro i a mem
    rw [buckets] at mem
    exact recorded.buckets i a mem

section

variable (zero : (σ.parser.info 0).op = .input) (consistent : Consistent σ s)
  (recorded : Recorded σ inp kept s)

include zero consistent recorded

lemma getRootExpr_recorded (inside : Inside σ.parser l)
    (straight : kept l → s.rootExprs l = none →
      Straight σ.parser inp (scannedCaches σ.parser s l) l) {root : Option AstNode}
    (h : getRootExpr σ.parser s l = (root, s')) : Recorded σ inp kept s' := by
  have buckets := (getRootExpr_buckets σ.parser s l).2
  rw [h] at buckets
  constructor
  · have same : ∀ ok s1, scanNext σ.parser (l + 1 - s.caches.astSize.length) s = (ok, s1) →
        ∀ k t, kept k → s1.rootExprs k = some t → Plain σ.parser inp k t := by
      intro ok s1 scan k t isKept known
      rw [(consistent.scanned inside scan).1.roots] at known
      exact recorded.roots k t isKept known
    cases getRootExpr_fetched h with
    | refused | cached => exact recorded.roots
    | unscanned scan => exact same false s' scan
    | @built s1 t c valid fresh scan made =>
      intro k t' isKept known
      dsimp only at known
      by_cases here : k = l
      · subst here
        rw [Function.update_self] at known
        cases known
        obtain ⟨scans, covers⟩ := consistent.scanned inside scan
        have covered := covers rfl
        have aligned := scans.belongs.inStep.aligned
        have whole := straight isKept fresh
        simp only [scannedCaches, scan] at whole
        exact whole.plain ⟨zero, whole.conditions, scans.belongs.inStep.scanned,
          by omega, valid⟩ made
      · rw [Function.update_of_ne here] at known
        exact same true s1 scan k t' isKept known
    | @failed s1 scan => exact same true s1 scan
  · intro i a mem
    rw [buckets] at mem
    exact recorded.buckets i a mem

lemma parseCond_recorded (addNested : Bool) (inside : Inside σ.parser l)
    (saves : addNested = true → kept l)
    (straight : kept l → s.rootExprs l = none →
      Straight σ.parser inp (scannedCaches σ.parser s l) l) :
    Recorded σ inp kept (parseCond σ s l (den σ.parser.info inp l != 0) addNested).2.2 := by
  generalize found : getRootExpr σ.parser s l = out
  obtain ⟨root, s1⟩ := out
  have next := getRootExpr_recorded zero consistent recorded inside straight found
  obtain ⟨-, known⟩ := getRootExpr_consistent zero consistent inside found
  simp only [parseCond, found]
  split
  next s2 same =>
    cases same
    exact next
  rename_i root s2 same
  cases same
  obtain ⟨-, cached⟩ := known root rfl
  split
  · exact next
  split
  · exact next
  rename_i t nnf
  have follows := (follows_steps σ).parseClauses s1 (toDnf t [])
  have parsed := next.follow follows ((buckets_steps σ).parseClauses s1 (toDnf t []))
  split
  next saved =>
    have plain := next.roots l root (saves saved.2) cached
    constructor
    · intro k t' isKept known
      rw [((follows_steps σ).saveConstraint (fun _ _ _ => follows_of_same rfl rfl rfl) ..).roots]
        at known
      exact parsed.roots k t' isKept known
    simp only [saveConstraint]
    split
    · exact parsed.buckets
    next t' taken =>
      exact saveVars_filed parsed.buckets fun a mem => plain.atoms taken mem
  · exact parsed

end

lemma PathRun.recorded (zero : (σ.parser.info 0).op = .input) (run : PathRun σ inp kept s) :
    Recorded σ inp kept s := by
  induction run with
  | restart => exact ⟨nofun, nofun⟩
  | memcmp before label content ih => exact ⟨ih.roots, ih.buckets⟩
  | cond before l addNested inside saves straight ih =>
    exact parseCond_recorded zero (before.reached.consistent zero) ih addNested inside saves
      straight

/-- A nested task adds atoms that hold to a clause of the other direction. -/
lemma parseCond_adds {P : AstNode → Prop} (filed : Filed P s) (l : Nat)
    (result addNested : Bool) {task : Task} (stored : task ∈ (parseCond σ s l result addNested).2.1)
    {base : List (Constraint × AstKind)} (isNested : task.base = some base) :
    ∃ root t clause nodes s1, (getRootExpr σ.parser s l).1 = some root ∧
      toNnf (!result) root = some t ∧ clause ∈ toDnf t [] ∧
      task.constraints = (constructTask σ s1 (clause ++ nodes)).1 ∧ ∀ a ∈ nodes, P a := by
  have buckets := (getRootExpr_buckets σ.parser s l).2
  obtain ⟨root, t, s1, found, nnf, isTask⟩ := parseCond_task rfl stored
  rw [found] at buckets ⊢
  have scanned : Filed P s1 := by
    intro i a mem
    rw [buckets] at mem
    exact filed i a mem
  obtain ⟨clause, inDnf, _, here, n, s3, collected, constraints⟩ :=
    parseClauses_collected (I := Filed P)
      (fun s clause here i a mem => here i a (by
        rw [(constructTask_frame σ s clause).2.2] at mem
        exact mem))
      (fun s clause here i a mem => here i a (by
        rw [(buckets_steps σ).parseClause s clause] at mem
        exact mem)) scanned isTask isNested
  obtain ⟨nodes, added, hold⟩ := collectVars_adds (σ := σ) here
    ⟨clause, clause.map (·.data.label), false⟩ clause
  rw [collected] at added
  refine ⟨root, t, clause, nodes, s3, rfl, nnf, inDnf, ?_, hold⟩
  rw [constraints, added]

/-- In every state of a run whose saved branches are straight, the recorded atoms hold on
the current input, and a nested task adds nothing else to its clause. -/
theorem saved_atoms_hold (σ : Setting) (zero : (σ.parser.info 0).op = .input) (inp : Input)
    (kept : Nat → Prop) (s : State) (run : PathRun σ inp kept s) :
    (∀ i a, a ∈ s.buckets i → atomHolds (assignmentOf σ.parser.info inp) a.data = true) ∧
      ∀ l result addNested task base, task ∈ (parseCond σ s l result addNested).2.1 →
        task.base = some base →
        ∃ root t clause nodes s1, (getRootExpr σ.parser s l).1 = some root ∧
          toNnf (!result) root = some t ∧ clause ∈ toDnf t [] ∧
          task.constraints = (constructTask σ s1 (clause ++ nodes)).1 ∧
          ∀ a, a ∈ nodes → atomHolds (assignmentOf σ.parser.info inp) a.data = true := by
  have recorded := run.recorded zero
  constructor
  · exact recorded.buckets
  · intro l result addNested task base stored isNested
    exact parseCond_adds recorded.buckets l result addNested stored isNested

/-- The disjunction of two comparisons of a byte with a constant, and a comparison of the
second byte. -/
def eitherByte : Nat → LabelInfo := (TableGrowth.tableOf [⟨0, 0, 0, 0, .input, 8, 0⟩,
  ⟨0, 0, 1, 0, .input, 8, 0⟩, ⟨1, 0, 0, 65, .icmp .bveq, 8, 0⟩,
  ⟨2, 0, 0, 66, .icmp .bveq, 8, 0⟩, ⟨3, 4, 0, 0, .or, 1, 0⟩,
  ⟨2, 0, 0, 100, .icmp .bvult, 8, 0⟩] 1000).info

/-- Both operands are true on the input `AB`. -/
theorem saved_atoms_hold_both : let σ := nestedSetting eitherByte
    let inp : Input := ⟨fun _ offset => if offset = 0 then 65 else 66, fun _ => 0⟩
    let s := (parseCond σ (restart σ.parser) 5 (den σ.parser.info inp 5 != 0) true).2.2
    PathRun σ inp (· = 5) s ∧
      (s.buckets 1).map (fun a => (a.kind, a.data.label)) = [(.equal, 4)] ∧
      ∀ i a, a ∈ s.buckets i → atomHolds (assignmentOf eitherByte inp) a.data = true := by
  intro σ inp s
  have inside : ∀ k, k < 7 → 1 ≤ k → insideInputs σ.parser k = true := by decide
  have agrees : ∀ k, k ∈ footprint σ.parser
      (scannedCaches σ.parser (restart σ.parser) 5).nested 5 →
      Agrees σ.parser.info inp k := by decide +kernel
  have straight : Straight σ.parser inp (scannedCaches σ.parser (restart σ.parser) 5) 5 :=
    ⟨dag_of_range (n := 6) (by decide) (by decide), rfl,
      ⟨by decide +kernel, by decide +kernel⟩, agrees⟩
  have run : PathRun σ inp (· = 5) s :=
    .cond .restart 5 true (fun k pos le => inside k (by omega) pos) (fun _ => rfl)
      fun _ _ => straight
  exact ⟨run, by decide +kernel, (saved_atoms_hold σ rfl inp _ s run).1⟩

/-- On the input `AC` the second operand is false. It is recorded for the branch that was
taken, and the nested task of the next branch asks for it. -/
theorem disjunction_records_false_atom : let σ := nestedSetting eitherByte
    let inp : Input := ⟨fun _ offset => if offset = 0 then 65 else 67, fun _ => 0⟩
    let s := (parseCond σ (restart σ.parser) 5 (den σ.parser.info inp 5 != 0) true).2.2
    (s.buckets 1).map (fun a => (a.kind, a.data.label)) = [(.equal, 4)] ∧
      ¬(∀ i a, a ∈ s.buckets i → atomHolds (assignmentOf eitherByte inp) a.data = true) ∧
      (parseCond σ s 6 (den σ.parser.info inp 6 != 0) true).2.1.map
        (fun task => (task.base.isSome, task.constraints.map (·.2))) =
        [(false, [.uge]), (true, [.uge, .equal])] := by
  intro σ inp s
  have recorded : (s.buckets 1).map (fun a =>
      (a.kind, a.data.label, atomHolds (assignmentOf eitherByte inp) a.data)) =
      [(.equal, 4, false)] := by decide +kernel
  obtain ⟨a, one, facts⟩ := List.map_eq_singleton_iff.mp recorded
  simp only [Prod.mk.injEq] at facts
  refine ⟨by decide +kernel, ?_, by decide +kernel⟩
  intro all
  have holds := all 1 a (by rw [one]; exact List.mem_singleton_self a)
  rw [facts.2.2] at holds
  cases holds

end Runs

end SavedPath
