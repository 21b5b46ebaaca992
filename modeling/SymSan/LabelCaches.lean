import SymSan.NestedTasks

/-!
# The caches of labels over the calls of the parser

`scan_labels` extends its three caches in one loop and resumes from the length of the first
one. It pushes the size of a read before it checks the position, so a refused position puts
the caches out of step. The number of comparisons is kept in 8 bits. `parse_cond` and
`save_constraint` write the set of bytes of a concretized comparison through a reference into
the cache, and `add_constraints` refuses every comparison, since a comparison counts itself.
-/

namespace LabelCaches

open LabelTable Denotation TypedLabels RgdAst FindRoots RootWalk RootMeaning TreeSizes BranchForms
open BranchTasks BranchRuns NestedTasks ScanTables UtaRel

/-! ## What scans record -/

/-- The size that is recorded for a label, in 32 bits. -/
def sizeStep (info : Nat → LabelInfo) (l : Nat) (earlier : Nat → Nat) : Nat :=
  treeStep info l earlier % 2 ^ 32

/-- The reads of a label lie inside the inputs. -/
def ReadInside (p : Parser) (l : Nat) : Prop :=
  insideInputs p l = true ∧ ((p.info l).op = .load →
    (p.info (p.info l).l1).op1 % 2 ^ 32 + (p.info l).l2 < 2 ^ 32)

/-- The states that calls of `scan_labels` leave; a call may fail at a record with an invalid
operand. -/
inductive ScanRun (p : Parser) : State → Prop where
  | restart : ScanRun p (restart p)
  | scan {s : State} (before : ScanRun p s) (l : Nat)
      (inside : ∀ k, 1 ≤ k → k ≤ l → ReadInside p k) :
      ScanRun p (scanNext p (l + 1 - s.caches.astSize.length) s).2

/-- The three caches are in step, and their entries are those of the labels. -/
structure Described (p : Parser) (s : State) : Prop where
  aligned : s.caches.nestedCmp.length = s.caches.astSize.length ∧
    s.branchToInputs.length = s.caches.astSize.length
  sizes : Begins (sizeStep p.info) 0 s.caches.astSize
  nested : Begins (nestedStep p.info) 0 s.caches.nestedCmp
  inputs : Begins (fun l earlier => inputsOf p earlier l) (fun _ => false) s.branchToInputs
  bounded : ∀ i b, s.inputs i b = true → b < inputSize p

section Scans

variable {p : Parser} {s s' : State} {k l : Nat}

lemma index_le {id n : Nat} (inside : (p.inputs[id]?).any (n ≤ ·) = true) :
    inputToDepIdx p id n ≤ inputSize p := by
  obtain ⟨size, known, le⟩ := (Option.any_eq_true _ _).mp inside
  obtain ⟨lt, rfl⟩ := List.getElem?_eq_some_iff.mp known
  have total := congrArg List.sum (List.take_append_drop id p.inputs)
  rw [List.sum_append, List.drop_eq_getElem_cons lt, List.sum_cons] at total
  simp only [inputSize, inputToDepIdx, decide_eq_true_eq] at le ⊢
  omega

lemma inputsOf_bounded {earlier : Nat → Nat → Bool} (inside : l ≠ 0 → ReadInside p l)
    (bounded : ∀ i b, earlier i b = true → b < inputSize p) {b : Nat}
    (h : inputsOf p earlier l b = true) : b < inputSize p := by
  generalize made : inputsOf p earlier l = bits at h
  simp only [inputsOf] at made
  split at made
  · subst made
    cases h
  rename_i ne
  obtain ⟨inside, fits⟩ := inside ne
  split at made
  next op =>
    subst made
    simp only [insideInputs, op] at inside
    have total := index_le inside
    have here := of_decide_eq_true h
    simp only [inputToDepIdx] at total here
    omega
  next op =>
    subst made
    simp only [insideInputs, op] at inside
    have total := index_le inside
    have fits := fits op
    have here := of_decide_eq_true h
    simp only [inputToDepIdx] at total here
    omega
  · subst made
    rcases of_decide_eq_true h with ⟨-, here⟩ | ⟨-, here⟩
    · exact bounded _ b here
    · exact bounded _ b here

lemma scanNext_described (described : Described p s)
    (inside : ∀ j, s.caches.astSize.length ≤ j → j < s.caches.astSize.length + k → j ≠ 0 →
      ReadInside p j) :
    Described p (scanNext p k s).2 := by
  induction k generalizing s with
  | zero => exact described
  | succ k ih =>
    obtain ⟨⟨alignedN, alignedI⟩, sizes, nested, inputs, bounded⟩ := described
    simp only [scanNext]
    split
    next c first =>
      cases scanLabel_pushes first
      have size : sizeStep p.info s.caches.astSize.length (fun j => s.caches.astSize.getD j 0) =
          _ := apply_ite (· % 2 ^ 32) _ _ _
      refine ih ⟨?_, ?_, ?_, ?_, ?_⟩ fun j low lt => inside j ?_ ?_
      · simp [Caches.push, alignedN, alignedI]
      · have next := sizes.push
        rw [size] at next
        exact next
      · have next := nested.push
        rw [alignedN] at next
        exact next
      · have next := inputs.push
        rw [alignedI] at next
        exact next
      · intro i b here
        rw [inputs_push] at here
        split at here
        · exact inputsOf_bounded (inside _ (Nat.le_refl _) (by omega)) bounded here
        · exact bounded i b here
      · simp only [Caches.push, List.length_append] at low
        omega
      · simp only [Caches.push, List.length_append, List.length_singleton] at lt
        omega
    next c first =>
      have same := scanLabel_refused (fun ne => (inside _ (Nat.le_refl _) (by omega) ne).1) first
      subst same
      exact ⟨⟨alignedN, alignedI⟩, sizes, nested, inputs, bounded⟩

lemma ScanRun.described (run : ScanRun p s) : Described p s := by
  induction run with
  | restart => exact ⟨⟨rfl, rfl⟩, nofun, nofun, nofun, nofun⟩
  | scan before l inside ih =>
    exact scanNext_described ih fun j low lt ne => inside j (by omega) (by omega)

end Scans

instance (p : Parser) (l : Nat) : Decidable (ReadInside p l) :=
  inferInstanceAs (Decidable (_ ∧ _))

/-- Scans that meet no read outside the inputs leave three caches of one length, whose
entries are those of the labels and whose bytes are declared ones. -/
theorem scans_align_caches (p : Parser) (s : State) (run : ScanRun p s) :
    s.caches.nestedCmp.length = s.caches.astSize.length ∧
      s.branchToInputs.length = s.caches.astSize.length ∧
      ∀ i, i < s.caches.astSize.length →
        s.caches.astSize.getD i 0 = ScanTables.value (sizeStep p.info) 0 i ∧
        s.caches.nested i = nestedCmp p.info i ∧ s.inputs i = labelInputs p i ∧
        ∀ b, s.inputs i b = true → b < inputSize p := by
  obtain ⟨⟨alignedN, alignedI⟩, sizes, nested, inputs, bounded⟩ := run.described
  refine ⟨alignedN, alignedI, fun i lt => ⟨sizes i lt, ?_, ?_, bounded i⟩⟩
  · exact nested i (by omega)
  · exact inputs i (by omega)

/-- A byte, a sum, and a record with an operand outside the table. -/
def badOperand : Parser :=
  (plainSetting (TableGrowth.tableOf [⟨0, 0, 0, 0, .input, 8, 0⟩, ⟨1, 0, 0, 7, .add, 8, 0⟩,
    ⟨2000, 0, 0, 0, .add, 8, 0⟩] 1000).info).parser

theorem scans_align_caches_bad_operand : let s := (scanNext badOperand 4 (restart badOperand)).2
    (scanNext badOperand 4 (restart badOperand)).1 = false ∧ s.caches.astSize = [1, 1, 3] ∧
      s.branchToInputs.length = s.caches.astSize.length := by
  have inside : ∀ k, k < 4 → 1 ≤ k → ReadInside badOperand k := by decide
  exact ⟨by decide, by decide, (scans_align_caches badOperand _
    (.scan .restart 3 fun k pos le => inside k (by omega) pos)).2.1⟩

/-- A byte outside the inputs leaves its size and nothing else. -/
theorem refused_read_misaligns :
    let p := (plainSetting (TableGrowth.tableOf [⟨0, 0, 9, 0, .input, 8, 0⟩] 1000).info).parser
    let s := (scanNext p 2 (restart p)).2
    s.caches.astSize.length = 2 ∧ s.caches.nestedCmp.length = 1 ∧ s.branchToInputs.length = 1 := by
  decide

/-! ## What labels accumulate -/

variable (info : Nat → LabelInfo)

/-- A record of a union table: operands come first, raw bytes have none, and a Load starts
at a raw byte. -/
def Readable (k : Nat) : Prop :=
  k ≠ 0 ∧ Ordered info k ∧ ((info k).op = .input → (info k).l1 = 0 ∧ (info k).l2 = 0) ∧
    ((info k).op = .load → (info (info k).l1).op = .input ∧ 1 ≤ (info k).l2)

def Legible (l : Nat) : Prop := ∀ k, InDag info l k → Readable info k

section Accumulation

variable {info : Nat → LabelInfo} {l : Nat} {P Q : Nat → Prop}

/-- A property that a label has by itself or from an operand holds if some label of the DAG
has it by itself. -/
lemma Legible.accumulates (legible : Legible info l)
    (step : ∀ k, Readable info k → (P k ↔ Q k ∨ ((info k).l1 ≠ 0 ∧ P (info k).l1) ∨
      ((info k).l2 ≠ 0 ∧ (info k).op ≠ .load ∧ P (info k).l2))) :
    P l ↔ ∃ k, InDag info l k ∧ Q k := by
  induction l using Nat.strongRecOn with
  | ind l ih =>
    obtain ⟨-, ordered, -⟩ := legible l .self
    have left := fun symbolic => ih _ ordered.1 fun k reach => legible k (.first symbolic reach)
    have right := fun symbolic notLoad => ih _ (ordered.2 notLoad) fun k reach =>
      legible k (.second symbolic notLoad reach)
    rw [step l (legible l .self)]
    constructor
    · rintro (own | ⟨symbolic, has⟩ | ⟨symbolic, notLoad, has⟩)
      · exact ⟨l, .self, own⟩
      · obtain ⟨k, reach, own⟩ := (left symbolic).mp has
        exact ⟨k, .first symbolic reach, own⟩
      · obtain ⟨k, reach, own⟩ := (right symbolic notLoad).mp has
        exact ⟨k, .second symbolic notLoad reach, own⟩
    · rintro ⟨k, reach, own⟩
      cases reach with
      | self => exact .inl own
      | first symbolic rest =>
        exact .inr (.inl ⟨symbolic, (left symbolic).mpr ⟨k, rest, own⟩⟩)
      | second symbolic notLoad rest =>
        exact .inr (.inr ⟨symbolic, notLoad, (right symbolic notLoad).mpr ⟨k, rest, own⟩⟩)

end Accumulation

/-! ## Nested comparisons -/

def countStep (l : Nat) (earlier : Nat → Nat) : Nat :=
  if l = 0 ∨ (info l).op = .input ∨ (info l).op = .load then 0
  else (if (info l).l1 = 0 then 0 else earlier (info l).l1) +
    (if (info l).l2 = 0 then 0 else earlier (info l).l2) + (if isCmp (info l).op then 1 else 0)

/-- The comparisons of a label, each counted once for every path to it. -/
def comparisons : Nat → Nat := ScanTables.value (countStep info) 0

lemma nestedCmp_eq (l : Nat) : nestedCmp info l = comparisons info l % 256 := by
  induction l using Nat.strongRecOn with
  | ind l ih =>
    have side : ∀ x, (if x = 0 then 0 else if x < l then nestedCmp info x else 0) =
        (if x = 0 then 0 else if x < l then comparisons info x else 0) % 256 := by
      intro x
      split
      · rfl
      · split
        next lt =>
          exact ih x lt
        · rfl
    rw [nestedCmp, comparisons, value_eq, value_eq, nestedStep, countStep]
    split
    · rfl
    · have first := side (info l).l1
      have second := side (info l).l2
      simp only [nestedCmp, comparisons] at first second
      omega

lemma comparisons_iff {info : Nat → LabelInfo} {l : Nat} (legible : Legible info l) :
    comparisons info l ≠ 0 ↔ ∃ k, InDag info l k ∧ isCmp (info k).op = true := by
  have read : ∀ k, (info k).op = .input ∨ (info k).op = .load →
      comparisons info k = 0 ∧ isCmp (info k).op = false := by
    rintro k op
    refine ⟨by simp [comparisons, value_eq, countStep, op], ?_⟩
    rcases op with op | op
    all_goals
      rw [op]
      rfl
  refine legible.accumulates (P := fun k => comparisons info k ≠ 0)
    (Q := fun k => isCmp (info k).op = true) ?_
  rintro k ⟨ne, ordered, raw, load⟩
  by_cases isInput : (info k).op = .input
  · simp [read k (.inl isInput), raw isInput]
  by_cases isLoad : (info k).op = .load
  · simp [read k (.inr isLoad), read _ (.inl (load isLoad).1), isLoad, isCmp, isIcmp]
  · have lt1 := ordered.1
    have lt2 := ordered.2 isLoad
    rw [comparisons, value_eq, countStep]
    grind

/-- The 8-bit count tells whether a label contains a comparison unless the number of
comparisons on its paths is a positive multiple of 256. -/
theorem nested_comparisons_exact_iff (σ : Setting) (zero : (σ.parser.info 0).op = .input)
    (s : State) (reached : Reached σ s) (l : Nat) (scanned : l < s.caches.nestedCmp.length)
    (legible : Legible σ.parser.info l) :
    (s.caches.nested l ≠ 0 ↔
        ∃ k, InDag σ.parser.info l k ∧ isCmp (σ.parser.info k).op = true) ↔
      ¬(0 < comparisons σ.parser.info l ∧ comparisons σ.parser.info l % 256 = 0) := by
  have entry := (reached.consistent zero).belongs.inStep.scanned l scanned
  rw [entry, nestedCmp_eq, ← comparisons_iff legible]
  omega

/-- A byte, a comparison of it, and eight disjunctions of the label before with itself. -/
def doubled : Nat → LabelInfo := (TableGrowth.tableOf ([⟨0, 0, 0, 0, .input, 8, 0⟩,
  ⟨1, 0, 0, 65, .icmp .bveq, 8, 0⟩] ++ (List.range 8).map fun i =>
    ⟨i + 2, i + 2, 0, 0, .or, 1, 0⟩) 1000).info

lemma doubled_legible {l : Nat} (range : 1 ≤ l ∧ l ≤ 10) : Legible doubled l :=
  dag_of_range (n := 10) (by decide) range

lemma doubled_inside {l : Nat} (le : l ≤ 10) : Inside (plainSetting doubled).parser l := by
  have inside : ∀ k < 11, insideInputs (plainSetting doubled).parser k = true := by decide
  exact fun k _ below => inside k (by omega)

theorem nested_comparisons_exact_iff_twice :
    let s := (parseCond (plainSetting doubled) (restart (plainSetting doubled).parser) 3 true
      false).2.2
    s.caches.nested 3 = 2 ∧ ∃ k, InDag doubled 3 k ∧ isCmp (doubled k).op = true := by
  intro s
  have same := (nested_comparisons_exact_iff (plainSetting doubled) rfl s
    (.cond .restart 3 true false (doubled_inside (by omega))) 3 (by decide)
    (doubled_legible (by omega))).mpr (by decide)
  exact ⟨by decide, same.mp (by decide)⟩

/-- The comparison lies on 256 paths of the last disjunction. -/
theorem nested_comparisons_wrap : let p := (plainSetting doubled).parser
    (scanNext p 11 (restart p)).2.caches.nested 10 = 0 ∧ InDag doubled 10 2 ∧
      isCmp (doubled 2).op = true := by
  have down : ∀ k, k < 11 → 3 ≤ k → (doubled k).l1 = k - 1 := by decide
  have reach : ∀ k, 2 ≤ k → k ≤ 10 → InDag doubled k 2 := by
    intro k low
    induction k, low using Nat.le_induction with
    | base => exact fun _ => .self
    | succ k low ih =>
      intro high
      have l1 := down (k + 1) (by omega) (by omega)
      refine .first (by omega) ?_
      rw [l1]
      exact ih (by omega)
  exact ⟨by decide, reach 10 (by omega) (by omega), rfl⟩

/-! ## `add_constraints` -/

/-- Whether `save_constraint` gets through the atoms. -/
def savesAll (σ : Setting) : State → List AstNode → Bool
  | _, [] => true
  | s, var :: rest =>
    match saveVar σ s var with
    | (true, s) => savesAll σ s rest
    | (false, _) => false

/-- `add_constraints`: the code it returns, and the state. -/
def addConstraints (σ : Setting) (s : State) (label result : Nat) : Int × State :=
  if σ.solveNested = false then (0, s)
  else if label < 1 ∨ label = kInitializingLabel ∨ σ.parser.size ≤ label then (-1, s)
  else if result ≠ 1 then (-1, s)
  else if (s.rootExprs label).isSome then (0, s)
  else match scanNext σ.parser (label + 1 - s.caches.astSize.length) s with
  | (false, s) => (-1, s)
  | (true, s) =>
    let r := σ.parser.info label
    if 0 < s.caches.nested label then (-1, s)
    else if r.op ≠ .icmp .bveq then (-1, s)
    else if r.l1 ≠ 0 then (-1, s)
    else if σ.parser.maxAstSize < s.caches.astSize.getD r.l2 0 then (0, s)
    else
      let root := AstNode.leaf (((NodeData.fresh.setBits 1).setKind .equal).setLabel label)
      let s := { s with rootExprs := Function.update s.rootExprs label (some root) }
      match toNnf true root with
      | none => (-1, s)
      | some t =>
        (if savesAll σ s (toDnf t []).flatten then 0 else -1, saveConstraint σ s root true)

/-- The states that the calls of the parser leave; no scan meets a read outside the
inputs. -/
inductive History (σ : Setting) : State → Prop where
  | restart : History σ (restart σ.parser)
  | memcmp {s : State} (before : History σ s) (label : Nat) (content : Nat → BitVec 8) :
      History σ (recordMemcmp s label content)
  | scan {s : State} (before : History σ s) (l : Nat) (inside : Inside σ.parser l) :
      History σ (scanNext σ.parser (l + 1 - s.caches.astSize.length) s).2
  | cond {s : State} (before : History σ s) (l : Nat) (result addNested : Bool)
      (inside : Inside σ.parser l) : History σ (parseCond σ s l result addNested).2.2
  | save {s : State} (before : History σ s) (root : AstNode) (result : Bool) :
      History σ (saveConstraint σ s root result)
  | add {s : State} (before : History σ s) (l result : Nat) (inside : Inside σ.parser l) :
      History σ (addConstraints σ s l result).2

section Histories

variable {σ : Setting} {s s' : State} {l : Nat}

/-- The caches and the sets of bytes belong to the table. -/
def Sound (σ : Setting) (s : State) : Prop := Belongs σ.parser s.caches ∧ Bits σ.parser s

lemma Sound.same (sound : Sound σ s) (caches : s'.caches = s.caches)
    (bits : s'.branchToInputs = s.branchToInputs) : Sound σ s' := by
  obtain ⟨belongs, aligned, entry⟩ := sound
  refine ⟨caches ▸ belongs, by rw [bits, caches]; exact aligned, fun k lt small => ?_⟩
  rw [State.inputs, bits]
  exact entry k (caches ▸ lt) small

lemma sound_steps (σ : Setting) : TaskSteps σ fun s s' => Sound σ s → Sound σ s' := by
  refine ⟨fun _ sound => sound, fun first second sound => second (first sound), ?_, ?_⟩
  · intro s l sound
    exact sound.same (atomConstraint_follows σ s l).caches (atomConstraint_frame σ s l).1
  · rintro s l ⟨belongs, bits⟩
    refine ⟨?_, useInputs_bits bits belongs l⟩
    rw [(useInputs_follows σ s l).caches]
    exact belongs

lemma sound_files (s : State) (uf : DataFlowSets.UnionFind) (buckets : Nat → List AstNode)
    (sound : Sound σ s) : Sound σ { s with dataFlow := uf, buckets := buckets } :=
  sound.same rfl rfl

lemma Sound.scan (sound : Sound σ s) (inside : Inside σ.parser l) :
    Sound σ (scanNext σ.parser (l + 1 - s.caches.astSize.length) s).2 := by
  have positions := inside.upTo s.caches.astSize.length
  exact ⟨(scanNext_scans sound.1 positions rfl).1.belongs,
    scanNext_bits sound.2 sound.1 positions rfl⟩

lemma Sound.add (sound : Sound σ s) (inside : Inside σ.parser l) (result : Nat) :
    Sound σ (addConstraints σ s l result).2 := by
  have scanned := sound.scan inside
  have saved := fun roots root => (sound_steps σ).saveConstraint sound_files
    { (scanNext σ.parser (l + 1 - s.caches.astSize.length) s).2 with rootExprs := roots } root true
    (scanned.same rfl rfl)
  simp only [addConstraints]
  generalize scanNext σ.parser (l + 1 - s.caches.astSize.length) s = out at scanned saved ⊢
  obtain ⟨ok, _⟩ := out
  cases ok
  all_goals dsimp only
  all_goals repeat' split
  all_goals first | exact sound | exact scanned | exact scanned.same rfl rfl | exact saved _ _

lemma History.sound (zero : (σ.parser.info 0).op = .input) (history : History σ s) :
    Sound σ s := by
  induction history with
  | restart => exact ⟨⟨noCaches_inStep _, noCaches_sized _⟩, rfl, nofun⟩
  | memcmp before label content ih => exact ih.same rfl rfl
  | scan before l inside ih => exact ih.scan inside
  | cond before l result addNested inside ih =>
    obtain ⟨belongs, bits, -⟩ := getRootExpr_bits ih.2 zero ih.1 inside rfl
    exact (sound_steps σ).parseCond sound_files result addNested rfl ⟨belongs, bits⟩
  | save before root result ih =>
    exact (sound_steps σ).saveConstraint sound_files _ root result ih
  | add before l result inside ih => exact ih.add inside result

end Histories

/-! ## Sets of bytes -/

/-- A label reads an input byte itself. -/
def Reads (p : Parser) (k b : Nat) : Prop :=
  let r := p.info k
  let first := p.info r.l1
  (r.op = .input ∧ b = inputToDepIdx p (r.op2 % 2 ^ 32) (r.op1 % 2 ^ 32)) ∨
    r.op = .load ∧ inputToDepIdx p (first.op2 % 2 ^ 32) (first.op1 % 2 ^ 32) ≤ b ∧
      b < inputToDepIdx p (first.op2 % 2 ^ 32) (first.op1 % 2 ^ 32) + r.l2

lemma labelInputs_iff {p : Parser} {l b : Nat} (legible : Legible p.info l) :
    labelInputs p l b = true ↔ ∃ k, InDag p.info l k ∧ Reads p k b := by
  refine legible.accumulates (P := fun k => labelInputs p k b = true) (Q := fun k => Reads p k b) ?_
  rintro k ⟨ne, ordered, raw, load⟩
  have read : ∀ k ≠ 0, (p.info k).op = .input ∨ (p.info k).op = .load →
      (labelInputs p k b = true ↔ Reads p k b) := by
    rintro k ne (op | op)
    all_goals simp [labelInputs, value_eq, inputsOf, Reads, ne, op]
  by_cases isInput : (p.info k).op = .input
  · simp [read k ne (.inl isInput), raw isInput]
  by_cases isLoad : (p.info k).op = .load
  · obtain ⟨isRaw, _⟩ := load isLoad
    rw [read k ne (.inr isLoad)]
    refine ⟨.inl, ?_⟩
    rintro (own | ⟨symbolic, has⟩ | ⟨-, notLoad, -⟩)
    · exact own
    · have own := (read _ symbolic (.inl isRaw)).mp has
      simp only [Reads, isRaw, isLoad, reduceCtorEq, false_and, or_false, true_and] at own ⊢
      omega
    · exact absurd isLoad notLoad
  · have lt1 := ordered.1
    have lt2 := ordered.2 isLoad
    rw [labelInputs, value_eq]
    simp only [inputsOf, if_neg ne]
    simp [Reads, isInput, isLoad, lt1, lt2]

/-- As long as no operand is over the limit, the set of a label is what its DAG reads,
whatever has been parsed, saved or added since. -/
theorem dependencies_stable (σ : Setting) (zero : (σ.parser.info 0).op = .input) (s : State)
    (history : History σ s) (l : Nat) (scanned : l < s.caches.astSize.length)
    (small : Small σ.parser l) (legible : Legible σ.parser.info l) (b : Nat) :
    s.inputs l b = true ↔ ∃ k, InDag σ.parser.info l k ∧ Reads σ.parser k b := by
  rw [(history.sound zero).2.entry l scanned small]
  exact labelInputs_iff legible

theorem dependencies_stable_disjunction : let σ := plainSetting doubled
    let s := (parseCond σ (restart σ.parser) 3 true true).2.2
    s.inputs 3 0 = true ∧ ∃ k, InDag doubled 3 k ∧ Reads σ.parser k 0 := by
  intro σ s
  have history : History σ s := .cond .restart 3 true true (doubled_inside (by omega))
  have small : Small σ.parser 3 := dag_of_range (n := 3) (by decide) (by decide)
  have iff := dependencies_stable σ rfl s history 3 (by decide) small (doubled_legible (by omega)) 0
  exact ⟨by decide, iff.mp (by decide)⟩

/-- Parsing a comparison whose left operand is over the limit takes its byte out of the
recorded set. -/
theorem concretized_operand_leaves_set :
    let p : Parser := ⟨(TableGrowth.tableOf [⟨0, 0, 0, 0, .input, 8, 0⟩,
      ⟨0, 0, 1, 0, .input, 8, 0⟩, ⟨1, 1, 0, 0, .add, 8, 0⟩, ⟨3, 1, 0, 0, .add, 8, 0⟩,
      ⟨4, 2, 0, 0, .icmp .bvult, 8, 0⟩] 1000).info, 1000, 3, 33, [4]⟩
    let σ : Setting := { nestedSetting p.info with parser := p }
    (scanNext p 6 (restart p)).2.inputs 5 0 = true ∧
      (parseCond σ (restart p) 5 true false).2.2.inputs 5 0 = false := by
  decide +kernel

/-- An equality that contains no other comparison. -/
structure OffsetEquality (p : Parser) (l : Nat) : Prop where
  valid : 1 ≤ l ∧ l ≠ kInitializingLabel ∧ l < p.size
  op : (p.info l).op = .icmp .bveq
  legible : Legible p.info l
  alone : ∀ k, InDag p.info l k → k ≠ l → isCmp (p.info k).op = false

lemma OffsetEquality.comparisons {p : Parser} {l : Nat} (offset : OffsetEquality p l) :
    comparisons p.info l = 1 := by
  obtain ⟨ne, ordered, -⟩ := offset.legible l .self
  have op := offset.op
  have notLoad : (p.info l).op ≠ .load := by simp [op]
  have none : ∀ x < l, (∀ k, InDag p.info x k → InDag p.info l k) →
      LabelCaches.comparisons p.info x = 0 := by
    intro x before below
    have legible : Legible p.info x := fun k reach => offset.legible k (below k reach)
    by_contra some
    obtain ⟨k, reach, isCmp⟩ := (comparisons_iff legible).mp some
    have le := inDag_le (fun k reach => (legible k reach).2.1) reach
    rw [offset.alone k (below k reach) (by omega)] at isCmp
    cases isCmp
  have left : (p.info l).l1 ≠ 0 → LabelCaches.comparisons p.info (p.info l).l1 = 0 :=
    fun symbolic => none _ ordered.1 fun k => .first symbolic
  have right : (p.info l).l2 ≠ 0 → LabelCaches.comparisons p.info (p.info l).l2 = 0 :=
    fun symbolic => none _ (ordered.2 notLoad) fun k => .second symbolic notLoad
  rw [LabelCaches.comparisons] at left right ⊢
  rw [value_eq, countStep]
  simp +contextual [ne, op, ordered.1, ordered.2 notLoad, left, right, isCmp, isIcmp]

/-- An equality that has no root expression yet is refused, since it counts as a comparison
itself; nothing is recorded in either case. -/
lemma OffsetEquality.refused {σ : Setting} {s : State} {l : Nat} (nested : σ.solveNested = true)
    (sound : Sound σ s) (offset : OffsetEquality σ.parser l) (inside : Inside σ.parser l) :
    (addConstraints σ s l 1).1 = (if (s.rootExprs l).isSome then 0 else -1) ∧
      (addConstraints σ s l 1).2.buckets = s.buckets ∧
      (addConstraints σ s l 1).2.dataFlow = s.dataFlow := by
  obtain ⟨_, real, valid⟩ := offset.valid
  obtain ⟨dataFlow, buckets⟩ := scanNext_buckets σ.parser (l + 1 - s.caches.astSize.length) s
  obtain ⟨scans, long⟩ := scanNext_scans (k := l + 1 - s.caches.astSize.length) sound.1
    (fun j low high ne => inside j (by omega) (by omega)) rfl
  have real : ¬(l < 1 ∨ l = kInitializingLabel ∨ σ.parser.size ≤ l) := by omega
  simp only [addConstraints, nested, if_neg real, ne_eq, not_true_eq_false, if_false,
    Bool.true_eq_false]
  split
  · exact ⟨rfl, rfl, rfl⟩
  generalize scanNext σ.parser (l + 1 - s.caches.astSize.length) s = out
    at dataFlow buckets scans long ⊢
  obtain ⟨ok, _⟩ := out
  cases ok with
  | false => exact ⟨rfl, buckets, dataFlow⟩
  | true =>
    have aligned := scans.belongs.inStep.aligned
    have grown := long rfl
    have entry := scans.belongs.inStep.scanned l (by dsimp only at aligned grown ⊢; omega)
    rw [nestedCmp_eq, offset.comparisons] at entry
    dsimp only at entry ⊢
    rw [if_pos (by omega)]
    exact ⟨rfl, buckets, dataFlow⟩

/-- The clause that `parse_cond` makes the nested task of, for a clause of the branch `b`. -/
def nestedClause (σ : Setting) (s : State) (b : Nat) (clause : List AstNode) : List AstNode :=
  (collectVars σ (getRootExpr σ.parser s b).2 ⟨clause, clause.map (·.data.label), false⟩
    clause).1.clause

/-- The nested task of the clause has the equality `l`. -/
def Receives (σ : Setting) (s : State) (b : Nat) (clause : List AstNode) (l : Nat) : Prop :=
  ∃ node ∈ nestedClause σ s b clause, node.data.label = l ∧ node.kind = .equal

/-- The comparisons of the clause are scanned with the branch and have no operand over the limit. -/
def Scanned (σ : Setting) (s : State) (b : Nat) (clause : List AstNode) : Prop :=
  ∀ var ∈ clause, Small σ.parser var.data.label ∧
    var.data.label < (getRootExpr σ.parser s b).2.caches.astSize.length

/-- What is collected depends on the bytes of the clause, the sets and the buckets. -/
lemma collectVars_congr {σ : Setting} {s t : State} (left : Sound σ s) (right : Sound σ t)
    (dataFlow : t.dataFlow = s.dataFlow) (buckets : t.buckets = s.buckets)
    {clause : List AstNode} (known : ∀ var ∈ clause, Small σ.parser var.data.label ∧
      var.data.label < s.caches.astSize.length ∧ var.data.label < t.caches.astSize.length)
    (n : Nested) : (collectVars σ t n clause).1 = (collectVars σ s n clause).1 := by
  induction clause generalizing n with
  | nil => rfl
  | cons var clause ih =>
    obtain ⟨small, inS, inT⟩ := known var List.mem_cons_self
    have unmarked := fun (u : State) (sound : Sound σ u) => sound.1.sized.unmarked _ (.inr small)
    have same : ∀ u, Sound σ u → useInputs σ u var.data.label = u := by
      intro u sound
      simp [useInputs, unmarked u sound]
    have bytes : bytesOf σ t var.data.label = bytesOf σ s var.data.label :=
      (bytesOf_small right.2 inT small).trans (bytesOf_small left.2 inS small).symm
    have after : ∀ u n, Sound σ u → (collectVar σ u n var).2 = u := fun u n sound =>
      (collectVar_snd σ u n var).trans (same u sound)
    have first : (collectVar σ t n var).1 = (collectVar σ s n var).1 := by
      simp only [collectVar, same s left, same t right, bytes, dataFlow, buckets]
      split
      · rfl
      · rfl
    simp only [collectVars, after s n left, after t n right, first]
    exact ih (fun v mem => known v (List.mem_cons_of_mem var mem)) _

/-- A byte, its equality with 5, and another comparison of it. -/
def offsetOfByte : Nat → LabelInfo := (TableGrowth.tableOf [⟨0, 0, 0, 0, .input, 8, 0⟩,
  ⟨0, 1, 5, 0, .icmp .bveq, 8, 0⟩, ⟨1, 0, 0, 9, .icmp .bvult, 8, 0⟩] 1000).info

/-- A byte, the comparison of it with the contents of a buffer, and the result's with 0. -/
def comparedBuffer : Nat → LabelInfo := (TableGrowth.tableOf [⟨0, 0, 0, 0, .input, 8, 0⟩,
  ⟨0, 1, 0, 0, .fmemcmp, 1, 0⟩, ⟨2, 0, 0, 0, .icmp .bveq, 32, 0⟩] 1000).info

end LabelCaches
