import SymSan.DrawnTrees

/-!
# The order of first use

`map_arg` hands out the arguments of a constraint byte by byte and constant by constant while
`do_uta_rel` draws the expression. The numbers are those of the order in which the expression,
read from left to right with nothing shared, first uses a byte or a constant operand.
-/

namespace FirstUses

open LabelTable TypedLabels RgdAst OrderedMaps JigsawTask UtaRel DrawnTrees TaskLayout

/-- What an argument stands for: the byte at an offset, or the constant operand of a label on
one side. -/
inductive Use where
  | byte (offset : Nat)
  | constant (label side : Nat)
  deriving DecidableEq, Repr

section Uses

variable (info : Nat → LabelInfo) (mark : Nat → Nat)

def operandUses (below : Nat → List Use) (l side : Nat) : Operand → List Use
  | .label k => below k
  | .constant _ _ => [.constant l side]

/-- The uses of a label in the order of its expression, left operand first. -/
def usesFrom : Nat → Nat → List Use
  | 0, _ => []
  | fuel + 1, l =>
    if (info l).op = .input ∨ (info l).op = .load then
      (List.range (readOf info l).2.2).map fun i => .byte ((readOf info l).2.1 + i)
    else
      operandUses (usesFrom fuel) l 1 (first info mark l) ++
        if isUnary (info l).op then [] else operandUses (usesFrom fuel) l 2 (second info mark l)

def uses (l : Nat) : List Use := usesFrom info mark (l + 1) l

/-- A use that has been before does not count again. -/
def addUse (seen : List Use) (u : Use) : List Use := if u ∈ seen then seen else seen ++ [u]

def firstUses (l : Nat) : List Use := (uses info mark l).foldl addUse []

end Uses

section Lists

variable {seen us : List Use} {u : Use}

lemma mem_foldl_addUse : u ∈ us.foldl addUse seen ↔ u ∈ seen ∨ u ∈ us := by
  induction us generalizing seen with
  | nil => simp
  | cons v rest ih =>
    have step : u ∈ addUse seen v ↔ u ∈ seen ∨ u = v := by
      rw [addUse]
      split
      next old =>
        exact ⟨.inl, fun new => new.elim id fun same => same ▸ old⟩
      · rw [List.mem_append, List.mem_singleton]
    rw [List.foldl_cons, ih, step, List.mem_cons, or_assoc]

lemma foldl_addUse_of_mem (old : ∀ v ∈ us, v ∈ seen) : us.foldl addUse seen = seen := by
  induction us with
  | nil => rfl
  | cons v rest ih =>
    obtain ⟨here, later⟩ := List.forall_mem_cons.mp old
    rw [List.foldl_cons, addUse, if_pos here]
    exact ih later

end Lists

/-! ## The expression of a label -/

section Expression

variable {info : Nat → LabelInfo} {mark : Nat → Nat} {l : Nat}

lemma operandOf_label {r : LabelInfo} {m side label const other k : Nat}
    (same : operandOf info r m side label const other = .label k) : label ≠ 0 ∧ k = label := by
  rw [operandOf] at same
  split at same
  next symbolic =>
    cases same
    exact ⟨symbolic.2, rfl⟩
  · cases same

lemma operandUses_congr {below below' : Nat → List Use} {side : Nat} {o : Operand}
    (same : ∀ k, o = .label k → below k = below' k) :
    operandUses below l side o = operandUses below' l side o := by
  cases o with
  | label k => exact same k rfl
  | constant => rfl

lemma usesFrom_fuel {n m : Nat} (wt : WellTyped info l) (enough : l < n) (enough' : l < m) :
    usesFrom info mark n l = usesFrom info mark m l := by
  induction n generalizing l m with
  | zero => cases enough
  | succ n ih =>
    obtain ⟨m, rfl⟩ : ∃ less, m = less + 1 := Nat.exists_eq_succ_of_ne_zero (by omega)
    simp only [usesFrom]
    by_cases read : (info l).op = .input ∨ (info l).op = .load
    · rw [if_pos read, if_pos read]
    have notLoad : (info l).op ≠ .load := fun load => read (.inr load)
    obtain ⟨before1, before2⟩ := wt.root.2.1
    have before2 := before2 notLoad
    rw [if_neg read, if_neg read]
    congr 1
    · refine operandUses_congr fun k same => ?_
      obtain ⟨ne, rfl⟩ := operandOf_label same
      exact ih (wt.first ne) (by omega) (by omega)
    · congr 1
      refine operandUses_congr fun k same => ?_
      obtain ⟨ne, rfl⟩ := operandOf_label same
      exact ih (wt.second ne notLoad) (by omega) (by omega)

lemma uses_read (read : (info l).op = .input ∨ (info l).op = .load) :
    uses info mark l =
      (List.range (readOf info l).2.2).map fun i => .byte ((readOf info l).2.1 + i) := if_pos read

lemma uses_operator (wt : WellTyped info l) (notInput : (info l).op ≠ .input)
    (notLoad : (info l).op ≠ .load) :
    uses info mark l = operandUses (uses info mark) l 1 (first info mark l) ++
      if isUnary (info l).op then [] else
        operandUses (uses info mark) l 2 (second info mark l) := by
  obtain ⟨before1, before2⟩ := wt.root.2.1
  have before2 := before2 notLoad
  rw [uses, usesFrom, if_neg (not_or.mpr ⟨notInput, notLoad⟩)]
  congr 1
  · refine operandUses_congr fun k same => ?_
    obtain ⟨ne, rfl⟩ := operandOf_label same
    exact usesFrom_fuel (wt.first ne) (by omega) (Nat.lt_succ_self _)
  · congr 1
    refine operandUses_congr fun k same => ?_
    obtain ⟨ne, rfl⟩ := operandOf_label same
    exact usesFrom_fuel (wt.second ne notLoad) (by omega) (Nat.lt_succ_self _)

end Expression

/-! ## Arguments -/

/-- The arguments are numbered by the uses so far. -/
structure Numbers (seen : List Use) (a : ArgMap) : Prop where
  length : a.inputArgs.length = seen.length
  byte : ∀ x i, a.localMap.find x = some i ↔ seen[i]? = some (.byte x)

section Arguments

variable {seen : List Use} {a : ArgMap}

lemma getElem?_concat_iff {u v : Use} {i : Nat} :
    (seen ++ [u])[i]? = some v ↔ seen[i]? = some v ∨ (i = seen.length ∧ u = v) := by
  rcases Nat.lt_trichotomy i seen.length with lt | rfl | gt
  · rw [List.getElem?_append_left lt]
    exact ⟨.inl, fun both => both.resolve_right fun last => by omega⟩
  · rw [List.getElem?_concat_length, List.getElem?_eq_none (Nat.le_refl _)]
    simp
  · rw [List.getElem?_eq_none (by simp; omega), List.getElem?_eq_none (by omega)]
    simp [Nat.ne_of_gt gt]

lemma Numbers.addInput (numbers : Numbers seen a) (x v : Nat) :
    Numbers (addUse seen (.byte x)) (a.addInput x v) := by
  simp only [ArgMap.addInput, addUse]
  cases found : a.localMap.find x with
  | some i =>
    rw [if_pos (List.mem_of_getElem? ((numbers.byte x i).mp found))]
    exact numbers
  | none =>
    have new : Use.byte x ∉ seen := by
      intro old
      obtain ⟨i, there⟩ := List.mem_iff_getElem?.mp old
      rw [(numbers.byte x i).mpr there] at found
      cases found
    rw [if_neg new]
    refine ⟨by simp [numbers.length], fun y i => ?_⟩
    rw [OrderedMap.find_insert, getElem?_concat_iff, ← numbers.byte, numbers.length]
    by_cases same : y = x
    · rw [if_pos same, same, found]
      simp [eq_comm]
    · have other : Use.byte x ≠ .byte y := fun equal => same (Use.byte.inj equal).symm
      rw [if_neg same]
      simp [other]

lemma Numbers.read (numbers : Numbers seen a) (buf : Nat → BitVec 8) (offset length : Nat) :
    Numbers (((List.range length).map fun i => Use.byte (offset + i)).foldl addUse seen)
      (mapArg buf offset length a) := by
  have rounds : ∀ j, Numbers (((List.range j).map fun i => Use.byte (offset + i)).foldl addUse seen)
      (mapUpTo buf offset length a j) := by
    intro j
    induction j with
    | zero => exact numbers
    | succ j ih =>
      rw [mapUpTo_succ, List.range_succ, List.map_append, List.foldl_append]
      have step := ih.addInput (offset + j) (buf (offset + j)).toNat
      exact ⟨step.length, step.byte⟩
  exact rounds length

lemma Numbers.const (numbers : Numbers seen a) {l side : Nat} (new : Use.constant l side ∉ seen)
    (value : Nat) : Numbers (addUse seen (.constant l side)) (a.pushConst value) := by
  rw [addUse, if_neg new]
  refine ⟨by simp [ArgMap.pushConst, numbers.length], fun x i => ?_⟩
  rw [getElem?_concat_iff, ← numbers.byte]
  simp [ArgMap.pushConst]

end Arguments

/-! ## Drawing -/

section Drawing

variable {ctx : Context} {capacity fuel bound k l side : Nat} {t : AstNode} {s s' : Draft}
  {seen : List Use}

lemma mem_operandUses {below : Nat → List Use} {u : Use} {o : Operand}
    (used : u ∈ operandUses below l side o) :
    (∃ k, o = .label k ∧ u ∈ below k) ∨ u = .constant l side := by
  cases o with
  | label k => exact .inl ⟨k, rfl, used⟩
  | constant => exact .inr (List.mem_singleton.mp used)

/-- Constant operands belong to the labels of the expression. -/
lemma constant_le {info : Nat → LabelInfo} {mark : Nat → Nat} (wt : WellTyped info l)
    (used : .constant k side ∈ uses info mark l) : k ≤ l := by
  induction l using Nat.strong_induction_on with
  | _ l ih =>
    by_cases read : (info l).op = .input ∨ (info l).op = .load
    · rw [uses_read read] at used
      obtain ⟨_, -, ⟨⟩⟩ := List.mem_map.mp used
    obtain ⟨notInput, notLoad⟩ := not_or.mp read
    obtain ⟨before1, before2⟩ := wt.root.2.1
    have before2 := before2 notLoad
    rw [uses_operator wt notInput notLoad] at used
    rcases List.mem_append.mp used with used | used
    · obtain ⟨_, same, inside⟩ | ⟨⟨⟩⟩ := mem_operandUses used
      · obtain ⟨ne, rfl⟩ := operandOf_label same
        have := ih _ (by omega) (wt.first ne) inside
        omega
      · exact Nat.le_refl _
    · split at used
      · cases used
      obtain ⟨_, same, inside⟩ | ⟨⟨⟩⟩ := mem_operandUses used
      · obtain ⟨ne, rfl⟩ := operandOf_label same
        have := ih _ (by omega) (wt.second ne notLoad) inside
        omega
      · exact Nat.le_refl _

/-- The state of the drawing: a visited label has been used as a whole, and a constant belongs
to a visited label or to one that is being drawn, which is not below the bound. -/
structure Counted (ctx : Context) (bound : Nat) (seen : List Use) (s : Draft) : Prop where
  numbers : Numbers seen s.args
  used : ∀ k, k ∈ s.visited → ∀ u, u ∈ uses ctx.parser.info ctx.concretize k → u ∈ seen
  constant : ∀ k side, .constant k side ∈ seen → k ∈ s.visited ∨ bound ≤ k

lemma operandNode_counted {draw : Nat → Draft → Option (AstNode × Draft)} {r : LabelInfo}
    {kind : AstKind} {mark label const other : Nat}
    (drawn : label ≠ 0 → ∀ s t s', draw label s = some (t, s') → Counted ctx l seen s →
      Counted ctx l ((uses ctx.parser.info ctx.concretize label).foldl addUse seen)
        (s'.visit label) ∧ ∀ k ∈ s.visited, k ∈ s'.visited)
    (counted : Counted ctx l seen s) (new : Use.constant l side ∉ seen)
    (h : operandNode ctx capacity draw r kind mark side label const other s = some (t, s')) :
    Counted ctx l ((operandUses (uses ctx.parser.info ctx.concretize) l side
      (operandOf ctx.parser.info r mark side label const other)).foldl addUse seen) s' ∧
        ∀ k ∈ s.visited, k ∈ s'.visited := by
  obtain ⟨-, ⟨symbolic, s2, rfl, made⟩ | ⟨constant, rfl, -⟩⟩ := operandNode_cases h
  · rw [operandOf, if_pos symbolic]
    obtain ⟨after, grows⟩ := drawn symbolic.2 _ t s2 made
      ⟨counted.numbers, counted.used, counted.constant⟩
    exact ⟨after, fun k old => List.mem_cons_of_mem _ (grows k old)⟩
  · rw [operandOf, if_neg constant]
    refine ⟨⟨counted.numbers.const new const, fun k inside u used => ?_, fun k side' used => ?_⟩,
      fun k old => old⟩
    · exact mem_foldl_addUse.mpr (.inl (counted.used k inside u used))
    · rcases mem_foldl_addUse.mp used with old | here
      · exact counted.constant k side' old
      · cases List.mem_singleton.mp here
        exact .inr (Nat.le_refl l)

/-- What is left to say of a label when its operands have been drawn. -/
lemma Counted.visit {us : List Use} (before : Counted ctx bound seen s)
    (same : us = uses ctx.parser.info ctx.concretize l) (wt : WellTyped ctx.parser.info l)
    (after : Counted ctx l (us.foldl addUse seen) s') (grows : ∀ k ∈ s.visited, k ∈ s'.visited) :
    Counted ctx bound (us.foldl addUse seen) (s'.visit l) := by
  refine ⟨after.numbers, List.forall_mem_cons.mpr ⟨fun u used => ?_, after.used⟩,
    fun k side used => ?_⟩
  · exact mem_foldl_addUse.mpr (.inr (same ▸ used))
  · rcases mem_foldl_addUse.mp used with old | new
    · exact (before.constant k side old).imp_left
        fun known => List.mem_cons_of_mem _ (grows k known)
    rw [same] at new
    have le := constant_le wt new
    rcases after.constant k side used with known | ge
    · exact .inl (List.mem_cons_of_mem _ known)
    · rw [Nat.le_antisymm le ge]
      exact .inl List.mem_cons_self

lemma doUtaRel_counted (wt : WellTyped ctx.parser.info l) (below : l < bound)
    (counted : Counted ctx bound seen s) (h : doUtaRel ctx capacity fuel l s = some (t, s')) :
    Counted ctx bound ((uses ctx.parser.info ctx.concretize l).foldl addUse seen) (s'.visit l) ∧
      ∀ k ∈ s.visited, k ∈ s'.visited := by
  induction fuel generalizing l bound seen s s' t with
  | zero => cases h
  | succ fuel ih =>
    have inner : Counted ctx l seen s := ⟨counted.numbers, counted.used, fun k side used =>
      (counted.constant k side used).imp_right fun ge => by omega⟩
    rcases doUtaRel_cases wt h with ⟨known, -, rfl⟩ | ⟨-, read, made⟩ | ⟨fresh, notLoad, made⟩
    · rw [foldl_addUse_of_mem (counted.used l known)]
      refine ⟨⟨counted.numbers, List.forall_mem_cons.mpr ⟨counted.used l known, counted.used⟩,
        fun k side used => ?_⟩, fun k old => old⟩
      exact (counted.constant k side used).imp_left (List.mem_cons_of_mem _)
    · cases made
      refine ⟨counted.visit rfl wt ⟨?_, fun k inside u used => ?_, fun k side used => ?_⟩
        fun k old => old, fun k old => old⟩
      · rw [uses_read read]
        exact counted.numbers.read _ _ _
      · exact mem_foldl_addUse.mpr (.inl (counted.used k inside u used))
      · rw [uses_read read] at used
        rcases mem_foldl_addUse.mp used with old | new
        · exact inner.constant k side old
        · obtain ⟨_, -, ⟨⟩⟩ := List.mem_map.mp new
    · obtain ⟨_, _, _, mapped, made1, both⟩ := operatorNode_cases made
      have notInput : (ctx.parser.info l).op ≠ .input := by
        intro input
        rw [input] at mapped
        cases mapped
      obtain ⟨before1, before2⟩ := wt.root.2.1
      have before2 := before2 notLoad
      have absent : ∀ side, Use.constant l side ∉ seen := by
        intro side used
        rcases counted.constant l side used with known | ge
        · exact fresh known
        · omega
      have expression := @uses_operator _ ctx.concretize l wt notInput notLoad
      obtain ⟨after1, grows1⟩ := operandNode_counted (fun ne s t s' made inner =>
        ih (wt.first ne) (by omega) inner made) inner (absent 1) made1
      rcases both with ⟨unary, rfl, -⟩ | ⟨binary, _, made2, -⟩
      · rw [if_pos unary, List.append_nil] at expression
        rw [expression]
        exact ⟨counted.visit expression.symm wt after1 grows1, grows1⟩
      have absent2 : Use.constant l 2 ∉ (operandUses (uses ctx.parser.info ctx.concretize) l 1
          (first ctx.parser.info ctx.concretize l)).foldl addUse seen := by
        intro used
        rcases mem_foldl_addUse.mp used with old | new
        · exact absent 2 old
        obtain ⟨_, same, inside⟩ | ⟨⟨⟩⟩ := mem_operandUses new
        obtain ⟨ne, rfl⟩ := operandOf_label same
        have := constant_le (wt.first ne) inside
        omega
      obtain ⟨after2, grows2⟩ := operandNode_counted (fun ne s t s' made inner =>
        ih (wt.second ne notLoad) (by omega) inner made) after1 absent2 made2
      rw [if_neg (by simp [binary])] at expression
      have grows : ∀ k ∈ s.visited, k ∈ s'.visited := fun k old => grows2 k (grows1 k old)
      rw [expression]
      refine ⟨counted.visit expression.symm wt ?_ grows, grows⟩
      rw [List.foldl_append]
      exact after2

end Drawing

/-- The arguments of a constraint are numbered in the order of first use. -/
lemma parseConstraint_numbers {ctx : Context} {astSize : List Nat} {fuel l : Nat} {c : Constraint}
    (wt : WellTyped ctx.parser.info l) (h : parseConstraint ctx astSize fuel l = some c) :
    Numbers (firstUses ctx.parser.info ctx.concretize l) c.args := by
  obtain ⟨-, _, s, -, made, args⟩ := parseConstraint_some h
  have start : Counted ctx (l + 1) [] ⟨.empty, [], 1⟩ := by
    refine ⟨⟨rfl, fun x i => ?_⟩, ?_, ?_⟩
    · constructor <;> rintro ⟨⟩
    · rintro k ⟨⟩
    · rintro k side ⟨⟩
  have numbers := (doUtaRel_counted wt (Nat.lt_succ_self l) start made).1.numbers
  exact args ▸ numbers

end FirstUses
