import SymSan.Z3Errors

/-!
# Branches and the labels beside them

A branch needs the expressions of the labels below it. `serialize` translates all
labels of the table up to the branch in order, so a label that no branch uses
stands in the way of every later one if its translation throws. `labelExpr` is the
translation of a label over its own sub-DAG; it says what the caches hold and what a
branch would be if nothing else were in the table.
-/

namespace Z3Unrelated

open LabelTable TypedLabels BitTerms Z3Parser Z3Caches Z3Branches Z3Nested Z3Sorts Z3Errors

abbrev Contents := Nat → Option (Nat → BitVec 8)

/-- What an operand is looked up as. -/
def entryExpr : Option (Option (Expr Name)) × Deps → Option (Expr Name × Deps)
  | (some (some e), ds) => some (e, ds)
  | _ => none

variable (p : Parser) (contents : Contents)

/-- The translation of a label over the labels below it; label 0 is cached as null. -/
def labelExpr : Nat → Option (Option (Expr Name)) × Deps :=
  ScanTables.value (fun l earlier =>
    if l = 0 then (some none, ∅)
    else translate p (fun k => entryExpr (earlier k)) (contents l) l ∅) (none, ∅)

lemma labelExpr_zero : labelExpr p contents 0 = (some none, ∅) := by
  rfl

/-- The labels before `l` as the translation of `l` finds them. -/
def before (l : Nat) : Lookup := fun k =>
  if k < l then entryExpr (labelExpr p contents k) else none

lemma labelExpr_eq {l : Nat} (ne : l ≠ 0) :
    labelExpr p contents l = translate p (before p contents l) (contents l) l ∅ := by
  rw [labelExpr, ScanTables.value_eq, if_neg ne]
  congr 1
  funext k
  simp only [before]
  split
  · rfl
  · rfl

lemma labelExpr_sort (l : Nat) :
    labelSort p (fun k => (contents k).isSome) l =
      ((labelExpr p contents l).1.map (Option.map (·.sort)), (labelExpr p contents l).2) := by
  induction l using Nat.strong_induction_on with
  | _ l ih =>
    by_cases zero : l = 0
    · subst zero
      rfl
    have look : (fun k => if k < l then
        entrySort (labelSort p (fun k => (contents k).isSome) k) else none) =
        sortsOf (before p contents l) := by
      funext k
      simp only [sortsOf, before]
      split
      next below =>
        rw [ih k below]
        generalize labelExpr p contents k = entry
        obtain ⟨made, _⟩ := entry
        rcases made with _ | _ | e <;> rfl
      · rfl
    rw [labelSort_eq p _ zero, look, labelExpr_eq p contents zero]
    exact translate_maps p (before p contents l) (contents l) l ∅

/-! ## A label depends on its own sub-DAG -/

section Congruence

variable {p p' : Parser} {look look' : Lookup} {contents contents' : Contents} {l : Nat}
  {r : LabelInfo}

lemma operand_congr (simplify : p'.simplify = p.simplify) {label const size : Nat}
    (same : look' label = look label) :
    Z3Parser.operand p' look' r label const size = Z3Parser.operand p look r label const size := by
  simp only [Z3Parser.operand, getCachedExpr, same, simplify]

lemma constSize_congr (size : p'.size = p.size) {label other n : Nat}
    (same : p'.info other = p.info other) :
    constSize p' r label other n = constSize p r label other n := by
  simp only [constSize, Parser.getLabelInfo, size, same]

lemma lift_bind_congr {α β : Type} {x : Option α} {f g : α → Build β}
    (same : ∀ a, x = some a → f a = g a) : (Build.lift x >>= f) = (Build.lift x >>= g) := by
  cases x with
  | none => rfl
  | some a =>
    exact same a rfl

variable (size : p'.size = p.size) (simplify : p'.simplify = p.simplify)

include size simplify

/-- The translation of a label reads its record, those of its operands, and what is
cached for the operands. -/
lemma translate_congr (own : p'.info l = p.info l)
    (first : p'.info (p.info l).l1 = p.info (p.info l).l1)
    (second : (p.info l).op ≠ .load → p'.info (p.info l).l2 = p.info (p.info l).l2 ∧
      p'.info (p.info (p.info l).l2).l1 = p.info (p.info (p.info l).l2).l1)
    (look1 : look' (p.info l).l1 = look (p.info l).l1)
    (look2 : (p.info l).op ≠ .load → look' (p.info l).l2 = look (p.info l).l2)
    (content : Option (Nat → BitVec 8)) :
    translate p' look' content l = translate p look content l := by
  have records : ∀ k, p'.info k = p.info k → p'.getLabelInfo k = p.getLabelInfo k := by
    intro k same
    simp only [Parser.getLabelInfo, size, same]
  unfold Z3Parser.translate
  rw [records l own]
  refine lift_bind_congr fun r found => ?_
  obtain rfl := Z3Soundness.getLabelInfo_some found
  by_cases load : (p.info l).op = .load
  · simp only [load, records _ first]
  obtain ⟨second, source⟩ := second load
  have look2 := look2 load
  cases op : (p.info l).op with
  | load => exact absurd op load
  | fatoi =>
    simp only [records _ second]
    refine lift_bind_congr fun src found => ?_
    obtain rfl := Z3Soundness.getLabelInfo_some found
    rw [records _ source]
  | _ =>
    simp only [getCachedExpr, look1, look2, operand_congr simplify look1,
      operand_congr simplify look2, constSize_congr size first, constSize_congr size second]

lemma labelExpr_congr (zero : p.info 0 = constInfo) (zero' : p'.info 0 = constInfo)
    (agree : ∀ k, InDag p.info l k → p'.info k = p.info k ∧ contents' k = contents k) :
    labelExpr p' contents' l = labelExpr p contents l := by
  induction l using Nat.strong_induction_on with
  | _ l ih =>
    by_cases null : l = 0
    · rw [null, labelExpr_zero, labelExpr_zero]
    have reads : ∀ k, (k ≠ 0 → ∀ j, InDag p.info k j → InDag p.info l j) →
        p'.info k = p.info k ∧ before p' contents' l k = before p contents l k := by
      intro k down
      by_cases none : k = 0
      · subst none
        refine ⟨zero'.trans zero.symm, ?_⟩
        simp only [before, labelExpr_zero]
      refine ⟨(agree k (down none k .self)).1, ?_⟩
      simp only [before]
      split
      next below =>
        rw [ih k below fun j inside => agree j (down none j inside)]
      · rfl
    have one := reads (p.info l).l1 fun ne j inside => .first ne inside
    rw [labelExpr_eq p' contents' null, labelExpr_eq p contents null, (agree l .self).2]
    refine congrFun (translate_congr size simplify (agree l .self).1 one.1 ?_ one.2 ?_ _) ∅
    · intro notLoad
      have two := reads (p.info l).l2 fun ne j inside => .second ne notLoad inside
      refine ⟨two.1, ?_⟩
      by_cases none : (p.info l).l2 = 0
      · rw [none, zero]
        exact zero'.trans zero.symm
      · exact (reads _ fun ne j inside => .second none notLoad (.first ne inside)).1
    · intro notLoad
      exact (reads (p.info l).l2 fun ne j inside => .second ne notLoad inside).2

end Congruence

/-! ## What the caches hold -/

/-- The expressions and the dependencies of the labels before the first that has not
been translated; sets of dependencies beyond them come from a label that throws. -/
structure Holds (p : Parser) (c : Caches) : Prop where
  null : 0 < c.exprs.length
  entries : ∀ k, k < c.exprs.length →
    labelExpr p c.memcmp k = (some (c.exprs.getD k none), c.deps.getD k ∅)
  counted : c.deps.length = c.exprs.length ∨ c.exprs.length < c.deps.length ∧
    (labelExpr p c.memcmp c.exprs.length).1 = none

section Caches

variable {p : Parser} {c : Caches}

lemma restart_holds (p : Parser) : Holds p Caches.restart := by
  refine ⟨Nat.one_pos, ?_, .inl rfl⟩
  intro k lt
  have zero : k = 0 := by
    simp only [Caches.restart, List.length_singleton] at lt
    omega
  rw [zero]
  rfl

variable (holds : Holds p c)

include holds

lemma Holds.deps_le : c.exprs.length ≤ c.deps.length := by
  rcases holds.counted with same | ⟨longer, _⟩
  · omega
  · omega

lemma Holds.before {n : Nat} (le : n ≤ c.exprs.length) : before p c.memcmp n = seenAt c n := by
  funext k
  simp only [Z3Unrelated.before, seenAt]
  split
  · rw [holds.entries k (by omega), Caches.lookup]
    cases c.exprs.getD k none <;> rfl
  · rfl

lemma Holds.next :
    translate p c.lookup (c.memcmp c.exprs.length) c.exprs.length ∅ =
      labelExpr p c.memcmp c.exprs.length := by
  have pos := holds.null
  rw [labelExpr_eq p c.memcmp (by omega), holds.before (Nat.le_refl _), seenAt_length]

lemma scanStep_holds :
    Holds p (scanStep p c).2 ∧ (scanStep p c).2.memcmp = c.memcmp ∧
      ((scanStep p c).1 = true ∧ (labelExpr p c.memcmp c.exprs.length).1.isSome ∧
          (scanStep p c).2.exprs.length = c.exprs.length + 1 ∨
        (scanStep p c).1 = false ∧ (labelExpr p c.memcmp c.exprs.length).1 = none) := by
  have pos := holds.null
  have depsLe := holds.deps_le
  have next := holds.next
  cases made : labelExpr p c.memcmp c.exprs.length with
  | mk e d =>
    rw [made] at next
    simp only [scanStep, next]
    cases e with
    | none =>
      refine ⟨⟨pos, ?_, ?_⟩, rfl, .inr ⟨rfl, rfl⟩⟩
      · intro k lt
        rw [List.getD_append _ _ _ _ (by simp only at lt; omega)]
        exact holds.entries k lt
      · refine .inr ⟨?_, ?_⟩
        · simp only [List.length_append, List.length_singleton]
          omega
        · exact congrArg Prod.fst made
    | some e =>
      have aligned : c.deps.length = c.exprs.length := by
        rcases holds.counted with aligned | ⟨_, stuck⟩
        · exact aligned
        · rw [made] at stuck
          cases stuck
      refine ⟨⟨?_, ?_, ?_⟩, rfl, .inl ⟨rfl, rfl, ?_⟩⟩
      · simp only [List.length_append]
        omega
      · intro k lt
        simp only [List.length_append, List.length_singleton] at lt
        by_cases new : k = c.exprs.length
        · rw [new, made]
          have lastExpr : (c.exprs ++ [e]).getD c.exprs.length none = e := by simp
          have lastDeps : (c.deps ++ [d]).getD c.exprs.length ∅ = d := by
            rw [← aligned]
            simp
          rw [lastExpr, lastDeps]
        · rw [List.getD_append _ _ _ _ (by omega), List.getD_append _ _ _ _ (by omega)]
          exact holds.entries k (by omega)
      · left
        simp only [List.length_append, List.length_singleton, aligned]
      · simp [List.length_append]

/-- A scan gets to the end if and only if all labels on the way have a translation. -/
lemma scanTo_holds (n : Nat) :
    Holds p (scanTo p n c).2 ∧ (scanTo p n c).2.memcmp = c.memcmp ∧
      ((scanTo p n c).1 = true ∧ (scanTo p n c).2.exprs.length = c.exprs.length + n ∧
          (∀ k, c.exprs.length ≤ k → k < c.exprs.length + n → (labelExpr p c.memcmp k).1.isSome) ∨
        (scanTo p n c).1 = false ∧ ∃ k, c.exprs.length ≤ k ∧ k < c.exprs.length + n ∧
          (labelExpr p c.memcmp k).1 = none) := by
  induction n generalizing c with
  | zero => exact ⟨holds, rfl, .inl ⟨rfl, rfl, fun k low high => by omega⟩⟩
  | succ n ih =>
    obtain ⟨kept, contents, outcome⟩ := scanStep_holds holds
    simp only [scanTo]
    generalize scanStep p c = out at kept contents outcome
    obtain ⟨ok, _⟩ := out
    dsimp only at kept contents outcome
    rcases outcome with ⟨rfl, here, long⟩ | ⟨rfl, here⟩
    · obtain ⟨kept', contents', outcome'⟩ := ih kept
      dsimp only
      refine ⟨kept', contents'.trans contents, ?_⟩
      rw [contents, long] at outcome'
      rcases outcome' with ⟨ok, long', rest⟩ | ⟨stuck, k, low, high, none⟩
      · refine .inl ⟨ok, by omega, fun k low high => ?_⟩
        by_cases first : k = c.exprs.length
        · rw [first]
          exact here
        · exact rest k (by omega) (by omega)
      · exact .inr ⟨stuck, k, by omega, by omega, none⟩
    · exact ⟨kept, contents, .inr ⟨rfl, c.exprs.length, Nat.le_refl _, by omega, here⟩⟩

/-- A content for a label that has not failed yet changes no cached label. -/
lemma recordMemcmp_holds {l : Nat} (content : Nat → BitVec 8)
    (early : l ≠ c.exprs.length ∨ c.deps.length = c.exprs.length) :
    Holds p (c.recordMemcmp l content) := by
  have same : ∀ k < c.exprs.length,
      labelExpr p (c.recordMemcmp l content).memcmp k = labelExpr p c.memcmp k := by
    intro k
    induction k using Nat.strong_induction_on with
    | _ k ih =>
      intro lt
      by_cases zero : k = 0
      · rw [zero, labelExpr_zero, labelExpr_zero]
      have look : before p (c.recordMemcmp l content).memcmp k = before p c.memcmp k := by
        funext j
        simp only [before]
        split
        next below =>
          rw [ih j below (by omega)]
        · rfl
      have made := holds.entries k lt
      rw [labelExpr_eq p _ zero] at made
      rw [labelExpr_eq p _ zero, labelExpr_eq p _ zero, look]
      rcases memcmp_cases c l k content with kept | missing
      · rw [kept]
      · rw [missing] at made ⊢
        rw [made, translate_content made]
  refine ⟨holds.null, fun k lt => (same k lt).trans (holds.entries k lt), ?_⟩
  rcases holds.counted with aligned | ⟨longer, stuck⟩
  · exact .inl aligned
  rcases early with other | aligned
  · refine .inr ⟨longer, ?_⟩
    have pos := holds.null
    have kept : (c.recordMemcmp l content).memcmp c.exprs.length = c.memcmp c.exprs.length := by
      simp [Caches.recordMemcmp, Ne.symm other]
    have look : before p (c.recordMemcmp l content).memcmp c.exprs.length =
        before p c.memcmp c.exprs.length := by
      funext j
      simp only [before]
      split
      next below =>
        rw [same j below]
      · rfl
    change (labelExpr p (c.recordMemcmp l content).memcmp c.exprs.length).1 = none
    rw [labelExpr_eq p _ (by omega), look, kept, ← labelExpr_eq p _ (by omega)]
    exact stuck
  · exact .inl aligned

end Caches

/-! ## Calls -/

/-- The states that calls since a restart lead to, whatever came of the calls. A content
is not recorded for a label whose translation has failed already. -/
inductive Run (σ : Setting) : State → Prop where
  | restart : Run σ restart
  | memcmp {s : State} (before : Run σ s) (label : Nat) (content : Nat → BitVec 8)
      (early : label ≠ s.caches.exprs.length ∨
        s.caches.deps.length = s.caches.exprs.length) : Run σ (recordMemcmp s label content)
  | cond {s : State} (before : Run σ s) (label : Nat) (result addNested : Bool) :
      Run σ (parseCond σ s label result addNested).2

/-- A branch whose own sub-DAG is supported and well typed: the condition is boolean and
its bytes lie inside the inputs. -/
structure Supported (σ : Setting) (s : State) (label : Nat) : Prop where
  valid : 1 ≤ label ∧ label ≠ kInitializingLabel ∧ label < σ.parser.size
  boolean : (labelSort σ.parser (known s) label).1 = some (some .bool)
  inside : ∀ off, off ∈ (labelSort σ.parser (known s) label).2 → off ∈ offsets σ.inputs

section Calls

variable {σ : Setting} {s s' : State} {label : Nat}

lemma addTask_frames (σ : Setting) (s : State) (cond : Expr Name) (deps : Deps)
    (result save : Bool) : (addTask σ s cond deps result save).2.caches = s.caches := by
  rcases addTask_cases σ s cond deps result save with ⟨same, _⟩ | ⟨_, _, _, _, _, _, made⟩
  · rw [same]
  · rw [made]
    cases save <;> rfl

lemma parseCond_scanned (valid : 1 ≤ label ∧ label ≠ kInitializingLabel ∧ label < σ.parser.size)
    (result addNested : Bool) :
    (parseCond σ s label result addNested).2.caches =
        (scanTo σ.parser (label + 1 - s.caches.exprs.length) s.caches).2 ∧
      ((scanTo σ.parser (label + 1 - s.caches.exprs.length) s.caches).1 = false →
        ∀ task, (parseCond σ s label result addNested).1 ≠ .task task) ∧
      ((scanTo σ.parser (label + 1 - s.caches.exprs.length) s.caches).1 = true →
        ∀ e ds, (scanTo σ.parser (label + 1 - s.caches.exprs.length) s.caches).2.lookup label =
          some (e, ds) → ∃ s1 save, s1.branchDeps = s.branchDeps ∧
            parseCond σ s label result addNested = addTask σ s1 e ds result save) := by
  have invalid : ¬(label < 1 ∨ label = kInitializingLabel ∨ σ.parser.size ≤ label) := by omega
  have call := parseCond_valid s invalid result addNested
  obtain ⟨caches, records, success⟩ := scan_caches σ.parser (label + 1 - s.caches.exprs.length) s
  generalize scan σ.parser (label + 1 - s.caches.exprs.length) s = out
    at call caches records success
  obtain ⟨failure, s1⟩ := out
  rw [← caches]
  cases failure with
  | some f =>
    cases f <;>
    · rw [call]
      exact ⟨rfl, fun _ task => by simp, fun ok => absurd ok fun ok => by cases success.mpr ok⟩
  | none =>
    have ok := success.mp rfl
    simp only at call
    refine ⟨?_, fun stuck => absurd ok (by rw [stuck]; decide), fun _ e ds found => ?_⟩
    · rw [call]
      cases getCachedExpr s1.caches.lookup label ∅ with
      | mk made deps =>
        cases made with
        | none => rfl
        | some e => exact addTask_frames _ _ _ _ _ _
    · have cached : getCachedExpr s1.caches.lookup label ∅ = (some e, ds) := by
        rw [getCachedExpr, found]
        change (some e, ∅ ∪ ds) = _
        rw [Finset.empty_union]
      rw [cached] at call
      exact ⟨s1, _, records, call⟩

lemma contained_frame (contained : Contained σ s) (same : s'.branchDeps = s.branchDeps) :
    Contained σ s' := by
  intro off y inRecord
  rw [inputsAt, same] at inRecord
  exact contained off y inRecord

lemma addTask_contained (contained : Contained σ s) (cond : Expr Name) (deps : Deps)
    (result save : Bool) : Contained σ (addTask σ s cond deps result save).2 := by
  by_cases boolean : cond.sort = .bool
  · rcases addTask_bool contained boolean result save with
      ⟨_, task, s1, made, _, _, inside⟩ | ⟨_, made⟩
    · rw [made]
      exact inside
    · rw [made]
      exact contained
  · rw [addTask_not_bool boolean]
    exact contained

lemma parseCond_contained (contained : Contained σ s) (label : Nat) (result addNested : Bool) :
    Contained σ (parseCond σ s label result addNested).2 := by
  obtain ⟨_, same, ⟨state, _⟩ | ⟨cond, deps, _, call⟩⟩ :=
    parseCond_cases σ s label result addNested
  · rw [state]
    exact contained_frame contained same
  · rw [call]
    exact addTask_contained (contained_frame contained same) cond deps result _

lemma Run.holds (run : Run σ s) : Holds σ.parser s.caches ∧ Contained σ s := by
  induction run with
  | restart =>
    refine ⟨restart_holds σ.parser, ?_⟩
    intro off y inRecord
    cases inRecord
  | memcmp before label content early ih =>
    exact ⟨recordMemcmp_holds ih.1 content early, ih.2⟩
  | @cond s before label result addNested ih =>
    refine ⟨?_, parseCond_contained ih.2 label result addNested⟩
    by_cases valid : 1 ≤ label ∧ label ≠ kInitializingLabel ∧ label < σ.parser.size
    · rw [(parseCond_scanned valid result addNested).1]
      exact (scanTo_holds ih.1 _).1
    · rw [parseCond, if_pos (by omega)]
      exact ih.1

lemma Supported.expr (supported : Supported σ s label) :
    ∃ e ds, labelExpr σ.parser s.caches.memcmp label = (some (some e), ds) ∧ e.sort = .bool ∧
      ∀ off ∈ ds, off ∈ offsets σ.inputs := by
  obtain ⟨_, boolean, inside⟩ := supported
  have sorted := labelExpr_sort σ.parser s.caches.memcmp label
  change labelSort σ.parser (known s) label = _ at sorted
  rw [sorted] at boolean inside
  generalize labelExpr σ.parser s.caches.memcmp label = entry at boolean inside
  obtain ⟨_, ds⟩ := entry
  obtain ⟨_, rfl, sort⟩ := Option.map_eq_some_iff.mp boolean
  obtain ⟨e, rfl, isBool⟩ := Option.map_eq_some_iff.mp sort
  exact ⟨e, ds, rfl, isBool, inside⟩

lemma sorted_iff (σ : Setting) (s : State) (k : Nat) :
    (labelSort σ.parser (known s) k).1.isSome =
      (labelExpr σ.parser s.caches.memcmp k).1.isSome := by
  have sorted := labelExpr_sort σ.parser s.caches.memcmp k
  change labelSort σ.parser (known s) k = _ at sorted
  rw [sorted, Option.isSome_map]

/-- A call on a label with a translation: it goes on with that translation, if all
labels before it have one, and has no task otherwise. -/
lemma parseCond_own (run : Run σ s)
    (valid : 1 ≤ label ∧ label ≠ kInitializingLabel ∧ label < σ.parser.size) {e : Expr Name}
    {ds : Deps} (own : labelExpr σ.parser s.caches.memcmp label = (some (some e), ds))
    (result addNested : Bool) :
    ((∀ k, 1 ≤ k → k < label → (labelSort σ.parser (known s) k).1.isSome) ∧
      ∃ s1 save, s1.branchDeps = s.branchDeps ∧
        parseCond σ s label result addNested = addTask σ s1 e ds result save) ∨
    (¬ (∀ k, 1 ≤ k → k < label → (labelSort σ.parser (known s) k).1.isSome) ∧
      ∀ task, (parseCond σ s label result addNested).1 ≠ .task task) := by
  obtain ⟨holds, _⟩ := run.holds
  obtain ⟨_, fails, succeeds⟩ := parseCond_scanned (s := s) valid result addNested
  obtain ⟨after, contents, outcome⟩ := scanTo_holds holds (label + 1 - s.caches.exprs.length)
  rcases outcome with ⟨ok, long, all⟩ | ⟨stuck, k, low, high, none⟩
  · refine .inl ⟨?_, ?_⟩
    · intro k _ lt
      rw [sorted_iff]
      by_cases old : k < s.caches.exprs.length
      · rw [holds.entries k old]
        rfl
      · exact all k (by omega) (by omega)
    · refine succeeds ok e ds ?_
      have entry := after.entries label (by omega)
      rw [contents, own, Prod.mk.injEq, Option.some.injEq] at entry
      rw [Caches.lookup, ← entry.1, ← entry.2]
      rfl
  · refine .inr ⟨?_, fails stuck⟩
    intro sorted
    have pos := holds.null
    have ne : k ≠ label := by
      rintro rfl
      rw [own] at none
      cases none
    have here := sorted k (by omega) (by omega)
    rw [sorted_iff, none] at here
    cases here

/-- Two parsers that have the sub-DAG of a branch in common, with its contents and the
constraints saved so far. -/
structure SameDag (σ : Setting) (s : State) (p' : Parser) (s' : State) (label : Nat) : Prop where
  size : p'.size = σ.parser.size
  simplify : p'.simplify = σ.parser.simplify
  zero : σ.parser.info 0 = constInfo ∧ p'.info 0 = constInfo
  agree : ∀ k, InDag σ.parser.info label k →
    p'.info k = σ.parser.info k ∧ s'.caches.memcmp k = s.caches.memcmp k
  saved : s'.branchDeps = s.branchDeps

lemma addTask_same (σ : Setting) (p' : Parser) (same : s'.branchDeps = s.branchDeps)
    (cond : Expr Name) (deps : Deps) (result save save' : Bool) :
    (addTask { σ with parser := p' } s' cond deps result save').1 =
      (addTask σ s cond deps result save).1 := by
  obtain ⟨caches, tsizes, records⟩ := s
  obtain ⟨caches', tsizes', _⟩ := s'
  cases same
  have closure : collectMoreDeps { σ with parser := p' } ⟨caches', tsizes', records⟩ deps =
      collectMoreDeps σ ⟨caches, tsizes, records⟩ deps := rfl
  simp only [addTask, closure]
  split
  · split
    · split <;> split <;> rfl
    · rfl
    · rfl
  · rfl

/-- A branch with a supported sub-DAG becomes a task, the same one over every table that
has the sub-DAG and whose other labels do not stand in the way, if and only if every
label before it in the table has a translation. -/
theorem parseCond_ignores_unrelated_iff (σ : Setting) (s : State) (run : Run σ s) (label : Nat)
    (supported : Supported σ s label) (result addNested : Bool) :
    (∃ task, (parseCond σ s label result addNested).1 = .task task ∧
      ∀ p' s', Run { σ with parser := p' } s' → SameDag σ s p' s' label →
        (∀ k, 1 ≤ k → k < label → (labelSort p' (known s') k).1.isSome) →
        (parseCond { σ with parser := p' } s' label result addNested).1 = .task task) ↔
    ∀ k, 1 ≤ k → k < label → (labelSort σ.parser (known s) k).1.isSome := by
  obtain ⟨e, ds, own, boolean, inside⟩ := supported.expr
  obtain ⟨_, contained⟩ := run.holds
  rcases parseCond_own run supported.valid own result addNested with
    ⟨sorted, s1, save, same, call⟩ | ⟨unsorted, noTask⟩
  · refine ⟨fun _ => sorted, fun _ => ?_⟩
    rcases addTask_bool (contained_frame contained same) boolean result save with
      ⟨_, task, s2, made, _⟩ | ⟨⟨off, inDeps, outside⟩, _⟩
    · refine ⟨task, by rw [call, made], ?_⟩
      intro p' s' run' dag sorted'
      have own' : labelExpr p' s'.caches.memcmp label = (some (some e), ds) := by
        rw [labelExpr_congr dag.size dag.simplify dag.zero.1 dag.zero.2 dag.agree]
        exact own
      have valid' : 1 ≤ label ∧ label ≠ kInitializingLabel ∧ label < p'.size := by
        rw [dag.size]
        exact supported.valid
      rcases parseCond_own run' valid' own' result addNested with
        ⟨_, s3, save', same', call'⟩ | ⟨unsorted, _⟩
      · rw [call', addTask_same σ p' (same'.trans (dag.saved.trans same.symm)) e ds result save,
          made]
      · exact absurd sorted' unsorted
    · exact absurd (inside off inDeps) outside
  · refine ⟨?_, fun sorted => absurd sorted unsorted⟩
    rintro ⟨task, made, _⟩
    exact absurd made (noTask task)

/-- A branch on the first input byte; the second byte is not part of it. -/
def beside : Setting :=
  oneInput [⟨0, 0, 0, 0, .input, 8, 0⟩, ⟨0, 0, 1, 0, .input, 8, 0⟩,
    ⟨1, 0, 0, 65, .icmp .bveq, 8, 0⟩]

theorem parseCond_ignores_unrelated_iff_byte :
    Supported beside restart 3 ∧
      ∃ task, (parseCond beside restart 3 true true).1 = .task task ∧
        ∀ p' s', Run { beside with parser := p' } s' → SameDag beside restart p' s' 3 →
          (∀ k, 1 ≤ k → k < 3 → (labelSort p' (known s') k).1.isSome) →
          (parseCond { beside with parser := p' } s' 3 true true).1 = .task task := by
  have sorted : ∀ k < 3, (labelSort beside.parser (known restart) k).1.isSome := by
    decide +kernel
  have supported : Supported beside restart 3 := ⟨by decide, by decide +kernel, by decide +kernel⟩
  refine ⟨supported, ?_⟩
  exact (parseCond_ignores_unrelated_iff beside restart .restart 3 supported true true).mpr
    fun k _ lt => sorted k lt

/-- The same branch after the first byte was converted to a floating-point number,
which has no translation: the call fails. -/
theorem conversion_disables_branch :
    let σ := oneInput [⟨0, 0, 0, 0, .input, 8, 0⟩, ⟨1, 0, 0, 0, .other 44, 64, 0⟩,
      ⟨1, 0, 0, 65, .icmp .bveq, 8, 0⟩]
    Supported σ restart 3 ∧ SameDag σ restart beside.parser restart 3 ∧
      (parseCond σ restart 3 true true).1 = .error ∧
      ∃ task, (parseCond beside restart 3 true true).1 = .task task := by
  intro σ
  refine ⟨⟨by decide, by decide +kernel, by decide +kernel⟩, ⟨rfl, rfl, ⟨rfl, rfl⟩, ?_, rfl⟩, rfl,
    ⟨_, rfl⟩⟩
  have dag : ∀ l k, InDag σ.parser.info l k → l = 1 ∨ l = 3 → k = 1 ∨ k = 3 := by
    intro l k reach
    induction reach with
    | self => exact id
    | first symbolic _ ih =>
      rintro (rfl | rfl)
      · exact absurd rfl symbolic
      · exact ih (.inl rfl)
    | second symbolic _ _ _ =>
      rintro (rfl | rfl)
      · exact absurd rfl symbolic
      · exact absurd rfl symbolic
  intro k reach
  rcases dag 3 k reach (.inr rfl) with rfl | rfl
  · exact ⟨rfl, rfl⟩
  · exact ⟨rfl, rfl⟩

end Calls

end Z3Unrelated
