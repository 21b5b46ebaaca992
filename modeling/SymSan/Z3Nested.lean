import Mathlib.Data.Finset.Lattice.Fold
import Mathlib.Order.Lattice.Nat
import SymSan.TableGrowth
import SymSan.Z3Branches

/-!
# Nested constraints of the Z3 parser

The bytes of a branch are saved together with all bytes they are connected to, so the
records of a byte reach more than the branches it occurs in. They connect the same
bytes: the constraints that are added to a task are those of the saved branches that
are connected to its condition, in the direction that was executed.
-/

namespace Z3Nested

open LabelTable BitTerms Z3Parser WorklistClosure Z3Branches Relation

/-- A branch that was saved, with the bytes of its condition. -/
structure Saved where
  cond : Expr Name
  result : Bool
  deps : Deps

/-- Two bytes appear in the same saved branch. -/
def Together (saved : List Saved) (x y : Nat × Nat) : Prop :=
  ∃ b, b ∈ saved ∧ x ∈ b.deps ∧ y ∈ b.deps

def Connected (saved : List Saved) (deps deps' : Deps) : Prop :=
  ∃ x y, x ∈ deps ∧ y ∈ deps' ∧ ReflTransGen (Together saved) x y

def savedBy (σ : Setting) (s : State) (label : Nat) (result addNested : Bool) : Option Saved :=
  match (parseCond σ s label result addNested).1, (serialize σ.parser s.caches label ∅).1 with
  | .task _, some (cond, deps) =>
    if addNested && !hasFsize σ.parser s.caches.exprs.length
        (serialize σ.parser s.caches label ∅).2.exprs.length
    then some ⟨cond, result, deps⟩ else none
  | _, _ => none

/-- The states of a run with the branches saved so far. -/
inductive Run (σ : Setting) : State → List Saved → Prop where
  | restart : Run σ restart []
  | memcmp {s : State} {saved : List Saved} (before : Run σ s saved) (label : Nat)
      (content : Nat → BitVec 8) : Run σ (recordMemcmp s label content) saved
  | cond {s : State} {saved : List Saved} (before : Run σ s saved) (label : Nat)
      (result addNested : Bool) :
      Run σ (parseCond σ s label result addNested).2
        (saved ++ (savedBy σ s label result addNested).toList)

/-! ## Records -/

def inputsAt (s : State) (off : Nat × Nat) : Deps := (s.branchDeps off).elim ∅ (·.inputDeps)

def exprsAt (s : State) (off : Nat × Nat) : List (Expr Name) :=
  (s.branchDeps off).elim [] (·.exprDeps)

/-- The records of the bytes belong to the saved branches. -/
structure Tracks (σ : Setting) (s : State) (saved : List Saved) : Prop where
  inside : ∀ b x, b ∈ saved → x ∈ b.deps → x ∈ offsets σ.inputs
  joins : ∀ x y, Together saved x y → y ∈ inputsAt s x
  joined : ∀ x y, y ∈ inputsAt s x → ReflTransGen (Together saved) x y
  stored : ∀ b e x, b ∈ saved → b.cond.equal (.truth b.result) = some e → x ∈ b.deps →
    e ∈ exprsAt s x
  known : ∀ x e, e ∈ exprsAt s x → ∃ b y, b ∈ saved ∧ b.cond.equal (.truth b.result) = some e ∧
    y ∈ b.deps ∧ ReflTransGen (Together saved) y x

section Records

variable {σ : Setting} {s s' : State} {saved : List Saved} {added list : List (Expr Name)}
  {x y : Nat × Nat}

lemma connected_symm (h : ReflTransGen (Together saved) x y) :
    ReflTransGen (Together saved) y x := by
  induction h with
  | refl => exact .refl
  | tail _ edge ih =>
    obtain ⟨b, inside, left, right⟩ := edge
    exact .head ⟨b, inside, right, left⟩ ih

lemma connected_append {b : Saved} (h : ReflTransGen (Together saved) x y) :
    ReflTransGen (Together (saved ++ [b])) x y := by
  refine ReflTransGen.mono (fun u v together => ?_) _ _ h
  obtain ⟨c, inside, left, right⟩ := together
  exact ⟨c, List.mem_append_left _ inside, left, right⟩

lemma inputDeps_inside {off : Nat × Nat} {more : List (Nat × Nat)}
    (found : inputDeps σ s off = some more) : off ∈ offsets σ.inputs := by
  obtain ⟨_, isRecord, -⟩ := Option.map_eq_some_iff.mp found
  exact (Option.ite_none_right_eq_some.mp isRecord).1

lemma mem_inputDeps :
    (∃ more, inputDeps σ s x = some more ∧ y ∈ more) ↔ x ∈ offsets σ.inputs ∧ y ∈ inputsAt s x := by
  by_cases inside : x ∈ offsets σ.inputs
  · simp only [inputDeps, getBranchDep, inside, if_true, Option.map_some, Option.some_inj,
      exists_eq_left', true_and, inputsAt]
    cases s.branchDeps x with
    | none => simp
    | some dep => exact (σ.walks dep.inputDeps).2 y
  · constructor
    · rintro ⟨more, found, -⟩
      exact absurd (inputDeps_inside found) inside
    · rintro ⟨here, -⟩
      exact absurd here inside

/-- The search ends for every state and set of bytes. -/
lemma collectMoreDeps_exact (σ : Setting) (s : State) (inputs : Deps) :
    (∃ final, collectMoreDeps σ s inputs = .closed final ∧
      (∀ x, x ∈ final ↔ ∃ a ∈ inputs,
        ReflTransGen (fun x y => x ∈ offsets σ.inputs ∧ y ∈ inputsAt s x) a x) ∧
      ∀ x ∈ final, x ∈ offsets σ.inputs) ∨
    (collectMoreDeps σ s inputs = .refused ∧ ∃ x a, a ∈ inputs ∧
      ReflTransGen (fun x y => x ∈ offsets σ.inputs ∧ y ∈ inputsAt s x) a x ∧
        x ∉ offsets σ.inputs) := by
  have edge : Edge (inputDeps σ s) = fun x y => x ∈ offsets σ.inputs ∧ y ∈ inputsAt s x := by
    funext x y
    apply propext
    constructor
    · rintro ⟨more, found, inMore⟩
      exact mem_inputDeps.mp ⟨more, found, inMore⟩
    · exact mem_inputDeps.mpr
  have nodup : (σ.walkSet inputs).reverse.Nodup := List.nodup_reverse.mpr (σ.walks inputs).1
  have all : ∀ x, x ∈ (σ.walkSet inputs).reverse ↔ x ∈ inputs := by
    intro x
    rw [List.mem_reverse]
    exact (σ.walks inputs).2 x
  have finite : ∀ a more, inputDeps σ s a = some more → a ∈ offsets σ.inputs :=
    fun a more found => inputDeps_inside found
  have reached := explore_exact nodup all finite (Nat.lt_succ_self _)
  rw [edge] at reached
  rcases reached with ⟨final, closed, members, looked⟩ | ⟨refused, x, a, inInputs, path, none⟩
  · refine .inl ⟨final, closed, members, fun x inside => ?_⟩
    obtain ⟨_, found⟩ := Option.isSome_iff_exists.mp (looked x inside)
    exact inputDeps_inside found
  · refine .inr ⟨refused, x, a, inInputs, path, fun inside => ?_⟩
    simp only [inputDeps, getBranchDep, if_pos inside] at none
    cases none

lemma Tracks.collect (tracks : Tracks σ s saved) {inputs final : Deps}
    (closed : collectMoreDeps σ s inputs = .closed final) :
    (∀ x, x ∈ final ↔ ∃ a ∈ inputs, ReflTransGen (Together saved) a x) ∧
      ∀ x ∈ final, x ∈ offsets σ.inputs := by
  rcases collectMoreDeps_exact σ s inputs with ⟨final', closed', members, inside⟩ | ⟨refused, -⟩
  · rw [closed] at closed'
    cases closed'
    refine ⟨fun x => ?_, inside⟩
    rw [members]
    constructor
    · rintro ⟨a, inInputs, path⟩
      refine ⟨a, inInputs, ?_⟩
      induction path with
      | refl => exact .refl
      | tail _ edge ih => exact ih.trans (tracks.joined _ _ edge.2)
    · rintro ⟨a, inInputs, path⟩
      refine ⟨a, inInputs, ReflTransGen.mono (fun x y together => ?_) _ _ path⟩
      obtain ⟨b, inSaved, left, right⟩ := together
      exact ⟨tracks.inside b x inSaved left, tracks.joins x y ⟨b, inSaved, left, right⟩⟩
  · rw [closed] at refused
    cases refused

lemma mem_insertAll (e : Expr Name) :
    e ∈ list.foldl (fun added e => added.insert e) added ↔ e ∈ added ∨ e ∈ list := by
  induction list generalizing added with
  | nil => simp
  | cons a list ih =>
    rw [List.foldl_cons, ih, List.mem_insert_iff, List.mem_cons]
    exact or_assoc.trans or_left_comm

lemma nodup_insertAll (nodup : added.Nodup) :
    (list.foldl (fun added e => added.insert e) added).Nodup := by
  induction list generalizing added with
  | nil => exact nodup
  | cons a list ih => exact ih nodup.insert

lemma mem_addNestedConstraints (inputs : Deps) (e : Expr Name) :
    e ∈ addNestedConstraints σ s inputs ↔ ∃ x ∈ inputs, e ∈ exprsAt s x := by
  rw [addNestedConstraints, mem_insertAll]
  simp [exprsAt, (σ.walks inputs).2]

lemma saveConstraint_tracks (tracks : Tracks σ s saved) {cond taken : Expr Name}
    {result : Bool} {deps final : Deps} (expr : cond.equal (.truth result) = some taken)
    (closed : ∀ x, x ∈ final ↔ ∃ a ∈ deps, ReflTransGen (Together saved) a x)
    (inside : ∀ x ∈ final, x ∈ offsets σ.inputs) :
    Tracks σ (saveConstraint s taken final) (saved ++ [⟨cond, result, deps⟩]) := by
  have own : ∀ x ∈ deps, x ∈ final := fun x mem => (closed x).mpr ⟨x, mem, .refl⟩
  have inputs : ∀ x, inputsAt (saveConstraint s taken final) x =
      if x ∈ final then inputsAt s x ∪ final else inputsAt s x := by
    intro x
    simp only [inputsAt, saveConstraint]
    split
    · cases s.branchDeps x <;> rfl
    · rfl
  have exprs : ∀ x e, e ∈ exprsAt (saveConstraint s taken final) x ↔
      e ∈ exprsAt s x ∨ (x ∈ final ∧ e = taken) := by
    intro x e
    simp only [exprsAt, saveConstraint]
    split
    next here =>
      rw [Option.elim_some, List.mem_insert_iff]
      simp only [here, true_and]
      cases s.branchDeps x
      · simp
      · exact or_comm
    next off =>
      simp [off]
  have new : ⟨cond, result, deps⟩ ∈ saved ++ [(⟨cond, result, deps⟩ : Saved)] :=
    List.mem_append_right _ (List.mem_singleton.mpr rfl)
  refine ⟨fun b x inSaved inDeps => ?_, fun x y together => ?_, fun x y inRecord => ?_,
    fun b e x inSaved isExpr inDeps => ?_, fun x e inRecord => ?_⟩
  · rcases List.mem_append.mp inSaved with old | last
    · exact tracks.inside b x old inDeps
    · rw [List.mem_singleton.mp last] at inDeps
      exact inside x (own x inDeps)
  · obtain ⟨b, inSaved, left, right⟩ := together
    rw [inputs]
    rcases List.mem_append.mp inSaved with old | last
    · have before := tracks.joins x y ⟨b, old, left, right⟩
      split
      · exact Finset.mem_union_left _ before
      · exact before
    · rw [List.mem_singleton.mp last] at left right
      rw [if_pos (own x left)]
      exact Finset.mem_union_right _ (own y right)
  · rw [inputs] at inRecord
    split at inRecord
    next here =>
      rcases Finset.mem_union.mp inRecord with old | last
      · exact connected_append (tracks.joined x y old)
      -- both are connected to bytes of the new branch
      obtain ⟨a, inDeps, path⟩ := (closed x).mp here
      obtain ⟨_, inDeps', path'⟩ := (closed y).mp last
      exact ((connected_append (connected_symm path)).trans
        (.single ⟨_, new, inDeps, inDeps'⟩)).trans (connected_append path')
    · exact connected_append (tracks.joined x y inRecord)
  · rw [exprs]
    rcases List.mem_append.mp inSaved with old | last
    · exact .inl (tracks.stored b e x old isExpr inDeps)
    · rw [List.mem_singleton.mp last] at isExpr inDeps
      rw [expr] at isExpr
      cases isExpr
      exact .inr ⟨own x inDeps, rfl⟩
  · rcases (exprs x e).mp inRecord with old | ⟨here, rfl⟩
    · obtain ⟨b, y, inSaved, isExpr, inDeps, path⟩ := tracks.known x e old
      exact ⟨b, y, List.mem_append_left _ inSaved, isExpr, inDeps, connected_append path⟩
    · obtain ⟨a, inDeps, path⟩ := (closed x).mp here
      exact ⟨_, a, new, expr, inDeps, connected_append path⟩

end Records

/-! ## Runs -/

section Runs

variable {σ : Setting} {s s' : State} {saved : List Saved} {label : Nat}

lemma Tracks.frame (tracks : Tracks σ s saved) (same : s'.branchDeps = s.branchDeps) :
    Tracks σ s' saved := by
  have inputs : inputsAt s' = inputsAt s := by
    funext x
    rw [inputsAt, same, ← inputsAt]
  have exprs : exprsAt s' = exprsAt s := by
    funext x
    rw [exprsAt, same, ← exprsAt]
  refine ⟨tracks.inside, ?_, ?_, ?_, ?_⟩
  · rw [inputs]
    exact tracks.joins
  · rw [inputs]
    exact tracks.joined
  · rw [exprs]
    exact tracks.stored
  · rw [exprs]
    exact tracks.known

lemma addTask_cases (σ : Setting) (s : State) (cond : Expr Name) (deps : Deps)
    (result save : Bool) :
    ((addTask σ s cond deps result save).2 = s ∧
      ∀ task, (addTask σ s cond deps result save).1 ≠ .task task) ∨
    ∃ negated taken final, cond.distinct (.truth result) = some negated ∧
      cond.equal (.truth result) = some taken ∧ collectMoreDeps σ s deps = .closed final ∧
      addTask σ s cond deps result save = (.task (negated :: addNestedConstraints σ s final),
        if save then saveConstraint s taken final else s) := by
  simp only [addTask]
  split
  next negated taken distinct equal =>
    split
    next final closed =>
      refine .inr ⟨negated, taken, final, distinct, equal, closed, ?_⟩
      split
      · rfl
      · rfl
    · exact .inl ⟨rfl, nofun⟩
    · exact .inl ⟨rfl, nofun⟩
  · exact .inl ⟨rfl, nofun⟩

lemma savedBy_none {result addNested : Bool}
    (noTask : ∀ task, (parseCond σ s label result addNested).1 ≠ .task task) :
    savedBy σ s label result addNested = none := by
  cases outcome : (parseCond σ s label result addNested).1 with
  | task task => exact absurd outcome (noTask task)
  | error | escapes | endless => simp only [savedBy, outcome]

lemma parseCond_tracks (tracks : Tracks σ s saved) (label : Nat) (result addNested : Bool) :
    Tracks σ (parseCond σ s label result addNested).2
      (saved ++ (savedBy σ s label result addNested).toList) := by
  obtain ⟨s1, same, ⟨state, noTask⟩ | ⟨cond, deps, serialized, call⟩⟩ :=
    parseCond_cases σ s label result addNested
  · rw [savedBy_none noTask, state, Option.toList_none, List.append_nil]
    exact tracks.frame same
  have scanned := tracks.frame same
  rcases addTask_cases σ s1 cond deps result (addNested &&
      !hasFsize σ.parser s.caches.exprs.length s1.caches.exprs.length) with
    ⟨state, noTask⟩ | ⟨negated, taken, final, distinct, equal, closed, made⟩
  · rw [← call] at state noTask
    rw [savedBy_none noTask, state, Option.toList_none, List.append_nil]
    exact scanned
  obtain ⟨members, inside⟩ := scanned.collect closed
  rw [made] at call
  simp only [savedBy, call, serialized]
  split
  · exact saveConstraint_tracks scanned equal members inside
  · rw [Option.toList_none, List.append_nil]
    exact scanned

lemma Run.tracks (run : Run σ s saved) : Tracks σ s saved := by
  induction run with
  | restart => exact ⟨nofun, nofun, nofun, nofun, nofun⟩
  | memcmp before label content ih => exact ih.frame rfl
  | cond before label result addNested ih => exact parseCond_tracks ih label result addNested

/-- The search for connected bytes ends, and the assertions after the negated condition
are exactly the constraints of the connected branches, as they were executed. -/
theorem parseCond_nested_exact (σ : Setting) (s : State) (saved : List Saved)
    (run : Run σ s saved) (label : Nat) (result addNested : Bool) :
    (∀ deps, collectMoreDeps σ s deps ≠ .unfinished) ∧
    ∀ task, (parseCond σ s label result addNested).1 = .task task →
      ∃ cond deps c negated extra,
        serialize σ.parser s.caches label ∅ = (some (cond, deps), c) ∧
        cond.distinct (.truth result) = some negated ∧ task = negated :: extra ∧
        extra.Nodup ∧ ∀ e, e ∈ extra ↔ ∃ b, b ∈ saved ∧
          b.cond.equal (.truth b.result) = some e ∧ Connected saved deps b.deps := by
  refine ⟨fun deps unfinished => ?_, fun task isTask => ?_⟩
  · rcases collectMoreDeps_exact σ s deps with ⟨final, closed, -⟩ | ⟨refused, -⟩
    · rw [closed] at unfinished
      cases unfinished
    · rw [refused] at unfinished
      cases unfinished
  · obtain ⟨s1, same, ⟨-, noTask⟩ | ⟨cond, deps, serialized, call⟩⟩ :=
      parseCond_cases σ s label result addNested
    · exact absurd isTask (noTask task)
    have tracks := run.tracks.frame same
    rcases addTask_cases σ s1 cond deps result (addNested &&
        !hasFsize σ.parser s.caches.exprs.length s1.caches.exprs.length) with
      ⟨-, noTask⟩ | ⟨negated, taken, final, distinct, equal, closed, made⟩
    · rw [← call] at noTask
      exact absurd isTask (noTask task)
    rw [call, made] at isTask
    cases isTask
    refine ⟨cond, deps, _, negated, _, serialized, distinct, rfl,
      nodup_insertAll List.nodup_nil, fun e => ?_⟩
    obtain ⟨members, -⟩ := tracks.collect closed
    rw [mem_addNestedConstraints]
    constructor
    · rintro ⟨x, inFinal, inRecord⟩
      obtain ⟨a, inDeps, path⟩ := (members x).mp inFinal
      obtain ⟨b, y, inSaved, isExpr, inBranch, path'⟩ := tracks.known x e inRecord
      exact ⟨b, inSaved, isExpr, a, y, inDeps, inBranch, path.trans (connected_symm path')⟩
    · rintro ⟨b, inSaved, isExpr, a, y, inDeps, inBranch, path⟩
      exact ⟨y, (members y).mpr ⟨a, inDeps, path⟩, tracks.stored b e y inSaved isExpr inBranch⟩

def ascending (ds : Deps) : List (Nat × Nat) :=
  ((List.range (ds.sup Prod.fst + 1)).product (List.range (ds.sup Prod.snd + 1))).filter (· ∈ ds)

lemma ascending_walks (ds : Deps) :
    (ascending ds).Nodup ∧ ∀ off, off ∈ ascending ds ↔ off ∈ ds := by
  constructor
  · exact (List.nodup_range.product List.nodup_range).filter _
  rintro ⟨id, off⟩
  simp only [ascending, List.mem_filter, List.pair_mem_product, List.mem_range,
    decide_eq_true_eq, and_iff_right_iff_imp]
  intro inside
  have first := Finset.le_sup (f := Prod.fst) inside
  have second := Finset.le_sup (f := Prod.snd) inside
  exact ⟨Nat.lt_succ_of_le first, Nat.lt_succ_of_le second⟩

/-- A parser of one input of 4 bytes over a table of records. -/
def oneInput (records : List LabelInfo) : Setting :=
  ⟨⟨(TableGrowth.tableOf records 1000).info, 1000, .keep⟩, [4], ascending, ascending_walks⟩

/-- The third branch is connected to the first one through the second. -/
theorem parseCond_nested_exact_chain :
    let σ := oneInput [⟨0, 0, 0, 0, .input, 8, 0⟩, ⟨0, 0, 1, 0, .input, 8, 0⟩,
      ⟨1, 0, 0, 65, .icmp .bveq, 8, 0⟩, ⟨2, 0, 0, 66, .icmp .bveq, 8, 0⟩,
      ⟨1, 2, 0, 0, .icmp .bvult, 8, 0⟩]
    let s1 := (parseCond σ restart 3 true true).2
    let s2 := (parseCond σ s1 5 false true).2
    let saved := (savedBy σ restart 3 true true).toList ++ (savedBy σ s1 5 false true).toList
    saved.length = 2 ∧ ∃ cond deps c negated extra,
      (parseCond σ s2 4 true true).1 = .task (negated :: extra) ∧ extra.length = 2 ∧
      serialize σ.parser s2.caches 4 ∅ = (some (cond, deps), c) ∧
      cond.distinct (.truth true) = some negated ∧ extra.Nodup ∧
      ∀ e, e ∈ extra ↔ ∃ b, b ∈ saved ∧ b.cond.equal (.truth b.result) = some e ∧
        Connected saved deps b.deps := by
  intro σ s1 s2 saved
  have first : Run σ s1 ([] ++ (savedBy σ restart 3 true true).toList) := .cond .restart 3 true true
  rw [List.nil_append] at first
  have run : Run σ s2 saved := .cond first 5 false true
  have count : saved.length = 2 := by decide +kernel
  have length : (match (parseCond σ s2 4 true true).1 with
      | .task task => some task.length
      | _ => none) = some 3 := by decide +kernel
  have isTask : ∃ task, (parseCond σ s2 4 true true).1 = .task task ∧ task.length = 3 := by
    generalize (parseCond σ s2 4 true true).1 = outcome at length
    cases outcome with
    | task task => exact ⟨task, rfl, Option.some.inj length⟩
    | error | escapes | endless => cases length
  obtain ⟨task, outcome, three⟩ := isTask
  obtain ⟨-, nested⟩ := parseCond_nested_exact σ s2 saved run 4 true true
  obtain ⟨cond, deps, c, negated, extra, serialized, distinct, rfl, nodup, members⟩ :=
    nested task outcome
  have two : extra.length = 2 := Nat.succ.inj three
  exact ⟨count, cond, deps, c, negated, extra, outcome, two, serialized, distinct, nodup, members⟩

end Runs

end Z3Nested
