import Mathlib.Data.Finset.Union
import SymSan.WorklistClosure
import SymSan.Z3Parser

/-!
# `Z3AstParser::parse_cond`

The parser with everything it keeps since `restart`: the caches of the translation and
of tree sizes, and for every input byte the constraints and the bytes of the branches
that were saved with it. A branch becomes one task, its negation followed by the
constraints of the connected bytes.

Only exceptions of Z3 are caught. A label or an offset that is out of range throws one
of the standard library, and a memory comparison of 256 bytes or more is read in a loop
that does not end. The sets of bytes and of constraints are hash sets; the order in
which the former are walked is left open. Task identifiers are left out.
-/

namespace Z3Branches

open LabelTable BitTerms Z3Parser WorklistClosure

/-- What does not change between two calls of `restart`. -/
structure Setting where
  parser : Parser
  /-- The sizes of the inputs. -/
  inputs : List Nat
  walkSet : Deps → List (Nat × Nat)
  walks : ∀ ds, (walkSet ds).Nodup ∧ ∀ off, off ∈ walkSet ds ↔ off ∈ ds

structure BranchDependency where
  exprDeps : List (Expr Name)
  inputDeps : Deps

structure State where
  caches : Caches
  /-- `tsize_cache_` -/
  tsizes : List Nat
  /-- `branch_deps_`, `none` for a null pointer -/
  branchDeps : Nat × Nat → Option BranchDependency

def restart : State := ⟨.restart, [0], fun _ => none⟩

def recordMemcmp (s : State) (l : Nat) (content : Nat → BitVec 8) : State :=
  { s with caches := s.caches.recordMemcmp l content }

/-! ## The translation of new labels -/

/-- How the translation of a label ends if it does not succeed. -/
inductive Failure where
  | z3
  | outOfRange
  | endless
  deriving DecidableEq, Repr

variable (p : Parser)

/-- The calls of `get_label_info` for an operand come before everything else that can
throw, so a label that is too large is what is thrown. -/
def failureOf (content : Option (Nat → BitVec 8)) (l : Nat) : Failure :=
  let r := p.info l
  match r.op with
  | .load => if p.size ≤ r.l1 then .outOfRange else .z3
  | .fatoi => if p.size ≤ r.l2 ∨ p.size ≤ (p.info r.l2).l1 then .outOfRange else .z3
  | .concat => if r.l1 = 0 ∧ p.size ≤ r.l2 then .outOfRange else .z3
  | .fmemcmp => if r.l1 = 0 ∧ content.isSome ∧ 256 ≤ r.size then .endless else .z3
  | _ => .z3

def operands (p : Parser) (look : Lookup) (r : LabelInfo) : Build Unit := do
  let size1 ← Build.lift (constSize p r r.l1 r.l2 (r.size % 256))
  let _ ← operand p look r r.l1 r.op1 size1
  let size2 ← Build.lift (constSize p r r.l2 r.l1 size1)
  let _ ← operand p look r r.l2 r.op2 size2
  return ()

/-- The entry of `tsize_cache_` for a label, if the translation gets to it: it is made
after the operands have been read and before the expression is built. -/
def treeSizeOf (look : Lookup) (content : Option (Nat → BitVec 8))
    (tsizes : List Nat) (l : Nat) : Option Nat :=
  let r := p.info l
  let first := (look r.l1).map fun _ => tsizes.getD r.l1 0
  let second := (look r.l2).map fun _ => tsizes.getD r.l2 0
  match r.op with
  | .input => some 1
  | .load => if p.size ≤ r.l1 then none else some 1
  | .zext | .trunc | .intToPtr | .extract => first
  | .sext => if (look r.l1).any fun e => e.1.sort ≠ .bool then first else none
  | .not => if r.l2 = 0 ∨ r.size ≠ 1 then none else second
  | .neg => if r.l2 = 0 then none else second
  | .fmemcmp =>
    if (1 ≤ r.l1 ∧ (look r.l1).isSome) ∨ (r.l1 < 1 ∧ (readConcrete content r.size).isSome) then
      if r.l2 < 1 then none else second.map fun _ => 1
    else none
  | .fsize => if r.size = 0 then none else some 1
  | .fatoi => if p.size ≤ r.l2 ∨ p.size ≤ (p.info r.l2).l1 then none else some 1
  | .alloca | .free => some 0
  | _ => ((operands p look r ∅).1).map fun _ =>
      (tsizes.getD r.l1 0 + tsizes.getD r.l2 0) % 2 ^ 32

/-- One round of the loop of `serialize`. -/
def scanLabel (s : State) : Option Failure × State :=
  let l := s.caches.exprs.length
  let content := s.caches.memcmp l
  let tsizes := s.tsizes ++ (treeSizeOf p s.caches.lookup content s.tsizes l).toList
  match scanStep p s.caches with
  | (true, c) => (none, { s with caches := c, tsizes := tsizes })
  | (false, c) => (some (failureOf p content l), { s with caches := c, tsizes := tsizes })

def scan (p : Parser) : Nat → State → Option Failure × State
  | 0, s => (none, s)
  | k + 1, s =>
    match scanLabel p s with
    | (none, s) => scan p k s
    | (some failure, s) => (some failure, s)

/-- `has_fsize`: one of the new labels is the size of the file. -/
def hasFsize (first last : Nat) : Bool :=
  (List.range last).any fun l => first ≤ l ∧ (p.info l).op = .fsize

/-! ## Dependencies between branches -/

def offsets (inputs : List Nat) : Deps :=
  (Finset.range inputs.length).biUnion fun id =>
    (Finset.range (inputs.getD id 0)).image fun off => (id, off)

variable (σ : Setting)

/-- `get_branch_dep`; the inner option is a null pointer. -/
def getBranchDep (s : State) (off : Nat × Nat) : Option (Option BranchDependency) :=
  if off ∈ offsets σ.inputs then some (s.branchDeps off) else none

def inputDeps (σ : Setting) (s : State) (off : Nat × Nat) : Option (List (Nat × Nat)) :=
  (getBranchDep σ s off).map fun dep => dep.elim [] fun dep => σ.walkSet dep.inputDeps

/-- `collect_more_deps`; the last of the bytes is on top of the stack. -/
def collectMoreDeps (s : State) (inputs : Deps) : WorklistClosure.Outcome (Nat × Nat) :=
  explore (inputDeps σ s) ((offsets σ.inputs).card + 1) inputs (σ.walkSet inputs).reverse

def addNestedConstraints (s : State) (inputs : Deps) : List (Expr Name) :=
  ((σ.walkSet inputs).flatMap fun off => (s.branchDeps off).elim [] (·.exprDeps)).foldl
    (fun added e => added.insert e) []

def saveConstraint (s : State) (e : Expr Name) (inputs : Deps) : State :=
  { s with branchDeps := fun off =>
      if off ∈ inputs then
        let dep := (s.branchDeps off).getD ⟨[], ∅⟩
        some ⟨dep.exprDeps.insert e, dep.inputDeps ∪ inputs⟩
      else s.branchDeps off }

/-! ## Branches -/

inductive Outcome where
  | task (assertions : List (Expr Name))
  | error
  | escapes
  | endless

/-- What follows the translation of the condition. -/
def addTask (s : State) (cond : Expr Name) (inputs : Deps) (result save : Bool) : Outcome × State :=
  match cond.distinct (.truth result), cond.equal (.truth result) with
  | some negated, some taken =>
    match collectMoreDeps σ s inputs with
    | .closed inputs =>
      let task := negated :: addNestedConstraints σ s inputs
      if save then (.task task, saveConstraint s taken inputs) else (.task task, s)
    | .refused => (.escapes, s)
    | .unfinished => (.endless, s)
  | _, _ => (.error, s)

def parseCond (s : State) (label : Nat) (result addNested : Bool) : Outcome × State :=
  if label < 1 ∨ label = kInitializingLabel ∨ σ.parser.size ≤ label then (.error, s)
  else match scan σ.parser (label + 1 - s.caches.exprs.length) s with
  | (some .z3, s) => (.error, s)
  | (some .outOfRange, s) => (.escapes, s)
  | (some .endless, s) => (.endless, s)
  | (none, s') =>
    match getCachedExpr s'.caches.lookup label ∅ with
    | (none, _) => (.error, s')
    | (some cond, inputs) =>
      let fsize := hasFsize σ.parser s.caches.exprs.length s'.caches.exprs.length
      addTask σ s' cond inputs result (addNested && !fsize)

/-! ## The scan -/

lemma scanLabel_caches (s : State) :
    (scanLabel p s).2.caches = (scanStep p s.caches).2 ∧
      (scanLabel p s).2.branchDeps = s.branchDeps ∧
      ((scanLabel p s).1 = none ↔ (scanStep p s.caches).1 = true) := by
  simp only [scanLabel]
  split
  all_goals
    rename_i c step
    rw [step]
    exact ⟨rfl, rfl, by simp⟩

lemma scan_caches (k : Nat) (s : State) :
    (scan p k s).2.caches = (scanTo p k s.caches).2 ∧
      (scan p k s).2.branchDeps = s.branchDeps ∧
      ((scan p k s).1 = none ↔ (scanTo p k s.caches).1 = true) := by
  induction k generalizing s with
  | zero => exact ⟨rfl, rfl, by simp [scan, scanTo]⟩
  | succ k ih =>
    obtain ⟨caches, branchDeps, success⟩ := scanLabel_caches p s
    simp only [scan, scanTo]
    generalize scanLabel p s = out at caches branchDeps success
    generalize scanStep p s.caches = step at caches success
    obtain ⟨failure, s1⟩ := out
    obtain ⟨ok, c⟩ := step
    cases failure with
    | none =>
      cases success.mp rfl
      obtain ⟨caches', branchDeps', success'⟩ := ih s1
      dsimp only at caches branchDeps ⊢
      rw [← caches]
      exact ⟨caches', branchDeps'.trans branchDeps, success'⟩
    | some failure =>
      cases ok with
      | true => cases success.mpr rfl
      | false => exact ⟨caches, branchDeps, by simp⟩

/-- A call ends without a task before the condition is translated, or it goes on with the
condition and the bytes that `serialize` returns. -/
lemma parseCond_cases (s : State) (label : Nat) (result addNested : Bool) :
    ∃ s1, s1.branchDeps = s.branchDeps ∧
      ((parseCond σ s label result addNested).2 = s1 ∧
          (∀ task, (parseCond σ s label result addNested).1 ≠ .task task) ∨
        ∃ cond deps, serialize σ.parser s.caches label ∅ = (some (cond, deps), s1.caches) ∧
          parseCond σ s label result addNested = addTask σ s1 cond deps result
            (addNested && !hasFsize σ.parser s.caches.exprs.length s1.caches.exprs.length)) := by
  by_cases invalid : label < 1 ∨ label = kInitializingLabel ∨ σ.parser.size ≤ label
  · simp only [parseCond, if_pos invalid]
    exact ⟨s, rfl, .inl ⟨rfl, nofun⟩⟩
  obtain ⟨caches, branchDeps, success⟩ := scan_caches σ.parser (label + 1 - s.caches.exprs.length) s
  simp only [parseCond, if_neg invalid]
  generalize scan σ.parser (label + 1 - s.caches.exprs.length) s = out at caches branchDeps success
  obtain ⟨failure, s1⟩ := out
  refine ⟨s1, branchDeps, ?_⟩
  cases failure with
  | some failure => cases failure <;> exact .inl ⟨rfl, nofun⟩
  | none =>
    have scanned : scanTo σ.parser (label + 1 - s.caches.exprs.length) s.caches =
        (true, s1.caches) := Prod.ext (success.mp rfl) caches.symm
    have valid : ¬(label < 1 ∨ label = kInitializingLabel) := by
      rintro (small | initializing)
      · exact invalid (.inl small)
      · exact invalid (.inr (.inl initializing))
    dsimp only
    cases cached : getCachedExpr s1.caches.lookup label ∅ with
    | mk made deps =>
      cases made with
      | none => exact .inl ⟨rfl, nofun⟩
      | some cond =>
        refine .inr ⟨cond, deps, ?_, rfl⟩
        simp only [serialize, if_neg valid, scanned, cached]

end Z3Branches
