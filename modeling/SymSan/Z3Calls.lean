import SymSan.Z3Errors

/-!
# Contents, indices and tasks of the Z3 parser

`read_concrete` counts bytes in 8 bits and does not return for a content of 256 bytes.
`add_constraints_as_task` takes the stored task out before the translation that can fail, and
puts it back, under a new number, only if nothing has failed.
-/

namespace Z3Calls

open LabelTable BitTerms Z3Parser Z3Branches Z3Nested Z3Errors LittleEndian
open Z3Sorts (labelSort)

/-! ## `read_concrete` -/

/-- The loop of `read_concrete` from byte `i` on; no result if the rounds run out. -/
def readLoop (bytes : Nat → BitVec 8) (size : Nat) : Nat → Nat → Expr Name → Option (Expr Name)
  | 0, _, _ => none
  | rounds + 1, i, val =>
    if i < size then
      ((Expr.num (bytes i).toNat 8).bind fun b => b.concat val).bind
        (readLoop bytes size rounds ((i + 1) % 2 ^ 8))
    else some val

/-- The content as one number of `8 * n` bits. -/
def Spells (bytes : Nat → BitVec 8) (n : Nat) (e : Expr Name) : Prop :=
  e.sort = .bv (8 * n) ∧ ∀ env, e.value env = word (fun i => (bytes i).toNat) n

section Contents

variable {bytes : Nat → BitVec 8} {size rounds i : Nat} {val : Expr Name}

lemma Spells.first (bytes : Nat → BitVec 8) :
    ∃ val, Expr.num (bytes 0).toNat 8 = some val ∧ Spells bytes 1 val := by
  obtain ⟨val, made⟩ : ∃ val : Expr Name, Expr.num (bytes 0).toNat 8 = some val := ⟨_, rfl⟩
  obtain ⟨-, sort, value⟩ := Expr.num_some made
  refine ⟨val, made, sort, fun env => ?_⟩
  rw [value, word_one, Nat.mod_eq_of_lt (bytes 0).isLt]

lemma Spells.next (spells : Spells bytes i val) :
    ∃ out, ((Expr.num (bytes i).toNat 8).bind fun b => b.concat val) = some out ∧
      Spells bytes (i + 1) out := by
  obtain ⟨b, made⟩ : ∃ b : Expr Name, Expr.num (bytes i).toNat 8 = some b := ⟨_, rfl⟩
  obtain ⟨-, byteSort, byte⟩ := Expr.num_some made
  obtain ⟨sort, value⟩ := spells
  obtain ⟨out, joined⟩ : ∃ out, b.concat val = some out := by
    cases b
    cases val
    cases byteSort
    cases sort
    exact ⟨_, rfl⟩
  obtain ⟨w, _, sort1, sort2, outSort, whole⟩ := Expr.concat_some joined
  cases byteSort.symm.trans sort1
  cases sort.symm.trans sort2
  refine ⟨out, by rw [made]; exact joined, by rw [outSort]; congr 1; omega, fun env => ?_⟩
  rw [whole, byte, value, word_succ, Nat.mod_eq_of_lt (bytes i).isLt, two_pow_mul_eight]

lemma readConcrete_succ (short : i + 2 < 256) :
    readConcrete (some bytes) (i + 2) = (readConcrete (some bytes) (i + 1)).bind fun val =>
      (Expr.num (bytes (i + 1)).toNat 8).bind fun b => b.concat val := by
  simp [readConcrete, List.range_succ, show ¬256 ≤ i + 2 by omega, show ¬256 ≤ i + 1 by omega]

lemma readLoop_spells (spells : Spells bytes (i + 1) val)
    (read : readConcrete (some bytes) (i + 1) = some val) (le : i + 1 ≤ size)
    (short : size < 256) (enough : size ≤ i + rounds) :
    ∃ e, readLoop bytes size rounds (i + 1) val = some e ∧
      readConcrete (some bytes) size = some e ∧ Spells bytes size e := by
  induction rounds generalizing i val with
  | zero => omega
  | succ rounds ih =>
    by_cases more : i + 1 < size
    · obtain ⟨_, joined, next⟩ := spells.next
      simp only [readLoop, if_pos more, joined]
      rw [Nat.mod_eq_of_lt (by omega)]
      refine ih next ?_ more (by omega)
      rw [readConcrete_succ (by omega), read]
      exact joined
    · cases Nat.le_antisymm le (by omega)
      exact ⟨val, by simp [readLoop], read, spells⟩

lemma readLoop_endless (long : 256 ≤ size) (lt : i < 256) :
    readLoop bytes size rounds i val = none := by
  induction rounds generalizing i val with
  | zero => rfl
  | succ rounds ih =>
    simp only [readLoop, if_pos (show i < size by omega)]
    cases made : (Expr.num (bytes i).toNat 8).bind fun b => b.concat val with
    | none => rfl
    | some out => exact ih (Nat.mod_lt _ (by decide))

end Contents

/-- A content is read completely if and only if it has between 1 and 255 bytes: longer ones
are read for ever, and an empty one is taken for one byte. -/
theorem readConcrete_complete_iff (bytes : Nat → BitVec 8) (size : Nat) :
    (∃ rounds first e, Expr.num (bytes 0).toNat 8 = some first ∧
        readLoop bytes size rounds 1 first = some e ∧
        readConcrete (some bytes) size = some e ∧ Spells bytes size e) ↔
      1 ≤ size ∧ size < 256 := by
  obtain ⟨first, start, one⟩ := Spells.first bytes
  constructor
  · rintro ⟨rounds, val, e, made, read, -, sort, -⟩
    cases start.symm.trans made
    constructor
    · by_contra zero
      cases rounds with
      | zero => cases read
      | succ rounds =>
        simp only [readLoop, if_neg (show ¬1 < size by omega)] at read
        cases read
        have width := sort.symm.trans one.1
        simp only [Srt.bv.injEq] at width
        omega
    · by_contra long
      rw [readLoop_endless (by omega) (by decide)] at read
      cases read
  · rintro ⟨pos, short⟩
    obtain ⟨e, read⟩ := readLoop_spells one start pos short (show size ≤ 0 + 256 by omega)
    exact ⟨256, first, e, start, read⟩

/-- The loop over a content of 256 bytes. -/
theorem readConcrete_never_ends :
    ¬ ∃ rounds e, (Expr.num 0 8).bind (readLoop (fun _ => 0) 256 rounds 1) = some e := by
  rintro ⟨rounds, e, ended⟩
  cases (readLoop_endless (by decide) (by decide)).symm.trans ended

/-! ## `add_constraints_as_task` -/

structure Store where
  state : State
  tasks : Nat → Option (List (Expr Name))
  prevTaskId : Nat

/-- How a call ends: 0 with a constraint, -1 at the check of the label or after an exception
of Z3, or not in the function. -/
inductive Reply where
  | added (constraint : Expr Name)
  | invalid
  | failed
  | escapes

/-- The check of the label at the start. -/
def Refused (σ : Setting) (label : Nat) : Prop :=
  label < 1 ∨ label = kInitializingLabel ∨ σ.parser.size ≤ label

instance (σ : Setting) (label : Nat) : Decidable (Refused σ label) :=
  inferInstanceAs (Decidable (_ ∨ _))

def addConstraintsAsTask (σ : Setting) (t : Store) (label result id : Nat) : Reply × Nat × Store :=
  if Refused σ label then (.invalid, id, t)
  else
    let task := (t.tasks id).getD []
    let rest := Function.update t.tasks id none
    match scan σ.parser (label + 1 - t.state.caches.exprs.length) t.state with
    | (some .z3, s) => (.failed, id, ⟨s, rest, t.prevTaskId⟩)
    | (some _, s) => (.escapes, id, ⟨s, rest, t.prevTaskId⟩)
    | (none, s) =>
      match getCachedExpr s.caches.lookup label ∅ with
      | (none, _) => (.failed, id, ⟨s, rest, t.prevTaskId⟩)
      | (some e, inputs) =>
        match collectMoreDeps σ s inputs with
        | .closed inputs =>
          match (Expr.num result ((σ.parser.info label).size % 2 ^ 8)).bind fun r =>
            e.equal (if e.sort = .bool then .truth (result ≠ 0) else r) with
          | some c => (.added c, t.prevTaskId, ⟨saveConstraint s c inputs,
              Function.update rest t.prevTaskId (some (task ++ [c])), t.prevTaskId + 1⟩)
          | none => (.failed, id, ⟨s, rest, t.prevTaskId⟩)
        | _ => (.escapes, id, ⟨s, rest, t.prevTaskId⟩)

def addAll (σ : Setting) : List (Nat × Nat) → Nat → Store → List Reply × Nat × Store
  | [], id, t => ([], id, t)
  | (label, result) :: calls, id, t =>
    let (reply, id, t) := addConstraintsAsTask σ t label result id
    let (replies, out) := addAll σ calls id t
    (reply :: replies, out)

/-- What a reply leaves of the constraints stored so far. -/
def Reply.leaves (task : List (Expr Name)) : Reply → List (Expr Name)
  | .added c => task ++ [c]
  | .invalid => task
  | .failed | .escapes => []

def Reply.constraint : Reply → Option (Expr Name)
  | .added c => some c
  | .invalid | .failed | .escapes => none

/-- What the translation of a label needs: sorts for all labels up to it, bytes inside the inputs,
and a width that is that of the result. -/
structure Fit (σ : Setting) (known : Nat → Bool) (label : Nat) : Prop where
  sorted : ∀ k, 1 ≤ k → k ≤ label → (labelSort σ.parser known k).1.isSome = true
  inside : ∀ off, off ∈ (labelSort σ.parser known label).2 → off ∈ offsets σ.inputs
  width : (σ.parser.info label).size % 2 ^ 8 ≠ 0
  sort : (labelSort σ.parser known label).1 = some (some .bool) ∨
    (labelSort σ.parser known label).1 = some (some (.bv ((σ.parser.info label).size % 2 ^ 8)))

section Tasks

variable {σ : Setting} {t : Store}

/-- What is stored afterwards. A call that does not add a constraint leaves the id. -/
lemma addConstraintsAsTask_leaves (σ : Setting) (t : Store) (label result id : Nat) :
    let out := addConstraintsAsTask σ t label result id
    (out.2.2.tasks out.2.1).getD [] = out.1.leaves ((t.tasks id).getD []) ∧
      (out.1.constraint = none → out.2.1 = id ∧ (Refused σ label ∨ out.2.2.tasks id = none)) := by
  simp only [addConstraintsAsTask]
  repeat' split
  all_goals simp [Reply.leaves, Reply.constraint, *]

lemma comparison_isSome {e : Expr Name} {size result : Nat} :
    (∃ c, ((Expr.num result size).bind fun r =>
      e.equal (if e.sort = .bool then .truth (result ≠ 0) else r)) = some c) ↔
      size ≠ 0 ∧ (e.sort = .bool ∨ e.sort = .bv size) := by
  have compared : ∀ b : Expr Name, (∃ c, e.equal b = some c) ↔ b.sort = e.sort := by
    intro b
    rw [Expr.equal]
    split
    · next same => simp [same]
    · next other => simp [other]
  by_cases zero : size = 0
  · simp [Expr.num, zero]
  obtain ⟨r, made⟩ : ∃ r : Expr Name, Expr.num result size = some r := ⟨_, if_neg zero⟩
  rw [made, Option.bind_some, compared]
  by_cases bool : e.sort = .bool
  · simp [bool, zero, Expr.truth]
  · simp [bool, zero, (Expr.num_some made).2.1, eq_comm]

/-- Behind the check a call adds a constraint if and only if its label is fit. -/
lemma addConstraintsAsTask_fit (aligned : Aligned σ.parser t.state)
    (contained : Contained σ t.state) {label : Nat} (valid : ¬Refused σ label) (result id : Nat) :
    let out := addConstraintsAsTask σ t label result id
    (Fit σ (known t.state) label ∧ (∃ c, out.1 = .added c) ∧ Aligned σ.parser out.2.2.state ∧
      Contained σ out.2.2.state ∧ known out.2.2.state = known t.state) ∨
    (¬Fit σ (known t.state) label ∧ (out.1 = .failed ∨ out.1 = .escapes)) := by
  rw [addConstraintsAsTask, if_neg valid]
  rcases scan_upTo aligned contained label with
    ⟨sorted, s, scanned, after, inside, same, sort⟩ | ⟨⟨k, low, high, missing⟩, f, s, scanned, -⟩
  case inr =>
    have unfit : ¬Fit σ (known t.state) label := by
      intro fit
      have made := fit.sorted k low high
      rw [missing] at made
      cases made
    simp only [scanned]
    cases f with
    | z3 => exact .inr ⟨unfit, .inl rfl⟩
    | outOfRange | endless => exact .inr ⟨unfit, .inr rfl⟩
  simp only [scanned]
  cases cached : s.caches.exprs.getD label none with
  | none =>
    rw [cached] at sort
    have call : getCachedExpr s.caches.lookup label ∅ = (none, ∅) := by
      simp only [getCachedExpr, Caches.lookup, cached]
      rfl
    rw [call]
    refine .inr ⟨fun fit => ?_, .inl rfl⟩
    have wide := fit.sort
    simp [sort] at wide
  | some e =>
    rw [cached] at sort
    have fit_iff : Fit σ (known t.state) label ↔
        (∀ off ∈ s.caches.deps.getD label ∅, off ∈ offsets σ.inputs) ∧
          (σ.parser.info label).size % 2 ^ 8 ≠ 0 ∧
          (e.sort = .bool ∨ e.sort = .bv ((σ.parser.info label).size % 2 ^ 8)) := by
      constructor
      · rintro ⟨-, own, width, wide⟩
        rw [sort] at own wide
        exact ⟨own, width, by simpa using wide⟩
      · rintro ⟨own, width, wide⟩
        refine ⟨sorted, ?_, width, ?_⟩
        · rw [sort]
          exact own
        · rw [sort]
          simpa using wide
    have call : getCachedExpr s.caches.lookup label ∅ = (some e, s.caches.deps.getD label ∅) :=
      Z3Soundness.getCachedExpr_some.mpr
        ⟨_, by rw [Caches.lookup, cached]; rfl, Finset.empty_union _⟩
    rw [call]
    rcases collectMoreDeps_contained inside (s.caches.deps.getD label ∅) with
      ⟨own, final, closed, bytes⟩ | ⟨⟨off, inDeps, outside⟩, refused⟩
    · simp only [closed]
      cases compared : (Expr.num result ((σ.parser.info label).size % 2 ^ 8)).bind fun r =>
        e.equal (if e.sort = .bool then .truth (result ≠ 0) else r) with
      | none =>
        refine .inr ⟨fun fit => ?_, .inl rfl⟩
        obtain ⟨c, made⟩ := comparison_isSome.mpr (fit_iff.mp fit).2
        rw [compared] at made
        cases made
      | some c =>
        refine .inl ⟨fit_iff.mpr ⟨own, comparison_isSome.mp ⟨c, compared⟩⟩, ⟨c, rfl⟩, ?_, ?_, same⟩
        · exact after.frame rfl rfl
        · exact inside.save bytes c
    · simp only [refused]
      exact .inr ⟨fun fit => outside ((fit_iff.mp fit).1 off inDeps), .inr trivial⟩

/-- Constraints are lost only with all that were stored before them. -/
lemma leaves_length (replies : List Reply) (task : List (Expr Name)) :
    (replies.foldl Reply.leaves task).length ≤
      task.length + (replies.filterMap Reply.constraint).length := by
  induction replies generalizing task with
  | nil => simp
  | cons reply replies ih =>
    have rest := ih (reply.leaves task)
    cases reply with
    | added c =>
      simp only [List.foldl_cons, Reply.leaves, List.length_append, List.length_singleton] at rest ⊢
      simp only [List.filterMap_cons, Reply.constraint, List.length_cons]
      omega
    | invalid => exact rest
    | failed | escapes =>
      simp only [List.foldl_cons, Reply.leaves, List.length_nil, Nat.zero_add] at rest ⊢
      simp only [List.filterMap_cons, Reply.constraint]
      omega

lemma addAll_leaves (σ : Setting) (calls : List (Nat × Nat)) (id : Nat) (t : Store) :
    let out := addAll σ calls id t
    (out.2.2.tasks out.2.1).getD [] = out.1.foldl Reply.leaves ((t.tasks id).getD []) := by
  induction calls generalizing id t with
  | nil => rfl
  | cons call calls ih =>
    have step := (addConstraintsAsTask_leaves σ t call.1 call.2 id).1
    simp only [addAll]
    generalize addConstraintsAsTask σ t call.1 call.2 id = out at step ⊢
    have rest := ih out.2.1 out.2.2
    rw [step] at rest
    exact rest

end Tasks

/-- After every run a call that fails leaves the id and, behind the check of its label, nothing
stored. If all labels that pass the check are fit, the stored task has all constraints in order, and
once something is stored this is needed too. -/
theorem stored_task_of_calls (σ : Setting) (calls : List (Nat × Nat)) (id : Nat) (t : Store)
    (aligned : Aligned σ.parser t.state) (contained : Contained σ t.state) :
    let out := addAll σ calls id t
    let complete := (out.2.2.tasks out.2.1).getD [] =
      (t.tasks id).getD [] ++ out.1.filterMap Reply.constraint
    let fit := ∀ call ∈ calls, Refused σ call.1 ∨ Fit σ (known t.state) call.1
    (∀ label result, let next := addConstraintsAsTask σ out.2.2 label result out.2.1
      next.1.constraint = none →
        next.2.1 = out.2.1 ∧ (Refused σ label ∨ next.2.2.tasks next.2.1 = none)) ∧
    (fit → complete) ∧ ((t.tasks id).getD [] ≠ [] → complete → fit) := by
  refine ⟨fun label result fails => ?_, ?_⟩
  · obtain ⟨same, lost⟩ := (addConstraintsAsTask_leaves σ (addAll σ calls id t).2.2 label result
      (addAll σ calls id t).2.1).2 fails
    rw [same]
    exact ⟨rfl, lost⟩
  induction calls generalizing id t with
  | nil => exact ⟨fun _ => (List.append_nil _).symm, fun _ _ => nofun⟩
  | cons call calls ih =>
    simp only [addAll, List.forall_mem_cons]
    by_cases refused : Refused σ call.1
    · have kept : addConstraintsAsTask σ t call.1 call.2 id = (.invalid, id, t) := if_pos refused
      obtain ⟨all, back⟩ := ih id t aligned contained
      simp only [kept, refused, true_or, true_and]
      exact ⟨all, back⟩
    have step := (addConstraintsAsTask_leaves σ t call.1 call.2 id).1
    have behind := addConstraintsAsTask_fit aligned contained refused call.2 id
    generalize addConstraintsAsTask σ t call.1 call.2 id = out at step behind ⊢
    rcases behind with ⟨fit, ⟨c, added⟩, aligned', contained', same⟩ | ⟨unfit, failed⟩
    · obtain ⟨all, back⟩ := ih out.2.1 out.2.2 aligned' contained'
      rw [added] at step
      rw [step, same] at all back
      simp only [Reply.leaves, List.append_assoc, List.singleton_append] at all back
      simp only [added, List.filterMap_cons, Reply.constraint, refused, false_or, fit, true_and]
      exact ⟨all, fun _ => back (by simp)⟩
    · refine ⟨fun fits => absurd (fits.1.resolve_left refused) unfit, fun stored complete => ?_⟩
      have lost : (out.2.2.tasks out.2.1).getD [] = [] ∧ out.1.constraint = none := by
        rw [step]
        rcases failed with failed | failed
        all_goals
          rw [failed]
          exact ⟨rfl, rfl⟩
      obtain ⟨emptied, none⟩ := lost
      -- what was stored cannot come back
      have final := addAll_leaves σ calls out.2.1 out.2.2
      have short := leaves_length (addAll σ calls out.2.1 out.2.2).1 []
      rw [emptied] at final
      simp only [List.filterMap_cons, none] at complete
      rw [← final, complete, List.length_append, List.length_nil] at short
      have none : ((t.tasks id).getD []).length ≤ 0 := Nat.le_of_add_le_add_right short
      exact absurd (List.length_pos_iff.mpr stored) (Nat.not_lt_of_le none)

/-- Two bytes, and a memory comparison of the first one that has no content. -/
def twoBytes : Setting := oneInput [⟨0, 0, 0, 0, .input, 8, 0⟩, ⟨0, 0, 1, 0, .input, 8, 0⟩,
  ⟨0, 1, 0, 0, .fmemcmp, 1, 0⟩]

/-- Both bytes are constrained, and a memory comparison that then throws empties the task. -/
theorem stored_task_of_calls_two :
    let out := addAll twoBytes [(1, 65), (2, 66)] 0 ⟨restart, fun _ => none, 0⟩
    let next := addConstraintsAsTask twoBytes out.2.2 3 1 out.2.1
    ((out.2.2.tasks out.2.1).getD []).length = 2 ∧ next.2.1 = out.2.1 ∧
      next.2.2.tasks next.2.1 = none := by
  intro out next
  obtain ⟨fails, complete, -⟩ := stored_task_of_calls twoBytes [(1, 65), (2, 66)] 0
    ⟨restart, fun _ => none, 0⟩ (restart_aligned _) nofun
  have fit : ∀ call ∈ [(1, 65), (2, 66)],
      Refused twoBytes call.1 ∨ Fit twoBytes (known restart) call.1 := by
    have sorted : ∀ k, k < 3 → (labelSort twoBytes.parser (known restart) k).1.isSome = true := by
      decide +kernel
    have first : Fit twoBytes (known restart) 1 := ⟨fun k _ le => sorted k (by omega),
      by decide +kernel, by decide +kernel, .inr (by decide +kernel)⟩
    have second : Fit twoBytes (known restart) 2 := ⟨fun k _ le => sorted k (by omega),
      by decide +kernel, by decide +kernel, .inr (by decide +kernel)⟩
    simp [first, second]
  obtain ⟨same, lost⟩ := fails 3 1 (by decide +kernel)
  refine ⟨?_, same, lost.resolve_left (by decide)⟩
  rw [complete fit]
  decide +kernel

/-- The constraint on the first byte is lost when the memory comparison throws. -/
theorem failed_call_loses_task :
    let out := addAll twoBytes [(1, 65), (3, 1)] 0 ⟨restart, fun _ => none, 0⟩
    out.1.map (·.constraint.isSome) = [true, false] ∧ out.2.2.tasks out.2.1 = none := by
  decide +kernel

end Z3Calls
