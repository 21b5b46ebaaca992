import SymSan.SearchSteps
import SymSan.SolutionBytes

/-!
# What a successful search has found

Success is declared for cells on which the whole task has distance 0, whichever way
the search took. If every read of the task lies at the beginning of a run of bytes that
`add_results` joins, the bytes of the solution then satisfy every constraint.
-/

namespace DescentSoundness

open RgdAst JigsawTask JigsawCode GradientDescent TaskLayout TaskWiring SolutionBytes
open SearchSteps

universe u

/-! ## Distances -/

lemma satInc_lt (a b : Nat) : satInc a b < 2 ^ 64 := by
  simp only [satInc]
  split <;> omega

lemma satInc_ne_zero {a b : Nat} (nonzero : a ≠ 0 ∨ (b ≠ 0 ∧ b < 2 ^ 64)) : satInc a b ≠ 0 := by
  simp only [satInc]
  split <;> omega

lemma minus_lt (a b : Nat) : minus a b < 2 ^ 64 := Nat.mod_lt _ (by decide)

lemma getDistance_lt (comp : AstKind) {a b : Nat} (smallA : a < 2 ^ 64) (smallB : b < 2 ^ 64) :
    getDistance comp a b < 2 ^ 64 := by
  have wrapped := satInc_lt
  have difference := minus_lt
  have flipped : a ^^^ 1 < 2 ^ 64 := Nat.xor_lt_two_pow smallA (by decide)
  unfold getDistance
  split
  all_goals try split
  all_goals first | exact wrapped _ _ | exact difference _ _ | exact flipped | omega

lemma distanceAfter_lt (k : Constraint × ConsMeta) (scratch : Nat → Nat) :
    distanceAfter k scratch < 2 ^ 64 :=
  getDistance_lt _ (Nat.mod_lt _ (by decide)) (Nat.mod_lt _ (by decide))

section Search

variable {F : Type u} (env : Env F) (t : SearchTask) {cells : Cells} {grads : List (GradUnit F)}

/-- Every constraint has been evaluated on the cells with distance 0. -/
def Accepts (cells : Cells) : Prop :=
  ∀ k, k ∈ t.constraints → ∃ scratch, distanceAfter k (callFn env k cells scratch) = 0

variable {env t} {e : Evaluation} {distances : Distances}

lemma distanceLoop_zero {i : Nat} {ks : List (Constraint × ConsMeta)}
    (zero : (distanceLoop env cells i ks e).res = 0) :
    e.res = 0 ∧ ∀ k ∈ ks, ∃ scratch, distanceAfter k (callFn env k cells scratch) = 0 := by
  induction ks generalizing i e with
  | nil => exact ⟨zero, fun k member => absurd member List.not_mem_nil⟩
  | cons k rest ih =>
    obtain ⟨sum, later⟩ := ih zero
    refine ⟨?_, fun q member => ?_⟩
    · by_contra before
      exact satInc_ne_zero (.inl before) sum
    rcases List.mem_cons.mp member with rfl | inside
    · refine ⟨e.scratch, ?_⟩
      by_contra here
      exact satInc_ne_zero (.inr ⟨here, distanceAfter_lt q _⟩) sum
    · exact later q inside

lemma distanceLoop_spec (env : Env F) (cells : Cells) (i : Nat)
    (ks : List (Constraint × ConsMeta)) (e : Evaluation) :
    (∀ j < i, (distanceLoop env cells i ks e).distances j = e.distances j) ∧
      (∀ j k, ks[j]? = some k → ∃ scratch, (distanceLoop env cells i ks e).distances (i + j) =
        distanceAfter k (callFn env k cells scratch)) ∧
      (distanceLoop env cells i ks e).res = (List.range' i ks.length).foldl
        (fun sum j => satInc sum ((distanceLoop env cells i ks e).distances j)) e.res := by
  induction ks generalizing i e with
  | nil =>
    refine ⟨fun j _ => rfl, ?_, rfl⟩
    rintro j k ⟨⟩
  | cons k rest ih =>
    simp only [distanceLoop]
    generalize made : (⟨_, _, _, _⟩ : Evaluation) = e1
    obtain ⟨before, each, sum⟩ := ih (i + 1) e1
    have here : (distanceLoop env cells (i + 1) rest e1).distances i =
        distanceAfter k (callFn env k cells e.scratch) := by
      rw [before i (Nat.lt_succ_self i), ← made]
      exact Function.update_self ..
    refine ⟨fun j below => ?_, fun j q found => ?_, ?_⟩
    · rw [before j (Nat.lt_succ_of_lt below), ← made]
      exact Function.update_of_ne (Nat.ne_of_lt below) ..
    · cases j with
      | zero =>
        cases found
        exact ⟨e.scratch, here⟩
      | succ j =>
        obtain ⟨scratch, there⟩ := each j q found
        refine ⟨scratch, ?_⟩
        rw [← there, Nat.add_right_comm, Nat.add_assoc]
    · rw [sum, List.length_cons, List.range'_succ, List.foldl_cons, here, ← made]

/-- A constraint outside the remaining ones has kept a distance that is not 0. -/
def Misses (t : SearchTask) (remaining : List Nat) (distances : Distances) : Prop :=
  ∃ i, i < t.constraints.length ∧ i ∉ remaining ∧ distances i ≠ 0 ∧ distances i < 2 ^ 64

lemma singleLoop_misses {is : List Nat} (ordered : is.Pairwise (· < ·))
    (before : e.res ≠ 0 → Misses t is e.distances)
    (missed : (singleLoop env t cells is e).res ≠ 0) :
        Misses t [] (singleLoop env t cells is e).distances := by
  induction is generalizing e with
  | nil => exact before missed
  | cons i rest ih =>
    obtain ⟨above, tail⟩ := List.pairwise_cons.mp ordered
    simp only [singleLoop] at missed ⊢
    cases found : t.constraints[i]? with
    | none =>
      simp only [found] at missed ⊢
      refine ih tail (fun nonzero => ?_) missed
      obtain ⟨j, inRange, notIn, value⟩ := before nonzero
      exact ⟨j, inRange, fun inside => notIn (List.mem_cons_of_mem _ inside), value⟩
    | some k =>
      simp only [found] at missed ⊢
      refine ih tail (fun nonzero => ?_) missed
      by_cases here : distanceAfter k (callFn env k cells e.scratch) = 0
      · have earlier : e.res ≠ 0 := by
          intro zero
          apply nonzero
          simp only [zero, here]
          decide
        obtain ⟨j, inRange, notIn, value⟩ := before earlier
        have other : j ≠ i := fun same => notIn (same ▸ List.mem_cons_self)
        refine ⟨j, inRange, fun inside => notIn (List.mem_cons_of_mem _ inside), ?_⟩
        simp only [Function.update_of_ne other]
        exact value
      · refine ⟨i, (List.getElem?_eq_some_iff.mp found).1, fun inside => ?_, ?_⟩
        · exact absurd (above i inside) (Nat.lt_irrefl i)
        · simp only [Function.update_self]
          exact ⟨here, distanceAfter_lt k _⟩

lemma sumDistances_ne_zero {remaining : List Nat} (missed : Misses t remaining distances) :
    sumDistances t distances ≠ 0 := by
  obtain ⟨i, inRange, -, nonzero, small⟩ := missed
  have partialSum : ∀ n, i < n →
      (List.range n).foldl (fun sum j => satInc sum (distances j)) 0 ≠ 0 := by
    intro n
    induction n with
    | zero => intro lt; exact absurd lt (Nat.not_lt_zero i)
    | succ n ih =>
      intro lt
      rw [List.range_succ, List.foldl_append, List.foldl_cons, List.foldl_nil]
      by_cases last : i = n
      · subst last
        exact satInc_ne_zero (.inr ⟨nonzero, small⟩)
      · exact satInc_ne_zero (.inl (ih (by omega)))
  exact partialSum _ inRange

/-! ## Steps that do not declare success -/

/-- The outcome of the search is unchanged. -/
def SameResult (s s' : Search) : Prop := s'.solved = s.solved ∧ s'.solution = s.solution

lemma SameResult.refl (s : Search) : SameResult s s := ⟨rfl, rfl⟩

lemma SameResult.trans {s1 s2 s3 : Search} (first : SameResult s1 s2)
    (second : SameResult s2 s3) : SameResult s1 s3 :=
  ⟨second.1.trans first.1, second.2.trans first.2⟩

def Probe.search : Probe → Search
  | .lucky _ s => s
  | .stopped _ s => s
  | .value _ s => s

lemma probe_sameResult (env : Env F) (t : SearchTask) (direction : Bool)
    (index f0 fuel delta f : Nat) (cells : Cells)
    (s : Search) :
    SameResult s (Probe.search (probe env t direction index f0 fuel delta f cells s)) := by
  induction fuel generalizing delta f cells s with
  | zero => exact .refl s
  | succ fuel ih =>
    simp only [probe]
    split
    · exact .refl s
    split
    · exact .refl s
    split
    · exact .refl s
    · split
      · exact ih ..
      · exact .refl s

lemma partialDerivative_sameResult (index f0 : Nat) (cells : Cells) (s : Search) :
    SameResult s (partialDerivative env t index f0 cells s).2.2.2 := by
  have up := probe_sameResult env t true index f0 8 1 0 cells s
  simp only [partialDerivative]
  cases first : probe env t true index f0 8 1 0 cells s with
  | lucky c s1 | stopped c s1 =>
    rw [first] at up
    exact up
  | value plus s1 =>
    have up : SameResult s s1 := by
      rw [first] at up
      exact up
    have down := probe_sameResult env t false index f0 8 1 0 cells s1
    cases second : probe env t false index f0 8 1 0 cells s1 with
    | lucky c s2 | stopped c s2 | value minus s2 =>
      rw [second] at down
      simp only [second]
      exact up.trans down

lemma calGradient_sameResult (env : Env F) (t : SearchTask) (f0 index : Nat)
    (grads : List (GradUnit F)) (cells : Cells)
    (s : Search) : SameResult s (calGradient env t f0 index grads cells s).2.2 := by
  induction grads generalizing index cells s with
  | nil => exact .refl s
  | cons g rest ih =>
    simp only [calGradient]
    split
    · exact .refl s
    · exact (partialDerivative_sameResult index f0 cells s).trans (ih ..)

/-! ## Declared solutions -/

/-- A solution that the search declares is good. -/
def Declares (Good : (Nat → Option Nat) → Prop) (s : Search) : Prop :=
  s.solved = true → Good s.solution

variable {Good : (Nat → Option Nat) → Prop}

lemma Declares.of_sameResult {s s' : Search} (declares : Declares Good s)
    (same : SameResult s s') : Declares Good s' := by
  intro solved
  rw [same.2]
  exact declares (same.1 ▸ solved)

def Turn.search : Turn → Search
  | .again d => d.search
  | .leave d => d.search
  | .done _ d => d.search

/-- Between two rounds the loop may put the distances back, and leaves the rest of the
state alone. -/
lemma follows_search {d d' : Descent} (follows : Follows env t grads d d') :
    ∃ distances, d'.search = { Turn.search (turn env t grads d) with distances := distances } := by
  cases follows with
  | again round =>
    rw [round]
    exact ⟨_, rfl⟩
  | next round picked =>
    rw [round]
    simp only [nextDelta, Option.ite_none_left_eq_some] at picked
    obtain ⟨-, -, made⟩ := picked
    cases made
    exact ⟨_, rfl⟩

lemma ends_search {d : Descent} {r : Nat × Cells × Search} (ends : Ends env t grads d r) :
    r.2.2 = Turn.search (turn env t grads d) := by
  cases ends with
  | done round | last round none =>
    rw [round]
    rfl

section Good

variable (good : ∀ cells solution, Accepts env t cells → Good (addResults t cells solution))
  {cells : Cells} {d : Descent} {f fuel : Nat} {q : Point F} {s s' : Search}

include good

lemma succeed_declares (accepts : Accepts env t cells) (s : Search) :
    Declares Good (s.succeed t cells) := fun _ => good cells s.solution accepts

lemma distance_declares (declares : Declares Good s) (cells : Cells) (distances : Distances) :
    Declares Good (distance env t cells distances s).2.2 ∧
      ((distance env t cells distances s).1 = 0 → Accepts env t cells) := by
  have accepted : (distance env t cells distances s).1 = 0 → Accepts env t cells :=
    fun zero => (distanceLoop_zero zero).2
  refine ⟨?_, accepted⟩
  simp only [distance] at accepted ⊢
  split
  next zero =>
    split
    · exact fun solved => absurd solved Bool.false_ne_true
    · exact fun _ => good cells _ (accepted zero)
  · split
    · exact fun solved => absurd solved Bool.false_ne_true
    · exact declares

lemma settle_declares (declares : Declares Good d.search)
    (accepted : f = 0 → Accepts env t d.input) : Declares Good (Turn.search (settle t f d)) := by
  simp only [settle]
  split
  next zero =>
    exact succeed_declares good (accepted zero) _
  · split
    · exact declares
    · exact declares

section

variable (ordered : ∀ j, (t.cmap j).Pairwise (· < ·))

include ordered

lemma turn_declares (grads : List (GradUnit F)) (declares : Declares Good d.search) :
    Declares Good (Turn.search (turn env t grads d)) := by
  simp only [turn]
  split
  · exact declares
  split
  · split
    · exact declares
    split
    · exact declares
    next nonzero =>
      refine settle_declares good declares fun zero => ?_
      exact absurd zero (sumDistances_ne_zero (singleLoop_misses (ordered _)
        (fun contradiction => absurd rfl contradiction) nonzero))
  · obtain ⟨after, accepted⟩ := distance_declares good declares
      (computeDeltaAll env d.step 0 grads d.input) d.search.distances
    exact settle_declares good after accepted

lemma descendLoop_declares (grads : List (GradUnit F)) (declares : Declares Good d.search)
    (h : descendLoop env t grads fuel d = some (f, cells, s)) : Declares Good s := by
  refine descendLoop_rule (P := fun d _ r => Declares Good d.search → Declares Good r.2.2)
    ?_ ?_ h declares
  · intro d d' es r follows rest before
    obtain ⟨_, same⟩ := follows_search follows
    apply rest
    rw [same]
    exact turn_declares good ordered grads before
  · intro d r ends before
    rw [ends_search ends]
    exact turn_declares good ordered grads before

lemma descend_declares {fuel : Nat} {inputMin : Cells} {f0 : Nat} {grads : List (GradUnit F)}
    {s : Search} (declares : Declares Good s) {f : Nat} {cells : Cells} {s' : Search}
    (h : descend env t fuel inputMin f0 grads s = some (f, cells, s')) : Declares Good s' := by
  obtain ⟨after, accepted⟩ :=
    distance_declares good declares (jump env inputMin f0 grads) s.distances
  rcases descend_step env t inputMin f0 grads s with ⟨d, es, starts, step⟩ | ⟨zero, step⟩
  · rw [(step fuel).1] at h
    refine descendLoop_declares good ordered grads ?_ h
    cases starts with
    | flat => exact declares
    | back | ahead => exact after
  · rw [(step fuel).1] at h
    cases h
    exact succeed_declares good (accepted zero) _

end

lemma tryI2s_declares (declares : Declares Good s) (inputMin : Cells) (f0 : Nat) :
    Declares Good (tryI2s env t inputMin f0 s).2.2 := by
  have after : ∀ scratch cells, Declares Good
      (distance env t cells s.distances { s with scratchArgs := scratch }).2.2 := by
    intro scratch cells
    have before : Declares Good { s with scratchArgs := scratch } := declares
    exact (distance_declares good before cells s.distances).1
  simp only [tryI2s]
  split
  · split
    · exact after _ _
    · exact after _ _
  · exact declares

lemma repickStartPoint_declares (declares : Declares Good s) :
    Declares Good (repickStartPoint env t s).2.2 := by
  have before : Declares Good { s with restarts := s.restarts + 1 } := declares
  exact (distance_declares good before _ _).1

lemma reloadInput_declares (declares : Declares Good s) :
    Declares Good (reloadInput env t s).2.2 :=
  (distance_declares good declares _ _).1

lemma repicked_declares (declares : Declares Good q.search) :
    Declares Good (repicked env t q).search :=
  tryI2s_declares good (repickStartPoint_declares good declares) _ _

lemma restart_declares (rounds : Nat) (declares : Declares Good q.search) :
    Declares Good (restart env t rounds q).2.search := by
  refine restart_rule env t (P := fun q _ p => Declares Good q.search → Declares Good p.search)
    ?_ ?_ ?_ rounds q declares
  · intro q before
    exact before
  · intro q _ _ before
    exact repicked_declares good before
  · intro q es p _ _ rest before
    exact rest ((repicked_declares good before).of_sameResult (calGradient_sameResult ..))

lemma restarted_declares (declares : Declares Good q.search) :
    Declares Good (restarted env t q).search :=
  restart_declares good _ (declares.of_sameResult (calGradient_sameResult ..))

lemma epochs_declares (ordered : ∀ j, (t.cmap j).Pairwise (· < ·))
    (declares : Declares Good q.search) (h : epochs env t fuel q = some s) : Declares Good s := by
  refine epochs_rule (P := fun q _ s => Declares Good q.search → Declares Good s)
    ?_ ?_ ?_ h declares
  · intro q _ before
    exact before
  · intro q _ before
    exact restarted_declares good before
  · intro q fuel q' es s _ _ lower rest before
    refine rest (descend_declares good ordered ?_ (lowered_some lower).1)
    exact restarted_declares good before

lemma gdEntry_declares (ordered : ∀ j, (t.cmap j).Pairwise (· < ·)) (fresh : s.solved = false)
    (h : gdEntry env t fuel s = some (true, s')) : Good s'.solution := by
  have start : Declares Good { s with attempts := 0 } := by
    intro solved
    exact absurd (fresh.symm.trans solved) Bool.false_ne_true
  have tried : Declares Good (opened env t s).search :=
    tryI2s_declares good (reloadInput_declares good start) _ _
  rcases gdEntry_step env t s with ⟨-, step⟩ | ⟨-, step⟩ | ⟨-, step⟩
  · rw [(step fuel).1] at h
    obtain ⟨solved, same⟩ := Prod.mk.inj (Option.some.inj h)
    rw [← same]
    exact tried solved
  · rw [(step fuel).1] at h
    cases h
  rw [(step fuel).1] at h
  obtain ⟨_, searched, done⟩ := Option.map_eq_some_iff.mp h
  obtain ⟨solved, same⟩ := Prod.mk.inj done
  rw [← same]
  exact epochs_declares good ordered tried searched solved

end Good

end Search

/-! ## Verified solutions -/

section Verified

variable {F : Type u} (env : Env F)

/-- Every constraint has distance 0 when its function is evaluated again on the bytes of
the solution, whatever is left in the argument array. -/
def Verified (t : SearchTask) (solution : Nat → Option Nat) : Prop :=
  ∀ k, k ∈ t.constraints → ∀ scratch,
    distanceAfter k (callFn env k (bytesOf t solution) scratch) = 0

/-- A constraint with its relational operator as it is handed to a task. -/
structure Built (p : Constraint × AstKind) : Prop where
  indexed : Indexed p.1.args
  words : ConstantWords p.1
  compiles : Compiles env.machine p.1
  relational : isRelationalKind p.2 = true → isRelationalKind p.1.ast.kind = true

variable {env}

lemma accepts_verified {t : SearchTask} {runs : List (Nat × Nat)} (followed : Followed t runs)
    (distinct : ∀ x i j, IsCell t x i → IsCell t x j → i = j)
    (made : ∀ k ∈ t.constraints, Built env (k.1, k.2.comparison) ∧ Routed t k) {cells : Cells}
    (accepts : Accepts env t cells) (solution : Nat → Option Nat) :
    Verified env t (addResults t cells solution) := by
  intro k member scratch'
  obtain ⟨scratch, zero⟩ := accepts k member
  obtain ⟨built, routed⟩ := made k member
  have leaves := sameLeaves_bytes distinct followed member routed built.words cells solution
    scratch scratch'
  obtain ⟨first, second⟩ := fn_congr built.compiles leaves
  rw [← zero]
  simp only [distanceAfter, callFn, first]
  cases relational : isRelationalKind k.2.comparison with
  | true => rw [second (built.relational relational)]
  | false =>
    generalize k.2.comparison = comp at relational ⊢
    cases comp <;> first | rfl | cases relational

end Verified

/-! ## A word and a byte -/

/-- Exact fractions as numerator and denominator. -/
def fractions : Doubles (Nat × Nat) where
  zero := (0, 1)
  ofNat n := (n, 1)
  mul a b := (a.1 * b.1, a.2 * b.2)
  div a b := (a.1 * b.2, a.2 * b.1)
  toNat a := a.1 / a.2
  positive a := decide (0 < a.1)
  small a := decide (100 * a.1 < a.2)

def fractionEnv : Env (Nat × Nat) :=
  ⟨leavingMachine, fractions, fun _ _ => 0, fun _ => 0⟩

def initialBytes : Nat → BitVec 8 := fun i => if i = 0 then 250 else if i = 2 then 7 else 0

/-- The 16-bit word at offset 0 plus 1 is compared with a value. -/
def wordConstraint (value : Nat) : Constraint where
  ast := .node2 ⟨.equal, 16, 0, 0, 5, 0⟩
    (.node2 ⟨.add, 16, 0, 0, 4, 0⟩
      (.leaf ⟨.read, 16, 0, 0, 3, 0⟩) (.leaf ⟨.constant, 16, 2, 0, 0, 0⟩))
    (.leaf ⟨.constant, 16, 3, 0, 0, 0⟩)
  args := ((mapArg initialBytes 0 2 .empty).pushConst 1).pushConst value

/-- The byte at an offset is compared with a value. -/
def byteConstraint (offset value : Nat) : Constraint where
  ast := .node2 ⟨.equal, 8, 0, 0, 6, 0⟩
    (.leaf ⟨.read, 8, offset, 0, 2, 0⟩) (.leaf ⟨.constant, 8, 1, 0, 0, 0⟩)
  args := (mapArg initialBytes offset 1 .empty).pushConst value

def newSearch : Search :=
  ⟨fun _ => 0, fun _ => 0, fun _ => 0, fun _ => (0, 0), false, false, 0, fun _ => none, 0⟩

lemma wordConstraint_built (value : Nat) : Built fractionEnv (wordConstraint value, .equal) := by
  refine ⟨indexed_kept.const value _ (indexed_kept.const 1 _ (indexed_kept.read _ 0 2 _
    indexed_empty)), ?_, fun args => rfl, fun _ => rfl⟩
  intro d member isConstant k lt
  simp only [wordConstraint, allData, List.cons_append, List.nil_append, List.mem_cons,
    List.not_mem_nil, or_false] at member
  rcases member with rfl | rfl | rfl | rfl | rfl
  · cases isConstant
  · cases isConstant
  · cases isConstant
  all_goals
    obtain rfl : k = 0 := by
      simp only at lt
      omega
    rfl

lemma byteConstraint_built (offset value : Nat) :
    Built fractionEnv (byteConstraint offset value, .equal) := by
  have found : (byteConstraint offset value).args.localMap.find offset = some 0 := if_pos rfl
  refine ⟨indexed_kept.const value _ (indexed_kept.read _ offset 1 _ indexed_empty), ?_, ?_,
    fun _ => rfl⟩
  · intro d member isConstant k lt
    simp only [byteConstraint, allData, List.cons_append, List.nil_append, List.mem_cons,
      List.not_mem_nil, or_false] at member
    rcases member with rfl | rfl | rfl
    · cases isConstant
    · cases isConstant
    · obtain rfl : k = 0 := by
        simp only at lt
        omega
      rfl
  · intro args
    have read : nullary (byteConstraint offset value).args.localMap args
        ⟨.read, 8, offset, 0, 2, 0⟩ = some ⟨8, readBytes args 2 8 0⟩ := by
      simp only [nullary, found]
      rfl
    have left : codegen fractionEnv.machine (byteConstraint offset value).args.localMap args
        ((byteConstraint offset value).ast.child 0) (fun _ => none) =
        some (⟨8, readBytes args 2 8 0⟩,
          Function.update (fun _ => none) 2 (some ⟨8, readBytes args 2 8 0⟩)) := by
      change cached _ _ ((nullary (byteConstraint offset value).args.localMap args
        ⟨.read, 8, offset, 0, 2, 0⟩).map _) = _
      rw [read]
      rfl
    simp only [operands, left]
    rfl

/-! ## Soundness -/

end DescentSoundness
