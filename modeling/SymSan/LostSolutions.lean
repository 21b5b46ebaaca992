import SymSan.SearchCosts

/-!
# Solutions that a search meets

A full evaluation within the limit that finds a solution ends the search with success, on
every way that leads to it. An incremental evaluation does not: `partial_derivative` returns
with the cell moved and the gradient 0, and the descent for one cell goes on to the next
one. A search that meets a solution in that way may return without it.
-/

namespace LostSolutions

open JigsawTask JigsawCode GradientDescent SearchTrace SearchSteps SearchCosts
open DescentSoundness (Turn.search follows_search ends_search distanceLoop_spec fractionEnv
  newSearch)

universe u

section Search

variable {F : Type u} (env : Env F) (t : SearchTask) {cells inputMin : Cells} {d : Descent}
  {grads : List (GradUnit F)} {es : List Event} {a f f0 fuel index : Nat} {q : Point F}
  {s s' : Search}

/-- All constraints have distance 0 on the cells. -/
def Solution (cells : Cells) : Prop :=
  ∀ k, k ∈ t.constraints → ∀ scratch, distanceAfter k (callFn env k cells scratch) = 0

/-- The candidate of an incremental evaluation. -/
def incremental : Event → Option Cells
  | .probe _ cells _ => some cells
  | .step _ cells => some cells
  | _ => none

/-- The candidate of an evaluation. A full one counts as an attempt itself, which has to be
within the limit. -/
def candidate : Event → Option Cells
  | .full cells attempts => if attempts + 1 ≤ maxExecTimes then some cells else none
  | e => incremental e

/-- A full evaluation within the limit was on a solution. -/
def Found (es : List Event) : Prop :=
  ∃ cells a, .full cells a ∈ es ∧ a + 1 ≤ maxExecTimes ∧ Solution env t cells

def Solved (s : Search) : Prop := s.stopped = true ∧ s.solved = true

variable {env t} {e : Event}

lemma found_append {es' : List Event} :
    Found env t (es ++ es') ↔ Found env t es ∨ Found env t es' := by
  simp only [Found, List.mem_append, or_and_right, exists_or]

lemma found_nil : ¬ Found env t [] := by
  rintro ⟨cells, a, ⟨⟩, -⟩

lemma found_cons : Found env t (e :: es) ↔ Found env t [e] ∨ Found env t es := by
  rw [← found_append, List.singleton_append]

lemma found_full : Found env t [.full cells a] ↔ a + 1 ≤ maxExecTimes ∧ Solution env t cells := by
  simp [Found, and_assoc]

/-! ## Evaluations -/

lemma sum_zero {js : List Nat} {distances : Distances} (zero : ∀ j ∈ js, distances j = 0) :
    js.foldl (fun sum j => satInc sum (distances j)) 0 = 0 := by
  induction js with
  | nil => rfl
  | cons j rest ih =>
    rw [List.foldl_cons, zero j List.mem_cons_self]
    exact ih fun m member => zero m (List.mem_cons_of_mem _ member)

lemma distance_solution (solution : Solution env t cells) (distances : Distances)
    (within : s.attempts + 1 ≤ maxExecTimes) :
    (distance env t cells distances s).1 = 0 ∧
      (∀ j < t.constraints.length, (distance env t cells distances s).2.1 j = 0) ∧
      Solved (distance env t cells distances s).2.2 := by
  obtain ⟨-, each, total⟩ := distanceLoop_spec env cells 0 t.constraints
    ⟨s.scratchArgs, distances, s.operands, 0⟩
  have zero : ∀ j < t.constraints.length,
      (distanceLoop env cells 0 t.constraints ⟨s.scratchArgs, distances, s.operands, 0⟩).distances
        j = 0 := by
    intro j below
    obtain ⟨scratch, value⟩ := each j _ (List.getElem?_eq_getElem below)
    rw [Nat.zero_add] at value
    rw [value]
    exact solution _ (List.getElem_mem below) scratch
  have sum : (distanceLoop env cells 0 t.constraints
      ⟨s.scratchArgs, distances, s.operands, 0⟩).res = 0 := by
    rw [total]
    apply sum_zero
    intro j member
    obtain ⟨k, _, _⟩ := List.mem_range'.mp member
    exact zero j (by omega)
  refine ⟨sum, zero, ?_⟩
  simp only [distance, sum]
  rw [if_neg]
  · exact ⟨rfl, rfl⟩
  · exact Nat.not_lt.mpr within

/-! ## Input to state -/

lemma i2sLoop_idle {ks : List (Constraint × ConsMeta)} {i : Nat}
    (zero : ∀ j, i ≤ j → j < i + ks.length → s.minDistances j = 0)
    (acc : Bool × Cells × (Nat → Nat)) : i2sLoop env inputMin s i ks acc = acc := by
  induction ks generalizing i acc with
  | nil => rfl
  | cons k rest ih =>
    have here : s.minDistances i = 0 := zero i (Nat.le_refl i) (by rw [List.length_cons]; omega)
    simp only [i2sLoop, here]
    apply ih
    intro j above below
    exact zero j (by omega) (by rw [List.length_cons]; omega)

lemma tryI2s_found (found : Found env t (tryI2sTrace env t inputMin s)) :
    Solved (tryI2s env t inputMin f0 s).2.2 := by
  rcases found_append.mp found with ⟨cells, a, member, -⟩ | found
  · obtain ⟨j, ⟨⟩⟩ := i2sTrace_trial member
  simp only [tryI2s]
  generalize i2sLoop env inputMin s 0 t.constraints (false, inputMin, s.scratchArgs) = looped
    at found
  obtain ⟨updated, _, scratch⟩ := looped
  cases updated with
  | false => exact absurd found found_nil
  | true =>
    obtain ⟨within, solution⟩ := found_full.mp found
    obtain ⟨-, -, solved⟩ := distance_solution solution s.distances
      (s := { s with scratchArgs := scratch }) within
    simp only [if_true]
    split
    · exact solved
    · exact solved

lemma opening_found {s1 : Search}
    (start : a + 1 ≤ maxExecTimes → Solution env t cells →
      Solved s1 ∧ ∀ j < t.constraints.length, s1.minDistances j = 0)
    (found : Found env t (.full cells a :: tryI2sTrace env t cells s1)) :
    Solved (tryI2s env t cells f s1).2.2 := by
  rcases found_cons.mp found with first | later
  · obtain ⟨within, solution⟩ := found_full.mp first
    obtain ⟨solved, zero⟩ := start within solution
    simp only [tryI2s]
    rw [i2sLoop_idle fun j _ below => zero j (by omega)]
    exact solved
  · exact tryI2s_found later

/-! ## Gradient -/

lemma probeTrace_probe {direction : Bool} {delta : Nat}
    (member : e ∈ probeTrace env t direction index f0 fuel delta cells s) :
    ∃ c lucky, e = .probe index c lucky := by
  induction fuel generalizing delta cells s with
  | zero => cases member
  | succ fuel ih =>
    simp only [probeTrace] at member
    split at member
    · cases member
    rcases List.mem_cons.mp member with rfl | member
    · exact ⟨_, _, rfl⟩
    split at member
    · cases member
    split at member
    · cases member
    · split at member
      · exact ih member
      · cases member

lemma gradientTrace_probe (member : e ∈ gradientTrace env t f0 index grads cells s) :
    ∃ i c lucky, e = .probe i c lucky := by
  induction grads generalizing index cells s with
  | nil => cases member
  | cons g rest ih =>
    simp only [gradientTrace] at member
    split at member
    · cases member
    rcases List.mem_append.mp member with here | later
    · rcases List.mem_append.mp here with up | down
      · exact ⟨index, probeTrace_probe up⟩
      · split at down
        · exact ⟨index, probeTrace_probe down⟩
        · cases down
    · exact ih later

/-- A gradient has no full evaluation. -/
lemma calGradient_found : ¬ Found env t (calGradientTrace env t f0 grads cells s) := by
  rintro ⟨c, a, member, -⟩
  rcases List.mem_append.mp member with probes | last
  · obtain ⟨i, _, _, ⟨⟩⟩ := gradientTrace_probe probes
  · split at last
    · cases last
    · cases List.mem_singleton.mp last

/-! ## Descent -/

lemma settle_solved (solved : Solved d.search) : Solved (Turn.search (settle t f d)) := by
  simp only [settle]
  split
  · exact ⟨rfl, rfl⟩
  · split
    · exact solved
    · exact solved

/-- A round keeps a success, and notices a solution that it evaluates in full. -/
lemma turn_found (found : Solved d.search ∨ Found env t (turnTrace env grads d)) :
    Solved (Turn.search (turn env t grads d)) := by
  simp only [turnTrace] at found
  simp only [turn]
  rcases found with solved | found
  · rw [if_pos solved.1]
    exact solved
  split at found
  · exact absurd found found_nil
  rename_i going
  rw [if_neg going]
  split at found
  · split at found
    · exact absurd found found_nil
    · obtain ⟨_, a, member, -⟩ := found
      cases List.mem_singleton.mp member
  next joint =>
    rw [if_neg joint]
    obtain ⟨within, solution⟩ := found_full.mp found
    obtain ⟨-, -, solved⟩ := distance_solution solution d.search.distances within
    exact settle_solved solved

lemma descendLoop_found (h : descendLoop env t grads fuel d = some (f, cells, s))
    (found : Solved d.search ∨ Found env t (descendLoopTrace env t grads fuel d)) : Solved s := by
  refine descendLoop_rule (P := fun d es r => Solved d.search ∨ Found env t es → Solved r.2.2)
    ?_ ?_ h found
  · intro d d' es r follows rest found
    have round : Solved d.search ∨ Found env t (turnTrace env grads d) → Solved d'.search := by
      obtain ⟨_, same⟩ := follows_search follows
      rw [same]
      exact turn_found
    apply rest
    rcases found with solved | found
    · exact .inl (round (.inl solved))
    · rcases found_append.mp found with here | later
      · exact .inl (round (.inr here))
      · exact .inr later
  · intro d r ends
    rw [ends_search ends]
    exact turn_found

lemma starts_found (starts : Starts env t inputMin f0 grads s d es) (found : Found env t es) :
    Solved d.search := by
  have jumped : Found env t [.full (jump env inputMin f0 grads) s.attempts] →
      Solved (jumpDistance env t inputMin f0 grads s).2.2 := by
    intro here
    obtain ⟨within, solution⟩ := found_full.mp here
    exact (distance_solution solution s.distances within).2.2
  cases starts with
  | flat => exact absurd found found_nil
  | back | ahead => exact jumped found

lemma descend_found (h : descend env t fuel inputMin f0 grads s = some (f, cells, s'))
    (found : Found env t (descendTrace env t fuel inputMin f0 grads s)) : Solved s' := by
  rcases descend_step env t inputMin f0 grads s with ⟨d, es, starts, step⟩ | ⟨zero, step⟩
  · obtain ⟨run, trace⟩ := step fuel
    rw [run] at h
    rw [trace] at found
    exact descendLoop_found h ((found_append.mp found).imp_left (starts_found starts))
  · rw [(step fuel).1] at h
    cases h
    exact ⟨rfl, rfl⟩

/-! ## The search -/

lemma repicked_found (found : Found env t (repickTrace env t q)) :
    Solved (repicked env t q).search := by
  refine opening_found (fun within solution => ?_) found
  obtain ⟨-, zero, solved⟩ := distance_solution solution q.search.minDistances
    (s := { q.search with restarts := q.search.restarts + 1 }) within
  exact ⟨solved, zero⟩

lemma restart_found {rounds : Nat} (found : Found env t (restartTrace env t rounds q)) :
    Solved (restart env t rounds q).2.search := by
  refine restart_rule env t (P := fun _ es p => Found env t es → Solved p.search)
    ?_ ?_ ?_ rounds q found
  · intro q found
    exact absurd found found_nil
  · intro q _ _ found
    exact repicked_found found
  intro q es p _ going rest found
  rcases found_append.mp found with first | later
  · exact absurd (repicked_found first).1 (Bool.eq_false_iff.mp going)
  · rcases found_append.mp later with slope | later
    · exact absurd slope calGradient_found
    · exact rest later

lemma restarted_found (found : Found env t (roundTrace env t q)) :
    Solved (restarted env t q).search := by
  rcases found_append.mp found with first | second
  · rcases found_cons.mp first with ⟨c, a, member, -⟩ | slope
    · cases List.mem_singleton.mp member
    · exact absurd slope calGradient_found
  · exact restart_found second

lemma epochs_found (h : epochs env t fuel q = some s)
    (found : Solved q.search ∨ Found env t (epochsTrace env t fuel q)) : Solved s := by
  refine epochs_rule (P := fun q es s => Solved q.search ∨ Found env t es → Solved s)
    ?_ ?_ ?_ h found
  · rintro q - (solved | found)
    · exact solved
    · exact absurd found found_nil
  · rintro q going (solved | found)
    · exact absurd solved.1 (Bool.eq_false_iff.mp going)
    · exact restarted_found found
  rintro q fuel q' es s going running lower rest (solved | found)
  · exact absurd solved.1 (Bool.eq_false_iff.mp going)
  rcases found_append.mp found with round | later
  · exact absurd (restarted_found round).1 (Bool.eq_false_iff.mp running)
  · exact rest ((found_append.mp later).imp_left (descend_found (lowered_some lower).1))

lemma opened_found (found : Found env t (openTrace env t s)) :
    Solved (opened env t s).search := by
  refine opening_found (fun within solution => ?_) found
  obtain ⟨-, zero, solved⟩ := distance_solution solution s.minDistances
    (s := { s with attempts := 0 }) within
  exact ⟨solved, zero⟩

lemma gdEntry_found {r : Bool} (h : gdEntry env t fuel s = some (r, s'))
    (found : Found env t (gdTrace env t fuel s)) : r = true := by
  rcases gdEntry_step env t s with ⟨-, step⟩ | ⟨going, step⟩ | ⟨-, step⟩
  · obtain ⟨run, trace⟩ := step fuel
    rw [run] at h
    rw [trace] at found
    cases h
    exact (opened_found found).2
  · rw [(step fuel).2] at found
    exact absurd (opened_found found).1 (Bool.eq_false_iff.mp going)
  · obtain ⟨run, trace⟩ := step fuel
    rw [run] at h
    rw [trace] at found
    obtain ⟨_, searched, done⟩ := Option.map_eq_some_iff.mp h
    cases done
    exact (epochs_found searched ((found_append.mp found).imp_left opened_found)).2

/-- In a run whose incremental evaluations are not made on solutions, no solution that is
evaluated within the limit is lost. -/
theorem evaluated_solution_returned {fuel : Nat} {s s' : Search} {r : Bool}
    (returned : gdEntry env t fuel s = some (r, s'))
    (unsolved : ∀ e, e ∈ gdTrace env t fuel s → ∀ cells, incremental e = some cells →
      ¬ Solution env t cells)
    {e : Event} {cells : Cells} (evaluated : e ∈ gdTrace env t fuel s)
    (made : candidate e = some cells) (solution : Solution env t cells) : r = true := by
  by_cases whole : ∃ c a, e = .full c a
  · obtain ⟨c, a, rfl⟩ := whole
    simp only [candidate, Option.ite_none_right_eq_some] at made
    obtain ⟨within, same⟩ := made
    cases same
    exact gdEntry_found returned ⟨_, a, evaluated, within, solution⟩
  · have same : incremental e = some cells := by
      cases e with
      | full c a => exact absurd ⟨c, a, rfl⟩ whole
      | _ => exact made
    exact absurd solution (unsolved e evaluated cells same)

end Search

/-! ## A quotient -/

/-- The quotient of 1 and a byte that is exclusive-ored with 7 is compared with 1; the
quotient by 0 is taken to be 1. -/
def quotientConstraint (start : BitVec 8) : Constraint where
  ast := .node2 ⟨.equal, 8, 0, 0, 5, 0⟩
    (.node2 ⟨.udiv, 8, 0, 0, 4, 0⟩ (.leaf ⟨.constant, 8, 0, 0, 0, 0⟩)
      (.node2 ⟨.xor, 8, 0, 0, 3, 0⟩
        (.leaf ⟨.read, 8, 0, 0, 2, 0⟩) (.leaf ⟨.constant, 8, 2, 0, 0, 0⟩)))
    (.leaf ⟨.constant, 8, 3, 0, 0, 0⟩)
  args := ((mapArg (fun _ => start) 0 1 (ArgMap.empty.pushConst 1)).pushConst 7).pushConst 1

def quotientTask (start : BitVec 8) : SearchTask :=
  (finalize [(quotientConstraint start, .equal)]).getD ⟨[], [], fun _ => none, fun _ => []⟩

/-- Every restart draws the same byte. -/
def quotientEnv (byte : BitVec 8) : Env (Nat × Nat) :=
  { fractionEnv with random := fun _ _ => byte }

lemma quotientTask_finalized (start : BitVec 8) :
    finalize [(quotientConstraint start, .equal)] = some (quotientTask start) := rfl

lemma quotient_operands (start byte : BitVec 8) (args : Nat → Nat) :
    operands (quotientEnv byte).machine (quotientConstraint start) args =
      some (⟨8, BitVec.ofNat 8 (loadWords args 2 1) /
        divisor (BitVec.ofNat 8 (args 3) ^^^ BitVec.ofNat 8 (loadWords args 4 1))⟩,
        ⟨8, BitVec.ofNat 8 (loadWords args 5 1)⟩) := rfl

lemma quotient_solution {start byte : BitVec 8} {cells : Cells} :
    Solution (quotientEnv byte) (quotientTask start) cells ↔
      1 / divisor (BitVec.ofNat 8 (cells 0) ^^^ 7) = 1 := by
  have distance : ∀ k ∈ (quotientTask start).constraints, ∀ scratch,
      distanceAfter k (callFn (quotientEnv byte) k cells scratch) =
        getDistance .equal ((1 / divisor (BitVec.ofNat 8 (cells 0) ^^^ 7)).toNat % 2 ^ 64) 1 := by
    intro k member scratch
    cases List.mem_singleton.mp member
    simp only [callFn, fn, quotient_operands]
    generalize loaded : loadArgs _ _ scratch = args
    have one : args 2 = 1 := by rw [← loaded]; rfl
    have byte : args 3 = cells 0 := by rw [← loaded]; rfl
    have seven : args 4 = 7 := by rw [← loaded]; rfl
    have goal : args 5 = 1 := by rw [← loaded]; rfl
    simp only [loadWords, one, byte, seven, goal]
    rfl
  constructor
  · intro solution
    have zero := (distance _ List.mem_cons_self fun _ => 0).symm.trans
      (solution _ List.mem_cons_self fun _ => 0)
    rw [Nat.mod_eq_of_lt (Nat.lt_trans (BitVec.isLt _) (by decide))] at zero
    apply BitVec.eq_of_toNat_eq
    simp only [getDistance] at zero
    split at zero
    · exact Nat.le_antisymm (Nat.le_of_sub_eq_zero zero) ‹_›
    next below =>
      exact absurd (Nat.le_of_sub_eq_zero zero) below
  · intro one k member scratch
    rw [distance k member scratch, one]
    rfl

/-- The byte 5 has the solution 6 next to it, which the first probe meets and moves to. The
gradient is 0 there, and the restarts from 0 do not see another solution. -/
theorem probed_solution_lost : ∃ s' e cells,
    finalize [(quotientConstraint 5, .equal)] = some (quotientTask 5) ∧
      e ∈ gdTrace (quotientEnv 0) (quotientTask 5) 1 newSearch ∧
      candidate e = some cells ∧ Solution (quotientEnv 0) (quotientTask 5) cells ∧
      gdEntry (quotientEnv 0) (quotientTask 5) 1 newSearch = some (false, s') ∧
      s'.attempts ≤ maxExecTimes := by
  have run : (gdEntry (quotientEnv 0) (quotientTask 5) 1 newSearch).map
      (fun r => (r.1, r.2.attempts)) = some (false, 298) := by decide +kernel
  have probed : (((gdTrace (quotientEnv 0) (quotientTask 5) 1 newSearch)[2]?).bind candidate).map
      (fun cells => cells 0) = some 6 := by decide +kernel
  obtain ⟨⟨r, s'⟩, returned, values⟩ := Option.map_eq_some_iff.mp run
  obtain ⟨rfl, attempts⟩ := Prod.mk.inj values
  obtain ⟨cells, evaluated, six⟩ := Option.map_eq_some_iff.mp probed
  obtain ⟨e, member, made⟩ := Option.bind_eq_some_iff.mp evaluated
  refine ⟨s', e, cells, quotientTask_finalized 5, List.mem_of_getElem? member, made, ?_, returned,
    ?_⟩
  · apply quotient_solution.mpr
    rw [six]
    decide
  · simp only at attempts
    rw [attempts]
    decide

theorem evaluated_solution_returned_restart : ∃ r s',
    gdEntry (quotientEnv 6) (quotientTask 200) 1 newSearch = some (r, s') ∧ r = true := by
  have run : ((gdEntry (quotientEnv 6) (quotientTask 200) 1 newSearch).isSome,
      ((gdTrace (quotientEnv 6) (quotientTask 200) 1 newSearch).filterMap incremental).map
        fun cells => decide (1 / divisor (BitVec.ofNat 8 (cells 0) ^^^ 7) = 1)) =
      (true, List.replicate 8 false) := by decide +kernel
  obtain ⟨returns, probes⟩ := Prod.mk.inj run
  obtain ⟨⟨r, s'⟩, returned⟩ := Option.isSome_iff_exists.mp returns
  refine ⟨r, s', returned, ?_⟩
  refine evaluated_solution_returned returned ?_
    (List.mem_of_getElem? (i := 11) rfl) rfl (quotient_solution.mpr (by decide))
  intro e member cells made solution
  have inside : decide (1 / divisor (BitVec.ofNat 8 (cells 0) ^^^ 7) = 1) ∈
      List.replicate 8 false := by
    rw [← probes]
    exact List.mem_map.mpr ⟨cells, List.mem_filterMap.mpr ⟨e, member, made⟩, rfl⟩
  have missed := List.eq_of_mem_replicate inside
  exact absurd (quotient_solution.mp solution) (of_decide_eq_false missed)

end LostSolutions
