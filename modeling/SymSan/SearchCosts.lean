import SymSan.DescentSoundness

/-!
# What a search costs

The loops of `gd_entry` share one counter of attempts, which ends them. It does not count
the probes that come out with distance 0, of which a gradient has at most one for each
cell, nor the trials of `try_i2s`, of which a constraint has two for each of its runs of
bytes. Between two gradients or two series of trials there is always an attempt, so that
the counter bounds all three.
-/

namespace SearchCosts

open RgdAst JigsawTask GradientDescent SearchTrace SearchSteps
open DescentSoundness (Probe.search Turn.search follows_search ends_search)

universe u

/-! ## Costs -/

def isEvaluation : Event → Bool
  | .full _ _ => true
  | .probe _ _ _ => true
  | .step _ _ => true
  | _ => false

def isLucky : Event → Bool
  | .probe _ _ lucky => lucky
  | _ => false

def isTrial (i : Nat) : Event → Bool
  | .trial j => decide (j = i)
  | _ => false

/-- The number of times that the function of constraint `i` is called. -/
def calls (i : Nat) (es : List Event) : Nat :=
  es.countP isEvaluation + es.countP (isTrial i)

/-- The attempts so far, and whether the search is over. -/
def meter (s : Search) : Nat × Bool := (s.attempts, s.stopped)

/-- The limit is exceeded by the attempt that ends the search, and by the one that
`try_i2s` makes after it. -/
def Limited (m : Nat × Bool) : Prop :=
  m.1 ≤ maxExecTimes + 2 ∧ (m.2 = false → m.1 ≤ maxExecTimes)

lemma Limited.room {m : Nat × Bool} (limited : Limited m) (running : m.2 = false) :
    m.1 ≤ maxExecTimes + 1 :=
  Nat.le_succ_of_le (limited.2 running)

/-- What a part of the search does: its evaluations are counted or lucky, and there are
bounds for the lucky ones and for the trials of each constraint. -/
structure Tally (m m' : Nat × Bool) (es : List Event) (lucky trials : Nat) : Prop where
  attempts : es.countP isEvaluation + m.1 = m'.1 + es.countP isLucky
  lucky : es.countP isLucky ≤ lucky
  trials : ∀ i, es.countP (isTrial i) ≤ trials

/-- A part of the search that keeps to the limit. -/
structure Cost (m m' : Nat × Bool) (es : List Event) (lucky trials : Nat) : Prop
    extends Tally m m' es lucky trials where
  limited : Limited m → Limited m'

section Costs

variable {m m' m'' : Nat × Bool} {es es' : List Event} {a b a' b' : Nat}

lemma Tally.append (first : Tally m m' es a b) (second : Tally m' m'' es' a' b') :
    Tally m m'' (es ++ es') (a + a') (b + b') := by
  refine ⟨?_, ?_, fun i => ?_⟩
  · have before := first.attempts
    have after := second.attempts
    simp only [List.countP_append]
    omega
  · rw [List.countP_append]
    exact Nat.add_le_add first.lucky second.lucky
  · rw [List.countP_append]
    exact Nat.add_le_add (first.trials i) (second.trials i)

lemma Tally.mono (tally : Tally m m' es a b) : m.1 ≤ m'.1 := by
  have counted := tally.attempts
  have evaluated : es.countP isLucky ≤ es.countP isEvaluation := by
    apply List.countP_mono_left
    intro e _ lucky
    cases e with
    | probe _ _ _ => rfl
    | _ => cases lucky
  omega

lemma Tally.counted {e : Event} (evaluation : isEvaluation e = true)
    (plain : isLucky e = false) (next : m'.1 = m.1 + 1) : Tally m m' [e] 0 0 := by
  refine ⟨?_, ?_, fun i => ?_⟩
  · simp only [List.countP_singleton, evaluation, plain]
    simp
    omega
  · simp [plain]
  · cases e with
    | trial _ => cases evaluation
    | _ => exact Nat.le_refl 0

namespace Cost

lemma nil (m : Nat × Bool) : Cost m m [] 0 0 :=
  ⟨⟨by simp, Nat.le_refl 0, fun _ => Nat.le_refl 0⟩, fun limited => limited⟩

lemma weaken (cost : Cost m m' es a b) (lucky : a ≤ a') (trials : b ≤ b') : Cost m m' es a' b' :=
  ⟨⟨cost.attempts, Nat.le_trans cost.lucky lucky,
    fun i => Nat.le_trans (cost.trials i) trials⟩, cost.limited⟩

lemma append (first : Cost m m' es a b) (second : Cost m' m'' es' a' b') :
    Cost m m'' (es ++ es') (a + a') (b + b') :=
  ⟨first.toTally.append second.toTally, fun limited => second.limited (first.limited limited)⟩

lemma counted {e : Event} (evaluation : isEvaluation e = true) (plain : isLucky e = false)
    (running : m.2 = false) (next : m'.1 = m.1 + 1)
    (ended : m'.2 = false → m'.1 ≤ maxExecTimes) : Cost m m' [e] 0 0 := by
  refine ⟨.counted evaluation plain next, fun limited => ⟨?_, ended⟩⟩
  have room := limited.room running
  omega

lemma silent {e : Event} (quiet : isEvaluation e = false) (plain : isLucky e = false)
    (other : ∀ i, isTrial i e = false) (m : Nat × Bool) : Cost m m [e] 0 0 := by
  refine ⟨⟨?_, ?_, fun i => ?_⟩, fun limited => limited⟩
  · simp [quiet, plain]
  · simp [plain]
  · simp [other i]

end Cost

end Costs

section Search

variable {F : Type u} {env : Env F} {t : SearchTask} {cells inputMin : Cells} {d d' : Descent}
  {grads : List (GradUnit F)} {f f0 fuel runs : Nat} {s s' : Search}

lemma count_ended (s : Search) :
    (meter s.count).2 = false → (meter s.count).1 ≤ maxExecTimes := by
  simp only [meter, Search.count, Bool.or_eq_false_iff, decide_eq_false_iff_not, Nat.not_lt]
  rintro ⟨-, le⟩
  exact le

/-! ## Gradient -/

/-- A probe that comes out with distance 0 is not counted. -/
def uncounted : Probe → Nat
  | .lucky _ _ => 1
  | _ => 0

lemma probe_cost (env : Env F) (t : SearchTask) (direction : Bool) (index f0 fuel delta f : Nat)
    (cells : Cells) (s : Search) (running : s.stopped = false) :
    Cost (meter s) (meter (Probe.search (probe env t direction index f0 fuel delta f cells s)))
      (probeTrace env t direction index f0 fuel delta cells s)
      (uncounted (probe env t direction index f0 fuel delta f cells s)) 0 := by
  induction fuel generalizing delta f cells s with
  | zero => exact .nil _
  | succ fuel ih =>
    simp only [probe, probeTrace]
    split
    · exact .nil _
    have one : ∀ (moved : Cells) (s' : Search), meter s' = meter s →
        Cost (meter s) (meter s'.count) [.probe index moved false] 0 0 := by
      intro moved s' same
      refine .counted rfl rfl running ?_ (count_ended s')
      exact congrArg (·.1 + 1) same
    split
    next zero =>
      rw [zero]
      exact ⟨⟨Nat.add_comm .., Nat.le_refl 1, fun i => Nat.le_refl 0⟩, fun limited => limited⟩
    rename_i nonzero
    rw [decide_eq_false nonzero]
    have first := one (update cells index direction delta)
      (singleDistance env t (update cells index direction delta) index s.minDistances s).2.2 rfl
    split
    · exact first
    rename_i going
    split
    · have rest := ih (delta * 4)
        (sumDistances t (singleDistance env t (update cells index direction delta) index
          s.minDistances s).2.1) (update cells index direction delta) _
        (Bool.eq_false_iff.mpr going)
      have all := first.append rest
      rw [Nat.zero_add] at all
      exact all
    · exact first

lemma probe_value_running {direction : Bool} {index delta : Nat} {f' : Nat}
    (running : s.stopped = false)
    (h : probe env t direction index f0 fuel delta f cells s = .value f' s') :
    s'.stopped = false := by
  induction fuel generalizing delta f cells s with
  | zero =>
    cases h
    exact running
  | succ fuel ih =>
    simp only [probe] at h
    split at h
    · cases h
      exact running
    split at h
    · cases h
    split at h
    · cases h
    next going =>
      split at h
      · exact ih (Bool.eq_false_iff.mpr going) h
      · cases h
        exact Bool.eq_false_iff.mpr going

lemma partialDerivative_cost (env : Env F) (t : SearchTask) (index f0 : Nat) (cells : Cells)
    (s : Search) (running : s.stopped = false) :
    Cost (meter s) (meter (partialDerivative env t index f0 cells s).2.2.2)
      (derivativeTrace env t index f0 cells s) 1 0 := by
  have up := probe_cost env t true index f0 8 1 0 cells s running
  simp only [partialDerivative, derivativeTrace]
  cases first : probe env t true index f0 8 1 0 cells s with
  | lucky c s1 =>
    rw [first] at up
    simp only [List.append_nil]
    exact up
  | stopped c s1 =>
    rw [first] at up
    simp only [List.append_nil]
    exact up.weaken (Nat.zero_le 1) (Nat.le_refl 0)
  | value plus s1 =>
    rw [first] at up
    have down := probe_cost env t false index f0 8 1 0 cells s1 (probe_value_running running first)
    have both := up.append down
    cases second : probe env t false index f0 8 1 0 cells s1 with
    | lucky c s2 =>
      rw [second] at both
      simp only [second]
      exact both
    | stopped c s2 | value minus s2 =>
      rw [second] at both
      simp only [second]
      exact both.weaken (Nat.zero_le 1) (Nat.le_refl 0)

lemma gradient_cost (env : Env F) (t : SearchTask) (f0 index : Nat) (grads : List (GradUnit F))
    (cells : Cells) (s : Search) :
    Cost (meter s) (meter (calGradient env t f0 index grads cells s).2.2)
      (gradientTrace env t f0 index grads cells s) grads.length 0 := by
  induction grads generalizing index cells s with
  | nil => exact .nil _
  | cons g rest ih =>
    simp only [calGradient, gradientTrace]
    split
    · exact (Cost.nil _).weaken (Nat.zero_le _) (Nat.le_refl 0)
    next going =>
      have here := partialDerivative_cost env t index f0 cells s (Bool.eq_false_iff.mpr going)
      exact (here.append (ih ..)).weaken (by rw [List.length_cons]; omega) (Nat.le_refl 0)

lemma calGradient_cost (env : Env F) (t : SearchTask) (f0 : Nat) (grads : List (GradUnit F))
    (cells : Cells) (s : Search) :
    Cost (meter s) (meter (calGradient env t f0 0 grads cells s).2.2)
      (calGradientTrace env t f0 grads cells s) grads.length 0 := by
  have searched := gradient_cost env t f0 0 grads cells s
  simp only [calGradientTrace]
  split
  · rw [List.append_nil]
    exact searched
  · exact searched.append (.silent rfl rfl (fun _ => rfl) _)

lemma calGradient_length (env : Env F) (t : SearchTask) (f0 index : Nat)
    (grads : List (GradUnit F)) (cells : Cells) (s : Search) :
    (calGradient env t f0 index grads cells s).1.length = grads.length := by
  induction grads generalizing index cells s with
  | nil => rfl
  | cons g rest ih =>
    simp only [calGradient]
    split
    · rfl
    · exact congrArg (· + 1) (ih ..)

lemma normalize_length (grads : List (GradUnit F)) :
    (normalize env grads).length = grads.length := by
  simp only [GradientDescent.normalize]
  split
  · exact List.length_map ..
  · rfl

/-! ## Descent -/

lemma distance_attempts (env : Env F) (t : SearchTask) (cells : Cells) (distances : Distances)
    (s : Search) : (distance env t cells distances s).2.2.attempts = s.attempts + 1 := by
  simp only [distance]
  split <;> split <;> rfl

lemma distance_ended (env : Env F) (t : SearchTask) (cells : Cells) (distances : Distances)
    (s : Search) :
    (distance env t cells distances s).2.2.stopped = false → s.attempts + 1 ≤ maxExecTimes := by
  simp only [distance]
  split
  · split
    · rintro ⟨⟩
    · rintro ⟨⟩
  · split
    · exact count_ended _
    · exact count_ended _

lemma distance_cost (env : Env F) (t : SearchTask) (cells : Cells) (distances : Distances)
    (a : Nat) (running : s.stopped = false) :
    Cost (meter s) (meter (distance env t cells distances s).2.2) [.full cells a] 0 0 := by
  have next := distance_attempts env t cells distances s
  refine .counted rfl rfl running next fun going => ?_
  have within := distance_ended env t cells distances s going
  simp only [meter, next]
  exact within

lemma settle_attempts (f : Nat) (d : Descent) :
    (Turn.search (settle t f d)).attempts = d.search.attempts := by
  simp only [settle]
  split
  · rfl
  · split <;> rfl

lemma settle_ended (f : Nat) (d : Descent) :
    (Turn.search (settle t f d)).stopped = false → d.search.stopped = false := by
  simp only [settle]
  split
  · rintro ⟨⟩
  · split <;> exact id

/-- A round is one attempt, unless there is nothing left to do. -/
lemma turn_cost (env : Env F) (t : SearchTask) (grads : List (GradUnit F)) (d : Descent) :
    Cost (meter d.search) (meter (Turn.search (turn env t grads d))) (turnTrace env grads d)
      0 0 := by
  simp only [turn, turnTrace]
  split
  · exact .nil _
  rename_i going
  have running := Bool.eq_false_iff.mpr going
  split
  · cases found : grads[d.deltaIdx]? with
    | none => exact .nil _
    | some g =>
      simp only
      split
      · exact .counted rfl rfl running rfl (count_ended _)
      · refine .counted rfl rfl running (settle_attempts ..) fun goingOn => ?_
        simp only [meter, settle_attempts]
        exact count_ended _ (settle_ended _ _ goingOn)
  · generalize computeDeltaAll env d.step 0 grads d.input = input
    have next := distance_attempts env t input d.search.distances d.search
    refine .counted rfl rfl running ((settle_attempts ..).trans next) fun goingOn => ?_
    have within := distance_ended env t input d.search.distances d.search (settle_ended _ _ goingOn)
    simp only [meter, settle_attempts, next]
    exact within

lemma turn_attempts (h : turn env t grads d = .again d' ∨ turn env t grads d = .leave d') :
    (Turn.search (turn env t grads d)).attempts = d.search.attempts + 1 := by
  simp only [turn] at h ⊢
  split at h
  · rcases h with ⟨⟨⟩⟩ | ⟨⟨⟩⟩
  rename_i going
  rw [if_neg going]
  split at h
  next delta =>
    rw [if_pos delta]
    split at h
    · rcases h with ⟨⟨⟩⟩ | ⟨⟨⟩⟩
    · split
      · rfl
      · exact settle_attempts ..
  next joint =>
    rw [if_neg joint]
    exact (settle_attempts ..).trans (distance_attempts ..)

lemma follows_attempts (follows : Follows env t grads d d') :
    d'.search.attempts = d.search.attempts + 1 := by
  obtain ⟨_, same⟩ := follows_search follows
  rw [same]
  cases follows with
  | again round => exact turn_attempts (.inl round)
  | next round picked => exact turn_attempts (.inr round)

lemma follows_cost (follows : Follows env t grads d d') :
    Cost (meter d.search) (meter d'.search) (turnTrace env grads d) 0 0 := by
  obtain ⟨_, same⟩ := follows_search follows
  rw [same]
  exact turn_cost env t grads d

lemma descendLoop_cost (grads : List (GradUnit F))
    (h : descendLoop env t grads fuel d = some (f, cells, s)) :
    Cost (meter d.search) (meter s) (descendLoopTrace env t grads fuel d) 0 0 := by
  refine descendLoop_rule (P := fun d es r => Cost (meter d.search) (meter r.2.2) es 0 0) ?_ ?_ h
  · intro d d' es r follows rest
    exact (follows_cost follows).append rest
  · intro d r ends
    rw [ends_search ends]
    exact turn_cost env t grads d

/-- In a search that is not over, the first round of the descent makes an attempt. -/
lemma descendLoop_attempts (joint : d.doDelta = false) (running : d.search.stopped = false)
    (h : descendLoop env t grads fuel d = some (f, cells, s)) :
    d.search.attempts + 1 ≤ s.attempts := by
  rcases fuel with _ | fuel
  · cases h
  rcases descendLoop_step env t grads d with ⟨d', follows, step⟩ | ⟨r, ends, step⟩
  · rw [(step fuel).1] at h
    rw [← follows_attempts follows]
    exact (descendLoop_cost grads h).mono
  rw [(step fuel).1] at h
  cases h
  have made : (Turn.search (turn env t grads d)).attempts = d.search.attempts + 1 := by
    simp only [turn, running, joint]
    exact (settle_attempts ..).trans (distance_attempts ..)
  rw [← ends_search ends] at made
  exact Nat.le_of_eq made.symm

lemma starts_cost (running : s.stopped = false) {es : List Event}
    (starts : Starts env t inputMin f0 grads s d es) : Cost (meter s) (meter d.search) es 0 0 := by
  have jumped := distance_cost env t (jump env inputMin f0 grads) s.distances s.attempts running
  cases starts with
  | flat => exact .nil _
  | back | ahead => exact jumped

lemma descend_cost (running : s.stopped = false)
    (h : descend env t fuel inputMin f0 grads s = some (f, cells, s')) :
    Cost (meter s) (meter s') (descendTrace env t fuel inputMin f0 grads s) 0 0 ∧
      s.attempts + 1 ≤ s'.attempts := by
  have next := distance_attempts env t (jump env inputMin f0 grads) s.distances s
  rcases descend_step env t inputMin f0 grads s with ⟨d, es, starts, step⟩ | ⟨zero, step⟩
  · obtain ⟨run, trace⟩ := step fuel
    rw [run] at h
    rw [trace]
    have rest := descendLoop_cost grads h
    refine ⟨(starts_cost running starts).append rest, ?_⟩
    cases starts with
    | flat => exact descendLoop_attempts rfl running h
    | back | ahead => exact next ▸ rest.mono
  · obtain ⟨run, trace⟩ := step fuel
    rw [run] at h
    rw [trace]
    cases h
    refine ⟨.counted rfl rfl running next ?_, Nat.le_of_eq next.symm⟩
    rintro ⟨⟩

/-! ## Input to state -/

lemma trialTrace_eq (i : Nat) (value : Option Nat) :
    ∃ n ≤ 1, trialTrace i value = List.replicate n (.trial i) := by
  cases value with
  | none => exact ⟨0, Nat.zero_le 1, rfl⟩
  | some v => exact ⟨1, Nat.le_refl 1, rfl⟩

/-- Each run of bytes is tried at most twice, once in either byte order. -/
lemma candidatesTrace_eq (env : Env F) (i : Nat) (k : Constraint × ConsMeta) (ops : Nat × Nat)
    (inputMin cells : Cells) (runs : List (Nat × Nat)) (input inputR : Nat) (scratch : Nat → Nat) :
    ∃ n ≤ 2 * runs.length,
      candidatesTrace env i k ops inputMin cells runs input inputR scratch =
        List.replicate n (.trial i) := by
  induction runs generalizing input inputR scratch with
  | nil => exact ⟨0, Nat.zero_le _, rfl⟩
  | cons run rest ih =>
    simp only [candidatesTrace, List.length_cons]
    split
    · obtain ⟨n, _, same⟩ := ih input inputR scratch
      exact ⟨n, by omega, same⟩
    generalize gatherRun k run inputMin input inputR = gathered
    obtain ⟨input', inputR'⟩ := gathered
    obtain ⟨a, _, first⟩ := trialTrace_eq i (matchOperand k.2.comparison ops input')
    obtain ⟨b, _, second⟩ := trialTrace_eq i
      ((matchOperand k.2.comparison ops inputR').map fun value =>
        shiftRight env (swap64 value) (64 - 8 * run.2))
    simp only [first, second]
    split
    · exact ⟨a, by omega, List.append_nil _⟩
    split
    · refine ⟨a + b, by omega, ?_⟩
      rw [List.append_nil, List.replicate_append_replicate]
    next scratch' _ =>
      obtain ⟨n, _, same⟩ := ih input' inputR' scratch'
      refine ⟨a + (b + n), by omega, ?_⟩
      rw [same, List.replicate_append_replicate, List.replicate_append_replicate]

/-- The constraints of a task have at most so many runs of bytes. -/
def RunsWithin (t : SearchTask) (runs : Nat) : Prop :=
  ∀ k, k ∈ t.constraints → k.2.i2sCandidates.length ≤ runs

lemma i2sTrace_trial {i : Nat} {ks : List (Constraint × ConsMeta)}
    {acc : Bool × Cells × (Nat → Nat)} {e : Event} (member : e ∈ i2sTrace env inputMin s i ks acc) :
    ∃ j, e = .trial j := by
  induction ks generalizing i acc with
  | nil => cases member
  | cons k rest ih =>
    rcases List.mem_append.mp member with here | later
    · split at here
      · cases here
      split at here
      · obtain ⟨n, -, same⟩ := candidatesTrace_eq env i k (s.operands i) inputMin acc.2.1
          k.2.i2sCandidates 0 (env.garbage i) acc.2.2
        rw [same] at here
        exact ⟨i, List.eq_of_mem_replicate here⟩
      · cases here
    · exact ih later

lemma i2sTrace_trials (env : Env F) (inputMin : Cells) (s : Search) (i : Nat)
    (ks : List (Constraint × ConsMeta)) (acc : Bool × Cells × (Nat → Nat))
    (within : ∀ k ∈ ks, k.2.i2sCandidates.length ≤ runs) (j : Nat) :
    (i2sTrace env inputMin s i ks acc).countP (isTrial j) ≤ if i ≤ j then 2 * runs else 0 := by
  induction ks generalizing i acc with
  | nil => exact Nat.zero_le _
  | cons k rest ih =>
    have later := ih (i + 1) (i2sLoop env inputMin s i [k] acc)
      (fun q member => within q (List.mem_cons_of_mem _ member))
    have here : ∃ n ≤ 2 * runs,
        (if s.minDistances i = 0 then []
          else if isRelationalKind k.2.comparison then
            candidatesTrace env i k (s.operands i) inputMin acc.2.1 k.2.i2sCandidates 0
              (env.garbage i) acc.2.2
          else []) = List.replicate n (.trial i) := by
      split
      · exact ⟨0, Nat.zero_le _, rfl⟩
      split
      · obtain ⟨n, _, same⟩ := candidatesTrace_eq env i k (s.operands i) inputMin acc.2.1
          k.2.i2sCandidates 0 (env.garbage i) acc.2.2
        have few := within k List.mem_cons_self
        exact ⟨n, by omega, same⟩
      · exact ⟨0, Nat.zero_le _, rfl⟩
    obtain ⟨n, _, same⟩ := here
    simp only [i2sTrace, same, List.countP_append, List.countP_replicate]
    by_cases own : j = i
    · subst own
      rw [if_neg (by omega)] at later
      simp only [isTrial, decide_true, if_true, Nat.le_refl]
      omega
    have other : isTrial j (.trial i) = false := decide_eq_false (Ne.symm own)
    simp only [other, Bool.false_eq_true, if_false, Nat.zero_add]
    refine Nat.le_trans later ?_
    split
    · rw [if_pos (by omega)]
    · exact Nat.zero_le _

lemma tryI2s_tally (env : Env F) (within : RunsWithin t runs) (inputMin : Cells) (f0 : Nat)
    (s : Search) :
    Tally (meter s) (meter (tryI2s env t inputMin f0 s).2.2) (tryI2sTrace env t inputMin s)
      0 (2 * runs) := by
  have only : ∀ p : Event → Bool, (∀ j, p (.trial j) = false) →
      (i2sTrace env inputMin s 0 t.constraints (false, inputMin, s.scratchArgs)).countP p = 0 := by
    intro p other
    rw [List.countP_eq_zero]
    intro e member
    obtain ⟨j, rfl⟩ := i2sTrace_trial member
    rw [other j]
    exact Bool.false_ne_true
  have evaluations := only isEvaluation fun _ => rfl
  have lucky := only isLucky fun _ => rfl
  have tried : Tally (meter s) (meter s)
      (i2sTrace env inputMin s 0 t.constraints (false, inputMin, s.scratchArgs)) 0 (2 * runs) :=
    ⟨by rw [evaluations, lucky, Nat.zero_add, Nat.add_zero], Nat.le_of_eq lucky,
      i2sTrace_trials env inputMin s 0 t.constraints _ within⟩
  simp only [tryI2s, tryI2sTrace]
  generalize i2sLoop env inputMin s 0 t.constraints (false, inputMin, s.scratchArgs) = looped
  obtain ⟨updated, cells, scratch⟩ := looped
  cases updated with
  | false =>
    simp only [Bool.false_eq_true, if_false, List.append_nil]
    exact tried
  | true =>
    have next := distance_attempts env t cells s.distances { s with scratchArgs := scratch }
    have evaluated : ∀ s' : Search, s'.attempts = s.attempts + 1 →
        Tally (meter s) (meter s') [.full cells s.attempts] 0 0 :=
      fun s' made => .counted rfl rfl made
    simp only [if_true]
    split
    all_goals exact tried.append (evaluated _ next)

/-- `try_i2s` makes at most one attempt, and notices when it is over the limit. -/
lemma tryI2s_limited (inputMin : Cells) (f0 : Nat) (room : s.attempts ≤ maxExecTimes + 1)
    (ended : s.stopped = false → s.attempts ≤ maxExecTimes) :
    Limited (meter (tryI2s env t inputMin f0 s).2.2) := by
  simp only [tryI2s]
  generalize i2sLoop env inputMin s 0 t.constraints (false, inputMin, s.scratchArgs) = looped
  obtain ⟨_, cells, scratch⟩ := looped
  have next := distance_attempts env t cells s.distances { s with scratchArgs := scratch }
  have ended' := distance_ended env t cells s.distances
    { s with scratchArgs := scratch }
  have after : ∀ s' : Search, s'.attempts = s.attempts + 1 →
      (s'.stopped = false → s.attempts + 1 ≤ maxExecTimes) → Limited (meter s') := by
    intro s' made still
    refine ⟨?_, fun going => ?_⟩
    · simp only [meter]
      omega
    · simp only [meter, made]
      exact still going
  split
  · split
    · exact after _ next ended'
    · exact after _ next ended'
  · exact ⟨Nat.le_succ_of_le room, ended⟩

lemma opening_cost (env : Env F) (within : RunsWithin t runs) (cells : Cells) (f a : Nat)
    {s1 : Search} (room : Limited (meter s) → s.attempts ≤ maxExecTimes)
    (next : s1.attempts = s.attempts + 1)
    (ended : s1.stopped = false → s1.attempts ≤ maxExecTimes) :
    Cost (meter s) (meter (tryI2s env t cells f s1).2.2)
      (.full cells a :: tryI2sTrace env t cells s1) 0 (2 * runs) := by
  have opened : Tally (meter s) (meter s1) [.full cells a] 0 0 := .counted rfl rfl next
  have both := opened.append (tryI2s_tally env within cells f s1)
  rw [Nat.zero_add, Nat.zero_add] at both
  refine ⟨both, fun limited => ?_⟩
  have below := room limited
  exact tryI2s_limited cells f (by omega) ended

/-! ## Rounds -/

lemma spread (n : Nat) {x y z : Nat} (le : x + y ≤ z) : n * x + n * y ≤ n * z := by
  rw [← Nat.mul_add]
  exact Nat.mul_le_mul_left n le

lemma restart_length (env : Env F) (t : SearchTask) (rounds : Nat) (q : Point F) :
    (restart env t rounds q).2.grads.length = q.grads.length := by
  refine restart_rule env t (P := fun q _ p => p.grads.length = q.grads.length) ?_ ?_ ?_ rounds q
  · intro q
    rfl
  · intro q _ _
    rfl
  · intro q es p _ _ rest
    exact rest.trans (calGradient_length ..)

lemma repicked_cost (env : Env F) (within : RunsWithin t runs) {q : Point F}
    (running : q.search.stopped = false) :
    Cost (meter q.search) (meter (repicked env t q).search) (repickTrace env t q) 0 (2 * runs) ∧
      q.search.attempts + 1 ≤ (repicked env t q).search.attempts := by
  have next : (repickStartPoint env t q.search).2.2.attempts = q.search.attempts + 1 :=
    distance_attempts env t _ _ _
  have later := (tryI2s_tally env within (repickStartPoint env t q.search).2.1
    (repickStartPoint env t q.search).1 (repickStartPoint env t q.search).2.2).mono
  constructor
  · exact opening_cost env within _ _ _ (fun limited => limited.2 running) next
      fun going => next ▸
        distance_ended env t _ _ { q.search with restarts := q.search.restarts + 1 } going
  · exact next ▸ later

lemma sloped_cost (env : Env F) (t : SearchTask) (q : Point F) :
    Cost (meter q.search) (meter (sloped env t q).search) (slopeTrace env t q) q.grads.length 0 :=
  calGradient_cost env t q.f0 q.grads q.cells q.search

lemma sloped_length (env : Env F) (t : SearchTask) (q : Point F) :
    (sloped env t q).grads.length = q.grads.length :=
  calGradient_length env t q.f0 0 q.grads q.cells q.search

/-- A round of restarts has made an attempt before its gradient and its trials. -/
lemma restart_cost (env : Env F) (within : RunsWithin t runs) (rounds : Nat) (q : Point F) :
    Cost (meter q.search) (meter (restart env t rounds q).2.search) (restartTrace env t rounds q)
      (q.grads.length * ((restart env t rounds q).2.search.attempts - q.search.attempts))
      (2 * runs * ((restart env t rounds q).2.search.attempts - q.search.attempts)) := by
  refine restart_rule env t (P := fun q es p => Cost (meter q.search) (meter p.search) es
    (q.grads.length * (p.search.attempts - q.search.attempts))
    (2 * runs * (p.search.attempts - q.search.attempts))) ?_ ?_ ?_ rounds q
  · intro q
    exact (Cost.nil _).weaken (Nat.zero_le _) (Nat.zero_le _)
  · intro q running _
    obtain ⟨opened, _⟩ := repicked_cost env within running
    have apart : 0 < (repicked env t q).search.attempts - q.search.attempts := by omega
    exact opened.weaken (Nat.zero_le _) (Nat.le_mul_of_pos_right _ apart)
  intro q es p running _ rest
  obtain ⟨opened, _⟩ := repicked_cost env within running
  have slope := sloped_cost env t (repicked env t q)
  have same : (sloped env t (repicked env t q)).grads.length = q.grads.length :=
    sloped_length env t (repicked env t q)
  have grown := slope.mono
  have grown' := rest.mono
  rw [same] at rest
  generalize sloped env t (repicked env t q) = q' at slope rest grown grown'
  simp only [meter] at grown grown'
  have apart : 1 + (p.search.attempts - q'.search.attempts) ≤
      p.search.attempts - q.search.attempts := by omega
  refine (opened.append (slope.append rest)).weaken ?_ ?_
  · have total := spread q.grads.length apart
    have own : (repicked env t q).grads.length = q.grads.length := rfl
    omega
  · have total := spread (2 * runs) apart
    rw [Nat.mul_one] at total
    omega

end Search

end SearchCosts
