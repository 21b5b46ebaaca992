import SymSan.CellReaders
import SymSan.LostSolutions

/-!
# The point of a search and its distances

Between two rounds, `min_distances` and `f0` belong to the current cells. Two things
break this. `partial_derivative` returns from a probe with distance 0 without restoring the
cell; a cell that only occurs in memory comparisons has no constraint listed, so that its
first probe always does. The descent for one cell evaluates the constraints that are
listed for the cell, and `finalize` does not list memory comparisons.
-/

namespace SearchPoints

open RgdAst JigsawTask GradientDescent SearchTrace SearchSteps SearchCosts CellReaders
open DescentSoundness (Probe.search distanceLoop_spec fractionEnv newSearch)
open LostSolutions (gradientTrace_probe quotientConstraint quotientTask quotientEnv
  quotientTask_finalized)
open List (forall_mem_append mem_append mem_cons mem_singleton)

universe u

section Search

variable {F : Type u} (env : Env F) (t : SearchTask) {cells inputMin : Cells}
  {k : Constraint × ConsMeta} {d : Descent} {e : Event} {grads : List (GradUnit F)}
  {f f0 fuel index : Nat} {q : Point F} {s : Search}

/-! ## Distances of a point -/

/-- The distance of each constraint was obtained on the cells. -/
def At (cells : Cells) (distances : Distances) : Prop :=
  ∀ i k, t.constraints[i]? = some k →
    ∃ scratch, distances i = distanceAfter k (callFn env k cells scratch)

def Consistent (f0 : Nat) (cells : Cells) (s : Search) : Prop :=
  At env t cells s.minDistances ∧ f0 = sumDistances t s.minDistances

/-- What is expected at the start of a round and at the return of `cal_gradient`. -/
def Holds : Event → Prop
  | .epoch f0 cells s => Consistent env t f0 cells s
  | .gradient f0 before cells s => Consistent env t f0 cells s ∧ cells = before
  | _ => True

/-- No probe comes out with distance 0, and a single cell is moved only where all the
constraints that it occurs in are listed. -/
def Careful : Event → Prop
  | .probe _ _ lucky => lucky = false
  | .step index _ => ReadersListed t index
  | _ => True

variable {env t} {es : List Event}

lemma distance_at (env : Env F) (t : SearchTask) (cells : Cells) (distances : Distances)
    (s : Search) :
    At env t cells (distance env t cells distances s).2.1 ∧
      (distance env t cells distances s).1 =
        sumDistances t (distance env t cells distances s).2.1 := by
  obtain ⟨-, each, total⟩ := distanceLoop_spec env cells 0 t.constraints
    ⟨s.scratchArgs, distances, s.operands, 0⟩
  constructor
  · intro i k found
    obtain ⟨scratch, value⟩ := each i k found
    rw [Nat.zero_add] at value
    exact ⟨scratch, value⟩
  · rw [← List.range_eq_range'] at total
    exact total

/-- The loop over the listed constraints: the distances of the listed ones are obtained on
the cells, the others stay. -/
lemma singleLoop_at (env : Env F) (cells : Cells) (is : List Nat) (e : Evaluation) {i : Nat}
    (found : t.constraints[i]? = some k) :
    (i ∈ is → ∃ scratch, (singleLoop env t cells is e).distances i =
      distanceAfter k (callFn env k cells scratch)) ∧
      (i ∉ is → (singleLoop env t cells is e).distances i = e.distances i) := by
  induction is generalizing e with
  | nil => exact ⟨fun member => absurd member List.not_mem_nil, fun _ => rfl⟩
  | cons j rest ih =>
    simp only [singleLoop]
    cases here : t.constraints[j]? with
    | none =>
      obtain ⟨listed, others⟩ := ih e
      have other : i ≠ j := by
        rintro rfl
        rw [found] at here
        cases here
      refine ⟨fun member => ?_, fun absent => ?_⟩
      · rcases mem_cons.mp member with same | member
        · exact absurd same other
        · exact listed member
      · exact others fun member => absent (List.mem_cons_of_mem _ member)
    | some q =>
      simp only
      generalize made : ({ e with
        scratch := callFn env q cells e.scratch
        distances := Function.update e.distances j (distanceAfter q (callFn env q cells e.scratch))
        res := satInc e.res (distanceAfter q (callFn env q cells e.scratch)) } : Evaluation) = e1
      obtain ⟨listed, others⟩ := ih e1
      refine ⟨fun member => ?_, fun absent => ?_⟩
      · by_cases later : i ∈ rest
        · exact listed later
        rcases mem_cons.mp member with rfl | member
        · rw [found] at here
          cases here
          refine ⟨e.scratch, ?_⟩
          rw [others later, ← made]
          exact Function.update_self ..
        · exact absurd member later
      · have other : i ≠ j := fun same => absent (same ▸ List.mem_cons_self)
        rw [others fun member => absent (List.mem_cons_of_mem _ member), ← made]
        exact Function.update_of_ne other ..

lemma callFn_unread (unread : (true, index) ∉ k.2.inputArgs) (cells : Cells) (direction : Bool)
    (delta : Nat) (scratch : Nat → Nat) :
    callFn env k (update cells index direction delta) scratch = callFn env k cells scratch := by
  have same : loadArgs k.2.inputArgs (update cells index direction delta) scratch =
      loadArgs k.2.inputArgs cells scratch := by
    funext j
    simp only [loadArgs]
    split
    · rfl
    split
    next cell found =>
      have other : cell ≠ index := by
        rintro rfl
        exact unread (List.mem_of_getElem? found)
      exact Function.update_of_ne other ..
    · rfl
    · rfl
  simp only [callFn, same]

lemma single_at {distances : Distances} (at_ : At env t cells distances)
    (listed : ReadersListed t index) (direction : Bool) (delta : Nat) (s : Search) :
    At env t (update cells index direction delta)
      (singleDistance env t (update cells index direction delta) index distances s).2.1 := by
  intro i k found
  obtain ⟨evaluated, kept⟩ := singleLoop_at env (update cells index direction delta)
    (t.cmap index) ⟨s.scratchArgs, distances, s.operands, 0⟩ found
  by_cases member : i ∈ t.cmap index
  · exact evaluated member
  · obtain ⟨scratch, value⟩ := at_ i k found
    refine ⟨scratch, ?_⟩
    rw [callFn_unread fun reads => member (listed i k found reads), ← value]
    exact kept member

/-! ## Gradient -/

/-- The loop has not left the cell moved in a search that goes on. -/
def Probe.Plain : Probe → Prop
  | .lucky _ _ => False
  | .stopped _ s => s.stopped = true
  | .value _ _ => True

lemma probe_plain {direction : Bool} {delta : Nat}
    (careful : ∀ e ∈ probeTrace env t direction index f0 fuel delta cells s, Careful t e) :
    Probe.Plain (probe env t direction index f0 fuel delta f cells s) ∧
      (Probe.search (probe env t direction index f0 fuel delta f cells s)).minDistances =
        s.minDistances := by
  induction fuel generalizing delta f cells s with
  | zero => exact ⟨trivial, rfl⟩
  | succ fuel ih =>
    simp only [probeTrace] at careful
    simp only [probe]
    split at careful
    next wide =>
      rw [if_pos wide]
      exact ⟨trivial, rfl⟩
    rename_i narrow
    rw [if_neg narrow]
    obtain ⟨plain, rest⟩ := List.forall_mem_cons.mp careful
    have nonzero := of_decide_eq_false plain
    rw [if_neg nonzero] at rest ⊢
    split at rest
    next stopped =>
      rw [if_pos stopped]
      exact ⟨stopped, rfl⟩
    rename_i going
    rw [if_neg going]
    split at rest
    next flat =>
      rw [if_pos flat]
      exact ih rest
    next steep =>
      rw [if_neg steep]
      exact ⟨trivial, rfl⟩

lemma partialDerivative_point
    (careful : ∀ e ∈ derivativeTrace env t index f0 cells s, Careful t e) :
    (partialDerivative env t index f0 cells s).2.2.2.minDistances = s.minDistances ∧
      ((partialDerivative env t index f0 cells s).2.2.2.stopped = false →
        (partialDerivative env t index f0 cells s).2.2.1 = cells) := by
  simp only [partialDerivative]
  obtain ⟨upward, downward⟩ := forall_mem_append.mp careful
  have up := probe_plain (f := 0) upward
  cases first : probe env t true index f0 8 1 0 cells s with
  | lucky c s1 =>
    rw [first] at up
    exact up.1.elim
  | stopped c s1 =>
    rw [first] at up
    refine ⟨up.2, fun going => ?_⟩
    exact absurd up.1 (Bool.eq_false_iff.mp going)
  | value plus s1 =>
    rw [first] at up downward
    have down := probe_plain (f := 0) downward
    cases second : probe env t false index f0 8 1 0 cells s1 with
    | lucky c s2 =>
      rw [second] at down
      exact down.1.elim
    | stopped c s2 =>
      rw [second] at down
      simp only [second]
      refine ⟨down.2.trans up.2, fun going => ?_⟩
      exact absurd down.1 (Bool.eq_false_iff.mp going)
    | value minus s2 =>
      rw [second] at down
      simp only [second]
      exact ⟨down.2.trans up.2, fun _ => trivial⟩

lemma calGradient_stopped (f0 index : Nat) (grads : List (GradUnit F)) (cells : Cells)
    (stopped : s.stopped = true) : (calGradient env t f0 index grads cells s).2.2 = s := by
  cases grads with
  | nil => rfl
  | cons g rest => simp [calGradient, stopped]

lemma gradient_point (careful : ∀ e ∈ gradientTrace env t f0 index grads cells s, Careful t e) :
    (calGradient env t f0 index grads cells s).2.2.minDistances = s.minDistances ∧
      ((calGradient env t f0 index grads cells s).2.2.stopped = false →
        (calGradient env t f0 index grads cells s).2.1 = cells) := by
  induction grads generalizing index cells s with
  | nil => exact ⟨rfl, fun _ => rfl⟩
  | cons g rest ih =>
    simp only [gradientTrace] at careful
    simp only [calGradient]
    split at careful
    next stopped =>
      rw [if_pos stopped]
      exact ⟨rfl, fun _ => rfl⟩
    rename_i going
    rw [if_neg going]
    obtain ⟨here, later⟩ := forall_mem_append.mp careful
    obtain ⟨kept, point⟩ := partialDerivative_point here
    generalize partialDerivative env t index f0 cells s = derived at later kept point
    obtain ⟨_, _, cells', s'⟩ := derived
    obtain ⟨kept', point'⟩ := ih later
    refine ⟨kept'.trans kept, fun running => ?_⟩
    cases finished : s'.stopped with
    | true =>
      rw [calGradient_stopped f0 (index + 1) rest cells' finished, finished] at running
      cases running
    | false => exact (point' running).trans (point finished)

lemma calGradient_holds (consistent : Consistent env t f0 cells s)
    (careful : ∀ e ∈ calGradientTrace env t f0 grads cells s, Careful t e) :
    (∀ e ∈ calGradientTrace env t f0 grads cells s, Holds env t e) ∧
      ((calGradient env t f0 0 grads cells s).2.2.stopped = false →
        Consistent env t f0 (calGradient env t f0 0 grads cells s).2.1
          (calGradient env t f0 0 grads cells s).2.2) := by
  obtain ⟨kept, point⟩ := gradient_point (forall_mem_append.mp careful).1
  have after : (calGradient env t f0 0 grads cells s).2.2.stopped = false →
      Consistent env t f0 (calGradient env t f0 0 grads cells s).2.1
        (calGradient env t f0 0 grads cells s).2.2 := by
    intro going
    rw [point going, Consistent, kept]
    exact consistent
  refine ⟨forall_mem_append.mpr ⟨fun e member => ?_, ?_⟩, after⟩
  · obtain ⟨i, c, _, rfl⟩ := gradientTrace_probe member
    trivial
  split
  · intro e member
    cases member
  next going =>
    have running := Bool.eq_false_iff.mpr going
    intro e member
    rw [mem_singleton.mp member]
    exact ⟨after running, point running⟩

/-! ## Descent -/

/-- The state between two rounds of the inner loop. -/
structure Ready (env : Env F) (t : SearchTask) (d : Descent) : Prop where
  least : Consistent env t d.fLast d.inputMin d.search
  current : d.doDelta = true → At env t d.input d.search.distances

def Turn.Good (env : Env F) (t : SearchTask) : Turn → Prop
  | .again d => Ready env t d
  | .leave d => Consistent env t d.fLast d.inputMin d.search
  | .done f d => d.search.stopped = false → Consistent env t f d.inputMin d.search

lemma distance_minDistances (env : Env F) (t : SearchTask) (cells : Cells)
    (distances : Distances) (s : Search) :
    (distance env t cells distances s).2.2.minDistances = s.minDistances := by
  simp only [distance]
  split <;> split <;> rfl

lemma settle_good (least : Consistent env t d.fLast d.inputMin d.search)
    (at_ : At env t d.input d.search.distances) (sum : f = sumDistances t d.search.distances) :
    Turn.Good env t (settle t f d) := by
  simp only [settle]
  split
  · rintro ⟨⟩
  · split
    · exact least
    · exact ⟨⟨at_, sum⟩, fun _ => at_⟩

lemma turn_good (ready : Ready env t d) (careful : ∀ e ∈ turnTrace env grads d, Careful t e) :
    Turn.Good env t (turn env t grads d) := by
  simp only [turnTrace] at careful
  simp only [turn]
  split
  · exact fun _ => ready.least
  rename_i going
  rw [if_neg going] at careful
  split
  next delta =>
    rw [if_pos delta] at careful
    cases found : grads[d.deltaIdx]? with
    | none => exact fun _ => ready.least
    | some g =>
      simp only [found] at careful ⊢
      have listed : ReadersListed t d.deltaIdx := careful _ (List.mem_singleton_self _)
      have moved := single_at (ready.current delta) listed g.sign
        (env.doubles.toNat (env.doubles.mul g.pct (env.doubles.ofNat d.step))) d.search
      split
      · exact ready.least
      · exact settle_good ready.least moved rfl
  · generalize computeDeltaAll env d.step 0 grads d.input = input
    obtain ⟨at_, sum⟩ := distance_at env t input d.search.distances d.search
    have kept := distance_minDistances env t input d.search.distances d.search
    exact settle_good (by rw [kept]; exact ready.least) at_ sum

lemma nextDelta_ready {d' : Descent} (least : Consistent env t d.fLast d.inputMin d.search)
    (h : nextDelta env grads d = some d') : Ready env t d' := by
  simp only [nextDelta, Option.ite_none_left_eq_some] at h
  obtain ⟨-, -, made⟩ := h
  cases made
  exact ⟨least, fun _ => least.1⟩

lemma descendLoop_consistent (ready : Ready env t d)
    (careful : ∀ e ∈ descendLoopTrace env t grads fuel d, Careful t e)
    (h : descendLoop env t grads fuel d = some (f, cells, s)) (running : s.stopped = false) :
    Consistent env t f cells s := by
  refine descendLoop_rule (P := fun d es r => Ready env t d → (∀ e ∈ es, Careful t e) →
    r.2.2.stopped = false → Consistent env t r.1 r.2.1 r.2.2) ?_ ?_ h ready careful running
  · intro d d' es r follows rest ready careful
    obtain ⟨here, later⟩ := forall_mem_append.mp careful
    have good := turn_good ready here
    refine rest ?_ later
    cases follows with
    | again round =>
      rw [round] at good
      exact good
    | next round picked =>
      rw [round] at good
      exact nextDelta_ready good picked
  · intro d r ends ready careful
    have good := turn_good ready careful
    cases ends with
    | done round =>
      rw [round] at good
      exact good
    | last round none =>
      rw [round] at good
      exact fun _ => good

lemma ready_start (consistent : Consistent env t f cells s) :
    Ready env t ⟨cells, cells, f, false, 0, 1, s⟩ := by
  refine ⟨consistent, ?_⟩
  rintro ⟨⟩

lemma starts_ready (consistent : Consistent env t f0 inputMin s)
    (starts : Starts env t inputMin f0 grads s d es) : Ready env t d := by
  have kept := distance_minDistances env t (jump env inputMin f0 grads) s.distances s
  cases starts with
  | flat => exact ready_start consistent
  | back =>
    apply ready_start
    simp only [jumpDistance, kept]
    exact consistent
  | ahead =>
    apply ready_start
    exact distance_at env t (jump env inputMin f0 grads) s.distances s

lemma descend_consistent (consistent : Consistent env t f0 inputMin s)
    (careful : ∀ e ∈ descendTrace env t fuel inputMin f0 grads s, Careful t e) {s' : Search}
    (h : descend env t fuel inputMin f0 grads s = some (f, cells, s'))
    (running : s'.stopped = false) : Consistent env t f cells s' := by
  rcases descend_step env t inputMin f0 grads s with ⟨d, es, starts, step⟩ | ⟨zero, step⟩
  · obtain ⟨run, trace⟩ := step fuel
    rw [run] at h
    rw [trace] at careful
    exact descendLoop_consistent (starts_ready consistent starts)
      (forall_mem_append.mp careful).2 h running
  · rw [(step fuel).1] at h
    cases h
    cases running

/-! ## Evaluations only -/

/-- Nothing is expected at an evaluation or a trial. -/
def Quiet : Event → Prop
  | .epoch _ _ _ => False
  | .gradient _ _ _ _ => False
  | _ => True

lemma Quiet.holds (quiet : Quiet e) : Holds env t e := by
  cases e with
  | epoch _ _ _ | gradient _ _ _ _ => exact quiet.elim
  | _ => trivial

lemma turnTrace_quiet (member : e ∈ turnTrace env grads d) : Quiet e := by
  simp only [turnTrace] at member
  split at member
  · cases member
  split at member
  · split at member
    · cases member
    · rw [mem_singleton.mp member]
      trivial
  · rw [mem_singleton.mp member]
    trivial

lemma descendLoopTrace_quiet (member : e ∈ descendLoopTrace env t grads fuel d) : Quiet e := by
  induction fuel generalizing d with
  | zero => cases member
  | succ fuel ih =>
    rcases descendLoop_step env t grads d with ⟨d', follows, step⟩ | ⟨r, ends, step⟩
    · rw [(step fuel).2] at member
      rcases mem_append.mp member with here | later
      · exact turnTrace_quiet here
      · exact ih later
    · rw [(step fuel).2] at member
      exact turnTrace_quiet member

lemma starts_quiet (starts : Starts env t inputMin f0 grads s d es) (member : e ∈ es) :
    Quiet e := by
  cases starts with
  | flat => cases member
  | back | ahead =>
    rw [mem_singleton.mp member]
    trivial

lemma descendTrace_quiet (member : e ∈ descendTrace env t fuel inputMin f0 grads s) :
    Quiet e := by
  rcases descend_step env t inputMin f0 grads s with ⟨d, es, starts, step⟩ | ⟨zero, step⟩
  · rw [(step fuel).2] at member
    rcases mem_append.mp member with first | later
    · exact starts_quiet starts first
    · exact descendLoopTrace_quiet later
  · rw [(step fuel).2] at member
    rw [mem_singleton.mp member]
    trivial

lemma tryI2sTrace_quiet (member : e ∈ tryI2sTrace env t inputMin s) : Quiet e := by
  rcases mem_append.mp member with tried | last
  · obtain ⟨j, rfl⟩ := i2sTrace_trial tried
    trivial
  · split at last
    · rw [mem_singleton.mp last]
      trivial
    · cases last

/-! ## The search -/

lemma tryI2s_consistent (consistent : Consistent env t f0 inputMin s) :
    Consistent env t (tryI2s env t inputMin f0 s).1 (tryI2s env t inputMin f0 s).2.1
      (tryI2s env t inputMin f0 s).2.2 := by
  simp only [tryI2s]
  generalize i2sLoop env inputMin s 0 t.constraints (false, inputMin, s.scratchArgs) = looped
  obtain ⟨updated, cells, scratch⟩ := looped
  obtain ⟨at_, sum⟩ := distance_at env t cells s.distances { s with scratchArgs := scratch }
  have kept := distance_minDistances env t cells s.distances { s with scratchArgs := scratch }
  cases updated with
  | false => exact consistent
  | true =>
    simp only [if_true]
    split
    · exact ⟨at_, sum⟩
    · simp only [kept]
      exact consistent

variable (env t) in
/-- In a search that goes on, the distances belong to the point. -/
def Steady (q : Point F) : Prop :=
  q.search.stopped = false → Consistent env t q.f0 q.cells q.search

lemma opening_holds {a : Nat} (member : e ∈ .full cells a :: tryI2sTrace env t cells s) :
    Holds env t e := by
  rcases mem_cons.mp member with rfl | later
  · trivial
  · exact (tryI2sTrace_quiet later).holds

lemma repicked_consistent (env : Env F) (t : SearchTask) (q : Point F) :
    Consistent env t (repicked env t q).f0 (repicked env t q).cells (repicked env t q).search :=
  tryI2s_consistent (distance_at env t _ _ { q.search with restarts := q.search.restarts + 1 })

lemma sloped_holds (consistent : Consistent env t q.f0 q.cells q.search)
    (careful : ∀ e ∈ slopeTrace env t q, Careful t e) :
    (∀ e ∈ slopeTrace env t q, Holds env t e) ∧ Steady env t (sloped env t q) :=
  calGradient_holds consistent careful

lemma restart_holds {rounds : Nat} (steady : Steady env t q)
    (careful : ∀ e ∈ restartTrace env t rounds q, Careful t e) :
    (∀ e ∈ restartTrace env t rounds q, Holds env t e) ∧
      Steady env t (restart env t rounds q).2 := by
  refine restart_rule env t (P := fun q es p => Steady env t q → (∀ e ∈ es, Careful t e) →
    (∀ e ∈ es, Holds env t e) ∧ Steady env t p) ?_ ?_ ?_ rounds q steady careful
  · intro q steady _
    refine ⟨?_, steady⟩
    intro e member
    cases member
  · intro q _ _ _ _
    exact ⟨fun e member => opening_holds member, fun _ => repicked_consistent env t q⟩
  intro q es p _ _ rest _ careful
  obtain ⟨-, later⟩ := forall_mem_append.mp careful
  obtain ⟨slope, others⟩ := forall_mem_append.mp later
  obtain ⟨holds, after⟩ := sloped_holds (repicked_consistent env t q) slope
  obtain ⟨holds', last⟩ := rest after others
  refine ⟨forall_mem_append.mpr ⟨fun e member => opening_holds member, ?_⟩, last⟩
  exact forall_mem_append.mpr ⟨holds, holds'⟩

lemma restarted_holds (consistent : Consistent env t q.f0 q.cells q.search)
    (careful : ∀ e ∈ roundTrace env t q, Careful t e) :
    (∀ e ∈ roundTrace env t q, Holds env t e) ∧ Steady env t (restarted env t q) := by
  obtain ⟨begun, restarts⟩ := forall_mem_append.mp careful
  obtain ⟨holds, after⟩ := sloped_holds consistent (List.forall_mem_cons.mp begun).2
  obtain ⟨holds', last⟩ := restart_holds after restarts
  refine ⟨forall_mem_append.mpr ⟨?_, holds'⟩, last⟩
  exact List.forall_mem_cons.mpr ⟨consistent, holds⟩

lemma epochs_holds (steady : Steady env t q)
    (careful : ∀ e ∈ epochsTrace env t fuel q, Careful t e) :
    ∀ e ∈ epochsTrace env t fuel q, Holds env t e := by
  induction fuel generalizing q with
  | zero =>
    intro e member
    cases member
  | succ fuel ih =>
    rcases epochs_step env t q with ⟨-, step⟩ | ⟨going, step⟩ | ⟨going, running, step⟩
    · rw [(step fuel).2]
      intro e member
      cases member
    · rw [(step fuel).2] at careful ⊢
      exact (restarted_holds (steady going) careful).1
    rw [(step fuel).2] at careful ⊢
    obtain ⟨early, late⟩ := forall_mem_append.mp careful
    obtain ⟨holds, last⟩ := restarted_holds (steady going) early
    refine forall_mem_append.mpr ⟨holds, ?_⟩
    obtain ⟨steps, rest⟩ := forall_mem_append.mp late
    refine forall_mem_append.mpr ⟨fun e member => (descendTrace_quiet member).holds, ?_⟩
    cases lower : lowered env t fuel (restarted env t q) with
    | none =>
      intro e member
      cases member
    | some q' =>
      rw [lower] at rest
      exact ih (descend_consistent (last running) steps (lowered_some lower).1) rest

/-- In a run whose steps are all careful, the distances and their sum belong to the point
at the start of each round and wherever `cal_gradient` returns, which has not moved it. -/
theorem careful_run_consistent {fuel : Nat} {s : Search}
    (careful : ∀ e, e ∈ gdTrace env t fuel s → Careful t e) :
    ∀ e, e ∈ gdTrace env t fuel s → Holds env t e := by
  have first : ∀ e ∈ openTrace env t s, Holds env t e := fun e member => opening_holds member
  rcases gdEntry_step env t s with ⟨-, step⟩ | ⟨-, step⟩ | ⟨-, step⟩
  · rw [(step fuel).2]
    exact first
  · rw [(step fuel).2]
    exact first
  rw [(step fuel).2] at careful ⊢
  refine forall_mem_append.mpr ⟨first, ?_⟩
  apply epochs_holds
  · intro _
    exact tryI2s_consistent (distance_at env t _ _ { s with attempts := 0 })
  · exact (forall_mem_append.mp careful).2

end Search

/-! ## Examples -/

/-- The byte at an offset, which is 0 at first, plus 1 is compared with a value. -/
def nextConstraint (offset value : Nat) : Constraint where
  ast := .node2 ⟨.equal, 8, 0, 0, 5, 0⟩
    (.node2 ⟨.add, 8, 0, 0, 4, 0⟩
      (.leaf ⟨.read, 8, offset, 0, 3, 0⟩) (.leaf ⟨.constant, 8, 1, 0, 0, 0⟩))
    (.leaf ⟨.constant, 8, 2, 0, 0, 0⟩)
  args := ((mapArg (fun _ => 0) offset 1 .empty).pushConst 1).pushConst value

lemma nextConstraint_owned (offset value : Nat) : Owned (nextConstraint offset value) := by
  intro j v found
  match j, found with
  | 0, _ => exact ⟨offset, if_pos rfl⟩
  | 1, found => cases found
  | 2, found => cases found
  | j + 3, found => cases found

/-- The search moves both cells together, then each of them, and goes on from there. -/
theorem careful_run_consistent_two_bytes : ∃ t,
    finalize [(nextConstraint 0 20, .equal), (nextConstraint 1 15, .equal)] = some t ∧
      ∀ e, e ∈ gdTrace fractionEnv t 30 newSearch → Holds fractionEnv t e := by
  have run : ((finalize [(nextConstraint 0 20, .equal), (nextConstraint 1 15, .equal)]).map
      fun t => (t.constraints.all fun k => !isMemcmpKind k.2.comparison,
        (gdTrace fractionEnv t 30 newSearch).all fun e => !isLucky e)) = some (true, true) := by
    decide +kernel
  obtain ⟨t, finalized, checks⟩ := Option.map_eq_some_iff.mp run
  obtain ⟨plain, unlucky⟩ := Prod.mk.inj checks
  rw [List.all_eq_true] at plain unlucky
  have owned : ∀ p ∈ [(nextConstraint 0 20, AstKind.equal), (nextConstraint 1 15, .equal)],
      Owned p.1 :=
    List.forall_mem_cons.mpr ⟨nextConstraint_owned 0 20,
      List.forall_mem_singleton.mpr (nextConstraint_owned 1 15)⟩
  refine ⟨t, finalized, careful_run_consistent fun e member => ?_⟩
  cases e with
  | probe index cells lucky => exact (Bool.not_eq_true' lucky).mp (unlucky _ member)
  | step index cells =>
    refine finalize_lists owned finalized fun k inside memory => ?_
    have other := plain k inside
    rw [memory] at other
    cases other
  | _ => trivial

/-- The first gradient of the search that meets a solution by chance has moved the byte
from 5 to 6. -/
theorem probed_point_moved : ∃ e,
    finalize [(quotientConstraint 5, .equal)] = some (quotientTask 5) ∧
      e ∈ gdTrace (quotientEnv 0) (quotientTask 5) 1 newSearch ∧
      ¬ Holds (quotientEnv 0) (quotientTask 5) e := by
  have third : ((gdTrace (quotientEnv 0) (quotientTask 5) 1 newSearch)[3]?.map fun e =>
      match e with
      | .gradient _ before cells _ => (before 0, cells 0)
      | _ => (0, 0)) = some (5, 6) := by decide +kernel
  obtain ⟨e, found, points⟩ := Option.map_eq_some_iff.mp third
  refine ⟨e, quotientTask_finalized 5, List.mem_of_getElem? found, ?_⟩
  cases e with
  | gradient f0 before cells s =>
    rintro ⟨-, same⟩
    obtain ⟨was, is⟩ := Prod.mk.inj points
    rw [same, was] at is
    cases is
  | _ => cases points

end SearchPoints
