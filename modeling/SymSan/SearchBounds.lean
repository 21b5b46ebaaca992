import Mathlib.Data.List.Perm.Subperm
import SymSan.SearchCosts

/-!
# How long a search takes

`gd_entry` returns after at most as many rounds as the limit allows attempts. How often it
calls the function of a constraint is bounded by the limit and the number of inputs: that
number bounds the cells of a gradient and the runs of bytes of a constraint.
-/

namespace SearchBounds

open RgdAst JigsawTask GradientDescent TaskLayout SearchTrace SearchSteps
open SearchCosts
open DescentSoundness (wordConstraint byteConstraint fractionEnv newSearch)

universe u

section Search

variable {F : Type u} {env : Env F} {t : SearchTask} {g g' : Aggregate}
  {constraints : List (Constraint × AstKind)} {grads : List (GradUnit F)} {fuel i runs : Nat}
  {r : Nat × Cells × Search} {q : Point F} {s : Search} {d : Descent}

/-! ## Enough fuel -/

/-- Every round but the last makes an attempt, and a stopped search ends the loop. -/
lemma descendLoop_returns (grads : List (GradUnit F)) (limited : Limited (meter d.search))
    (positive : 1 ≤ fuel) (enough : maxExecTimes + 2 ≤ fuel + d.search.attempts) :
    ∃ r, descendLoop env t grads fuel d = some r := by
  induction fuel generalizing d with
  | zero => exact absurd positive (Nat.not_succ_le_zero 0)
  | succ fuel ih =>
    by_cases going : d.search.stopped = true
    · simp [descendLoop, turn, going]
    have below : d.search.attempts ≤ maxExecTimes := limited.2 (Bool.eq_false_iff.mpr going)
    rcases descendLoop_step env t grads d with ⟨d', follows, step⟩ | ⟨r, ends, step⟩
    · rw [(step fuel).1]
      have made := follows_attempts follows
      exact ih ((follows_cost follows).limited limited) (by omega) (by omega)
    · exact ⟨r, (step fuel).1⟩

lemma descend_returns (inputMin : Cells) (f0 : Nat) (grads : List (GradUnit F))
    (limited : Limited (meter s)) (running : s.stopped = false) (positive : 1 ≤ fuel)
    (enough : maxExecTimes + 2 ≤ fuel + s.attempts) :
    ∃ r, descend env t fuel inputMin f0 grads s = some r := by
  rcases descend_step env t inputMin f0 grads s with ⟨d, es, starts, step⟩ | ⟨zero, step⟩
  · rw [(step fuel).1]
    have first := starts_cost running starts
    have grown : s.attempts ≤ d.search.attempts := first.mono
    exact descendLoop_returns grads (first.limited limited) positive (by omega)
  · exact ⟨_, (step fuel).1⟩

lemma descendLoop_more (h : descendLoop env t grads fuel d = some r) (more : Nat) :
    descendLoop env t grads (fuel + more) d = some r := by
  induction fuel generalizing d with
  | zero => cases h
  | succ fuel ih =>
    rw [Nat.succ_add_eq_add_succ, Nat.add_succ]
    rcases descendLoop_step env t grads d with ⟨d', follows, step⟩ | ⟨r', ends, step⟩
    · rw [(step _).1] at h ⊢
      exact ih h
    · rw [(step _).1] at h ⊢
      exact h

lemma descend_more {inputMin : Cells} {f0 : Nat}
    (h : descend env t fuel inputMin f0 grads s = some r) (more : Nat) :
    descend env t (fuel + more) inputMin f0 grads s = some r := by
  rcases descend_step env t inputMin f0 grads s with ⟨d, es, starts, step⟩ | ⟨zero, step⟩
  · rw [(step _).1] at h ⊢
    exact descendLoop_more h more
  · rw [(step _).1] at h ⊢
    exact h

/-! ## The outer loop -/

lemma restarted_cost (env : Env F) (within : RunsWithin t runs) (q : Point F) :
    Cost (meter q.search) (meter (restarted env t q).search) (roundTrace env t q)
      (q.grads.length * ((restarted env t q).search.attempts - q.search.attempts + 1))
      (2 * runs * ((restarted env t q).search.attempts - q.search.attempts)) := by
  have begun : Cost (meter q.search) (meter q.search) [.epoch q.f0 q.cells q.search] 0 0 :=
    .silent rfl rfl (fun _ => rfl) _
  have slope := begun.append (sloped_cost env t q)
  have rest := restart_cost env within (maxOptimaRound + 1) (sloped env t q)
  rw [sloped_length, ← restarted] at rest
  have grown := slope.mono
  have grown' := rest.mono
  simp only [meter] at grown grown'
  have apart : 1 + ((restarted env t q).search.attempts - (sloped env t q).search.attempts) ≤
      (restarted env t q).search.attempts - q.search.attempts + 1 := by omega
  have apart' : 0 + ((restarted env t q).search.attempts - (sloped env t q).search.attempts) ≤
      (restarted env t q).search.attempts - q.search.attempts := by omega
  have total := spread q.grads.length apart
  have total' := spread (2 * runs) apart'
  exact (slope.append rest).weaken (by omega) (by omega)

/-- Each epoch has one gradient of its own and is followed by an attempt of the descent. -/
lemma epochs_cost (within : RunsWithin t runs) (h : epochs env t fuel q = some s) :
    Cost (meter q.search) (meter s) (epochsTrace env t fuel q)
      (q.grads.length * (s.attempts - q.search.attempts + 1))
      (2 * runs * (s.attempts - q.search.attempts)) := by
  refine epochs_rule (P := fun q es s => Cost (meter q.search) (meter s) es
    (q.grads.length * (s.attempts - q.search.attempts + 1))
    (2 * runs * (s.attempts - q.search.attempts))) ?_ ?_ ?_ h
  · intro q _
    exact (Cost.nil _).weaken (Nat.zero_le _) (Nat.zero_le _)
  · intro q _
    exact restarted_cost env within q
  intro q fuel q' es s _ running lower rest
  have round := restarted_cost env within q
  obtain ⟨descended, grads⟩ := lowered_some lower
  obtain ⟨fell, _⟩ := descend_cost running descended
  rw [grads, normalize_length, restarted, restart_length, sloped_length] at rest
  have grown := round.mono
  have grown' := rest.mono
  simp only [meter] at grown grown'
  have apart : (restarted env t q).search.attempts - q.search.attempts + 1 +
      (s.attempts - q'.search.attempts + 1) ≤ s.attempts - q.search.attempts + 1 := by omega
  have apart' : (restarted env t q).search.attempts - q.search.attempts +
      (s.attempts - q'.search.attempts) ≤ s.attempts - q.search.attempts := by omega
  have total := spread q.grads.length apart
  have total' := spread (2 * runs) apart'
  exact (round.append (fell.append rest)).weaken (by omega) (by omega)

lemma epochs_returns (env : Env F) (within : RunsWithin t runs)
    (limited : Limited (meter q.search)) (positive : 1 ≤ fuel)
    (enough : maxExecTimes + 3 ≤ fuel + q.search.attempts) : ∃ s, epochs env t fuel q = some s := by
  induction fuel generalizing q with
  | zero => exact absurd positive (Nat.not_succ_le_zero 0)
  | succ fuel ih =>
    rcases epochs_step env t q with ⟨-, step⟩ | ⟨-, step⟩ | ⟨going, running, step⟩
    · exact ⟨_, (step fuel).1⟩
    · exact ⟨_, (step fuel).1⟩
    have below : q.search.attempts ≤ maxExecTimes := limited.2 going
    have round := restarted_cost env within q
    have limited' := round.limited limited
    have grown : q.search.attempts ≤ (restarted env t q).search.attempts := round.mono
    obtain ⟨⟨f, cells, _⟩, descended⟩ := descend_returns (restarted env t q).cells
      (restarted env t q).f0 (normalize env (restarted env t q).grads) limited' running
      (show 1 ≤ fuel by omega) (by omega)
    obtain ⟨fell, _⟩ := descend_cost running descended
    rw [(step fuel).1, lowered, descended]
    exact ih (fell.limited limited') (by omega) (by dsimp only; omega)

lemma lowered_more {p : Point F} (h : lowered env t fuel p = some q) (more : Nat) :
    lowered env t (fuel + more) p = some q := by
  obtain ⟨r, descended, rfl⟩ := Option.map_eq_some_iff.mp h
  rw [lowered, descend_more descended more]
  rfl

lemma epochs_more (h : epochs env t fuel q = some s) (more : Nat) :
    epochs env t (fuel + more) q = some s := by
  induction fuel generalizing q with
  | zero => cases h
  | succ fuel ih =>
    rw [Nat.succ_add_eq_add_succ, Nat.add_succ]
    rcases epochs_step env t q with ⟨-, step⟩ | ⟨-, step⟩ | ⟨-, -, step⟩
    · rw [(step _).1] at h ⊢
      exact h
    · rw [(step _).1] at h ⊢
      exact h
    · rw [(step _).1] at h ⊢
      obtain ⟨_, lower, h⟩ := Option.bind_eq_some_iff.mp h
      rw [lowered_more lower more]
      exact ih h

/-! ## Runs of bytes -/

lemma cell_inputs {c : Constraint} {x : Nat} (h : g.cell c x = some (i, g')) :
    g.inputs.length ≤ g'.inputs.length := by
  rcases cell_cases h with ⟨-, rfl⟩ | ⟨-, -, value, shape, -, -, rfl⟩
  · exact Nat.le_refl _
  · simp only [List.length_append]
    exact Nat.le_add_right ..

section Pass

variable {i : Nat} {c : Constraint} {comparison : AstKind} {s s' : Pass}

lemma mapInput_lengths {e : Nat × Nat} (h : mapInput i c comparison s e = some s') :
    s.aggregate.inputs.length ≤ s'.aggregate.inputs.length ∧
      s'.candidates.length ≤ s.candidates.length + 1 := by
  obtain ⟨⟨_, g⟩, made, rfl⟩ := Option.map_eq_some_iff.mp h
  have more := cell_inputs made
  have one : ∀ (gap : Bool) (run : Nat × Nat),
      (if gap then s.candidates ++ [run] else s.candidates).length ≤ s.candidates.length + 1 := by
    intro gap run
    cases gap with
    | true => exact Nat.le_of_eq List.length_append
    | false => exact Nat.le_succ _
  exact ⟨more, one _ _⟩

lemma mapInputs_lengths {entries : List (Nat × Nat)}
    (h : mapInputs i c comparison entries s = some s') :
    s.aggregate.inputs.length ≤ s'.aggregate.inputs.length ∧
      s'.candidates.length ≤ s.candidates.length + entries.length := by
  induction entries generalizing s with
  | nil =>
    cases h
    exact ⟨Nat.le_refl _, Nat.le_refl _⟩
  | cons e rest ih =>
    obtain ⟨_, first, h⟩ := Option.bind_eq_some_iff.mp h
    obtain ⟨_, _⟩ := mapInput_lengths first
    obtain ⟨_, _⟩ := ih h
    rw [List.length_cons]
    omega

end Pass

lemma finalizeConstraint_runs {c : Constraint} {comparison : AstKind} {cm : ConsMeta}
    (numbered : Numbered g) (h : finalizeConstraint i c comparison g = some (cm, g')) :
    Numbered g' ∧ g.inputs.length ≤ g'.inputs.length ∧
      cm.i2sCandidates.length ≤ g'.inputs.length + 1 := by
  obtain ⟨s, made, done⟩ := Option.map_eq_some_iff.mp h
  cases done
  obtain ⟨more, runs⟩ := mapInputs_lengths made
  obtain ⟨numbered', -, -, cells⟩ := mapInputs_cells (s := ⟨g, _, _, _, _⟩) numbered made
  refine ⟨numbered', more, ?_⟩
  have distinct : (c.args.localMap.entries.map (·.1)).Nodup := by
    rw [List.nodup_iff_pairwise_ne, List.pairwise_map]
    exact c.args.localMap.entries_sorted.imp Nat.ne_of_lt
  have inside : c.args.localMap.entries.map (·.1) ⊆ s.aggregate.inputs.map (·.1) := by
    intro x member
    obtain ⟨e, entry, rfl⟩ := List.mem_map.mp member
    obtain ⟨j, found⟩ := cells e entry
    obtain ⟨v, here⟩ := (numbered' e.1 j).mp found
    exact List.mem_map.mpr ⟨(e.1, v), List.mem_of_getElem? here, rfl⟩
  have few := (distinct.subperm inside).length_le
  simp only [List.length_map] at few
  simp only [List.length_append, List.length_singleton, List.length_nil] at runs ⊢
  omega

lemma finalizeFrom_runs {metas : List (Constraint × ConsMeta)} (numbered : Numbered g)
    (h : finalizeFrom i constraints g = some (metas, g')) :
    ∀ k ∈ metas, k.2.i2sCandidates.length ≤ g'.inputs.length + 1 := by
  obtain ⟨-, -, all⟩ := finalizeFrom_rule (I := fun _ => Numbered)
    (G := fun _ k g => k.2.i2sCandidates.length ≤ g.inputs.length + 1)
    (fun i p g cm g' _ before made => by
      obtain ⟨after, -, few⟩ := finalizeConstraint_runs before made
      exact ⟨after, few⟩)
    (fun i p g cm g' _ before made j k few => by
      obtain ⟨-, more, -⟩ := finalizeConstraint_runs before made
      exact Nat.le_trans few (Nat.succ_le_succ more)) numbered h
  intro k member
  obtain ⟨m, found⟩ := List.mem_iff_getElem?.mp member
  exact all m k found

lemma finalize_runs (finalized : finalize constraints = some t) :
    RunsWithin t (t.inputs.length + 1) := by
  obtain ⟨⟨_, g⟩, made, done⟩ := Option.map_eq_some_iff.mp finalized
  cases done
  exact finalizeFrom_runs numbered_empty made

/-! ## The search -/

/-- The bound for a task with so many inputs: attempts, lucky probes and trials. -/
def callBound (inputs : Nat) : Nat :=
  (maxExecTimes + 2) + inputs * (maxExecTimes + 3) + 2 * (inputs + 1) * (maxExecTimes + 3)

lemma opened_cost (env : Env F) (within : RunsWithin t runs) (s : Search) :
    Cost (0, s.stopped) (meter (opened env t s).search) (openTrace env t s) 0 (2 * runs) ∧
      1 ≤ (opened env t s).search.attempts := by
  have next : (reloadInput env t { s with attempts := 0 }).2.2.attempts = 1 :=
    distance_attempts env t _ _ _
  have later := (tryI2s_tally env within (reloadInput env t { s with attempts := 0 }).2.1
    (reloadInput env t { s with attempts := 0 }).1
    (reloadInput env t { s with attempts := 0 }).2.2).mono
  constructor
  · exact opening_cost env within _ _ _ (s := { s with attempts := 0 })
      (fun _ => Nat.zero_le _) next fun going => next ▸ distance_ended env t _ _ _ going
  · exact next ▸ later

lemma calls_le {m : Bool} {m' : Nat × Bool} {es : List Event} {lucky trials : Nat}
    (cost : Cost (0, m) m' es lucky trials) (i : Nat) :
    calls i es ≤ maxExecTimes + 2 + lucky + trials := by
  have limited : Limited m' := cost.limited ⟨Nat.zero_le _, fun _ => Nat.zero_le _⟩
  have attempts := cost.attempts
  have few := cost.lucky
  have tried := cost.trials i
  have below := limited.1
  simp only [calls]
  omega

lemma gdTrace_calls (finalized : finalize constraints = some t) {r : Bool × Search}
    (h : gdEntry env t fuel s = some r) (i : Nat) :
    calls i (gdTrace env t fuel s) ≤ callBound t.inputs.length := by
  have within := finalize_runs finalized
  obtain ⟨started, -⟩ := opened_cost env within s
  have least : 2 * (t.inputs.length + 1) * 1 + 2 * (t.inputs.length + 1) * (maxExecTimes + 2) ≤
      2 * (t.inputs.length + 1) * (maxExecTimes + 3) := spread _ (by omega)
  have brief : calls i (openTrace env t s) ≤ callBound t.inputs.length := by
    have few := calls_le started i
    simp only [callBound]
    omega
  rcases gdEntry_step env t s with ⟨-, step⟩ | ⟨-, step⟩ | ⟨-, step⟩
  · rw [(step fuel).2]
    exact brief
  · rw [(step fuel).2]
    exact brief
  obtain ⟨run, trace⟩ := step fuel
  rw [run] at h
  rw [trace]
  obtain ⟨last, searched, -⟩ := Option.map_eq_some_iff.mp h
  have whole := started.append (epochs_cost within searched)
  have limited : Limited (meter last) := whole.limited ⟨Nat.zero_le _, fun _ => Nat.zero_le _⟩
  have below : last.attempts ≤ maxExecTimes + 2 := limited.1
  have few := calls_le whole i
  have inputs : (opened env t s).grads.length = t.inputs.length := List.length_map ..
  rw [inputs] at few
  have lucky : t.inputs.length * (last.attempts - (opened env t s).search.attempts + 1) ≤
      t.inputs.length * (maxExecTimes + 3) := Nat.mul_le_mul_left _ (by omega)
  have trials :
      2 * (t.inputs.length + 1) * (last.attempts - (opened env t s).search.attempts) ≤
        2 * (t.inputs.length + 1) * (maxExecTimes + 2) := Nat.mul_le_mul_left _ (by omega)
  simp only [callBound]
  omega

lemma gdEntry_more {r : Bool × Search} (h : gdEntry env t fuel s = some r) (more : Nat) :
    gdEntry env t (fuel + more) s = some r := by
  rcases gdEntry_step env t s with ⟨-, step⟩ | ⟨-, step⟩ | ⟨-, step⟩
  · rw [(step _).1] at h ⊢
    exact h
  · rw [(step _).1] at h ⊢
    exact h
  · rw [(step _).1] at h ⊢
    obtain ⟨_, searched, rfl⟩ := Option.map_eq_some_iff.mp h
    rw [epochs_more searched more]
    rfl

lemma gdEntry_returns (env : Env F) (within : RunsWithin t runs) (s : Search) :
    ∃ r, gdEntry env t (maxExecTimes + 2) s = some r := by
  rcases gdEntry_step env t s with ⟨-, step⟩ | ⟨-, step⟩ | ⟨-, step⟩
  · exact ⟨_, (step _).1⟩
  · exact ⟨_, (step _).1⟩
  obtain ⟨started, _⟩ := opened_cost env within s
  have limited := started.limited ⟨Nat.zero_le _, fun _ => Nat.zero_le _⟩
  obtain ⟨_, searched⟩ := epochs_returns env within limited
    (show 1 ≤ maxExecTimes + 2 by omega) (by omega)
  rw [(step _).1, searched]
  exact ⟨_, rfl⟩

/-- `gd_entry` returns one result for all fuel from `MAX_EXEC_TIMES` + 2 on, whatever the
functions, the random bytes and the movements are, and calls the function of no constraint
more often than the bound says. -/
theorem gdEntry_bounded (env : Env F) {constraints : List (Constraint × AstKind)}
    (finalized : finalize constraints = some t) (s : Search) :
    ∃ r s', ∀ fuel, maxExecTimes + 2 ≤ fuel → gdEntry env t fuel s = some (r, s') ∧
      ∀ i, calls i (gdTrace env t fuel s) ≤ callBound t.inputs.length := by
  obtain ⟨⟨r, s'⟩, returned⟩ := gdEntry_returns env (finalize_runs finalized) s
  refine ⟨r, s', fun fuel enough => ?_⟩
  have same : gdEntry env t fuel s = some (r, s') := by
    rw [← Nat.add_sub_of_le enough]
    exact gdEntry_more returned _
  exact ⟨same, gdTrace_calls finalized same⟩

theorem gdEntry_bounded_word_and_byte : ∃ t,
    finalize [(wordConstraint 257, .equal), (byteConstraint 2 7, .equal)] = some t ∧
      ∃ r s', ∀ fuel, maxExecTimes + 2 ≤ fuel →
        gdEntry fractionEnv t fuel newSearch = some (r, s') ∧
          ∀ i, calls i (gdTrace fractionEnv t fuel newSearch) ≤ callBound t.inputs.length := by
  have made : (finalize [(wordConstraint 257, .equal), (byteConstraint 2 7, .equal)]).isSome := by
    decide
  obtain ⟨t, finalized⟩ := Option.isSome_iff_exists.mp made
  exact ⟨t, finalized, gdEntry_bounded fractionEnv finalized newSearch⟩

end Search

end SearchBounds
