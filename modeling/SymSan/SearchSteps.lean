import SymSan.SearchTrace

/-!
# Rounds of a search

What each loop of `gd_entry` does in one round, said once for the function and its trace, and
the rules by which a property passes from the rounds to the whole loop.
-/

namespace SearchSteps

open JigsawTask GradientDescent SearchTrace

universe u

section Search

variable {F : Type u} (env : Env F) (t : SearchTask) {fuel : Nat} {q : Point F}

/-! ## Descent -/

/-- The state that the loop of the descent goes on with. -/
inductive Follows (grads : List (GradUnit F)) (d : Descent) : Descent → Prop where
  | again {d' : Descent} (round : turn env t grads d = .again d') : Follows grads d d'
  | next {left d' : Descent} (round : turn env t grads d = .leave left)
      (picked : nextDelta env grads left = some d') : Follows grads d d'

/-- The result that the loop of the descent ends with. -/
inductive Ends (grads : List (GradUnit F)) (d : Descent) : Nat × Cells × Search → Prop where
  | done {f : Nat} {d' : Descent} (round : turn env t grads d = .done f d') :
    Ends grads d (f, d'.inputMin, d'.search)
  | last {left : Descent} (round : turn env t grads d = .leave left)
      (none : nextDelta env grads left = none) :
    Ends grads d (left.fLast, left.inputMin, left.search)

lemma descendLoop_step (grads : List (GradUnit F)) (d : Descent) :
    (∃ d', Follows env t grads d d' ∧ ∀ fuel,
      descendLoop env t grads (fuel + 1) d = descendLoop env t grads fuel d' ∧
        descendLoopTrace env t grads (fuel + 1) d =
          turnTrace env grads d ++ descendLoopTrace env t grads fuel d') ∨
      ∃ r, Ends env t grads d r ∧ ∀ fuel,
        descendLoop env t grads (fuel + 1) d = some r ∧
          descendLoopTrace env t grads (fuel + 1) d = turnTrace env grads d := by
  cases round : turn env t grads d with
  | again d' =>
    refine .inl ⟨d', .again round, fun fuel => ?_⟩
    simp [descendLoop, descendLoopTrace, round]
  | done f d' =>
    refine .inr ⟨_, .done round, fun fuel => ?_⟩
    simp [descendLoop, descendLoopTrace, round]
  | leave left =>
    cases picked : nextDelta env grads left with
    | none =>
      refine .inr ⟨_, .last round picked, fun fuel => ?_⟩
      simp [descendLoop, descendLoopTrace, round, picked]
    | some d' =>
      refine .inl ⟨d', .next round picked, fun fuel => ?_⟩
      simp [descendLoop, descendLoopTrace, round, picked]

variable {env t} in
/-- What holds of the last round and passes back through the others holds of the loop. -/
lemma descendLoop_rule {grads : List (GradUnit F)}
    {P : Descent → List Event → Nat × Cells × Search → Prop}
    (again : ∀ {d d' es r}, Follows env t grads d d' → P d' es r →
      P d (turnTrace env grads d ++ es) r)
    (last : ∀ {d r}, Ends env t grads d r → P d (turnTrace env grads d) r) {d : Descent}
    {r : Nat × Cells × Search} (h : descendLoop env t grads fuel d = some r) :
    P d (descendLoopTrace env t grads fuel d) r := by
  induction fuel generalizing d with
  | zero => cases h
  | succ fuel ih =>
    rcases descendLoop_step env t grads d with ⟨d', follows, step⟩ | ⟨r', ends, step⟩
    · obtain ⟨run, trace⟩ := step fuel
      rw [run] at h
      rw [trace]
      exact again follows (ih h)
    obtain ⟨run, trace⟩ := step fuel
    rw [run] at h
    cases h
    rw [trace]
    exact last ends

/-- The cells that the descent tries first, if there is a gradient. -/
def jump (inputMin : Cells) (f0 : Nat) (grads : List (GradUnit F)) : Cells :=
  computeDeltaAll env (f0 / valSum grads) 0 grads inputMin

def jumpDistance (inputMin : Cells) (f0 : Nat) (grads : List (GradUnit F)) (s : Search) :
    Nat × Distances × Search :=
  distance env t (jump env inputMin f0 grads) s.distances s

/-- The first state of the loop of the descent, and what has been done before. -/
inductive Starts (inputMin : Cells) (f0 : Nat) (grads : List (GradUnit F)) (s : Search) :
    Descent → List Event → Prop where
  | flat : Starts inputMin f0 grads s
      ⟨inputMin, inputMin, f0, false, 0, 1, { s with distances := s.minDistances }⟩ []
  | back : Starts inputMin f0 grads s
      ⟨inputMin, inputMin, f0, false, 0, 1,
        { (jumpDistance env t inputMin f0 grads s).2.2 with
          distances := (jumpDistance env t inputMin f0 grads s).2.1 }⟩
      [.full (jump env inputMin f0 grads) s.attempts]
  | ahead : Starts inputMin f0 grads s
      ⟨jump env inputMin f0 grads, jump env inputMin f0 grads,
        (jumpDistance env t inputMin f0 grads s).1, false, 0, 1,
        { (jumpDistance env t inputMin f0 grads s).2.2 with
          distances := (jumpDistance env t inputMin f0 grads s).2.1
          minDistances := (jumpDistance env t inputMin f0 grads s).2.1 }⟩
      [.full (jump env inputMin f0 grads) s.attempts]

lemma descend_step (inputMin : Cells) (f0 : Nat) (grads : List (GradUnit F)) (s : Search) :
    (∃ d es, Starts env t inputMin f0 grads s d es ∧ ∀ fuel,
      descend env t fuel inputMin f0 grads s = descendLoop env t grads fuel d ∧
        descendTrace env t fuel inputMin f0 grads s = es ++ descendLoopTrace env t grads fuel d) ∨
      ((jumpDistance env t inputMin f0 grads s).1 = 0 ∧ ∀ fuel,
        descend env t fuel inputMin f0 grads s = some (0, inputMin,
          { (jumpDistance env t inputMin f0 grads s).2.2 with
            distances := (jumpDistance env t inputMin f0 grads s).2.1 }.succeed t
              (jump env inputMin f0 grads)) ∧
        descendTrace env t fuel inputMin f0 grads s =
          [.full (jump env inputMin f0 grads) s.attempts]) := by
  by_cases flat : valSum grads = 0
  · refine .inl ⟨_, _, .flat, fun fuel => ?_⟩
    simp [descend, descendTrace, flat]
  by_cases worse : f0 ≤ (jumpDistance env t inputMin f0 grads s).1
  · refine .inl ⟨_, _, .back, fun fuel => ?_⟩
    simp only [jumpDistance, jump] at worse ⊢
    simp [descend, descendTrace, flat, worse]
  by_cases zero : (jumpDistance env t inputMin f0 grads s).1 = 0
  · simp only [jumpDistance, jump] at worse zero ⊢
    simp only [descend, descendTrace, flat, worse, if_false]
    simp [zero]
  · refine .inl ⟨_, _, .ahead, fun fuel => ?_⟩
    simp only [jumpDistance, jump] at worse zero ⊢
    simp [descend, descendTrace, flat, worse, zero]

/-! ## Restarts -/

/-- A point after `cal_gradient`. -/
def sloped (q : Point F) : Point F :=
  let r := calGradient env t q.f0 0 q.grads q.cells q.search
  ⟨q.f0, r.2.1, r.1, r.2.2⟩

def slopeTrace (q : Point F) : List Event :=
  calGradientTrace env t q.f0 q.grads q.cells q.search

/-- A new starting point, after `try_i2s`. -/
def repicked (q : Point F) : Point F :=
  let p := repickStartPoint env t q.search
  let r := tryI2s env t p.2.1 p.1 p.2.2
  ⟨r.1, r.2.1, q.grads, r.2.2⟩

def repickTrace (q : Point F) : List Event :=
  let p := repickStartPoint env t q.search
  .full p.2.1 q.search.attempts :: tryI2sTrace env t p.2.1 p.2.2

/-- What holds where no restart is made, and passes back through a restart, holds of the
restarts. -/
lemma restart_rule {P : Point F → List Event → Point F → Prop} (idle : ∀ q, P q [] q)
    (ended : ∀ q, q.search.stopped = false → (repicked env t q).search.stopped = true →
      P q (repickTrace env t q) (repicked env t q))
    (again : ∀ q es p, q.search.stopped = false → (repicked env t q).search.stopped = false →
      P (sloped env t (repicked env t q)) es p →
      P q (repickTrace env t q ++ (slopeTrace env t (repicked env t q) ++ es)) p) (rounds : Nat)
    (q : Point F) : P q (restartTrace env t rounds q) (restart env t rounds q).2 := by
  induction rounds generalizing q with
  | zero => exact idle q
  | succ rounds ih =>
    simp only [restart, restartTrace]
    split
    · exact idle q
    rename_i goesOn
    have running : q.search.stopped = false :=
      Bool.eq_false_iff.mpr fun stopped => goesOn (.inr stopped)
    split
    next stopped =>
      rw [List.append_nil]
      exact ended q running stopped
    next going =>
      exact again q _ _ running (Bool.eq_false_iff.mpr going) (ih _)

/-! ## Epochs -/

/-- The point from which an epoch descends. -/
def restarted (q : Point F) : Point F :=
  (restart env t (maxOptimaRound + 1) (sloped env t q)).2

/-- An epoch up to its descent. -/
def roundTrace (q : Point F) : List Event :=
  .epoch q.f0 q.cells q.search :: slopeTrace env t q ++
    restartTrace env t (maxOptimaRound + 1) (sloped env t q)

/-- The point after the descent. -/
def lowered (fuel : Nat) (p : Point F) : Option (Point F) :=
  (descend env t fuel p.cells p.f0 (normalize env p.grads) p.search).map fun r =>
    ⟨r.1, r.2.1, normalize env p.grads, r.2.2⟩

def lowerTrace (fuel : Nat) (p : Point F) : List Event :=
  descendTrace env t fuel p.cells p.f0 (normalize env p.grads) p.search

variable {env t} in
lemma lowered_some {p : Point F} (h : lowered env t fuel p = some q) :
    descend env t fuel p.cells p.f0 (GradientDescent.normalize env p.grads) p.search =
        some (q.f0, q.cells, q.search) ∧
      q.grads = GradientDescent.normalize env p.grads := by
  obtain ⟨r, descended, rfl⟩ := Option.map_eq_some_iff.mp h
  exact ⟨descended, rfl⟩

-- With the number of rounds as a variable, nothing unfolds the restarts.
lemma epochs_rounds {n : Nat} (rounds : n = maxOptimaRound + 1) (going : q.search.stopped = false)
    (fuel : Nat) :
    let p := restart env t n (sloped env t q)
    epochs env t (fuel + 1) q =
        (if p.2.search.stopped ∨ p.1 = 0 then some p.2.search
          else (lowered env t fuel p.2).bind (epochs env t fuel)) ∧
      epochsTrace env t (fuel + 1) q =
        .epoch q.f0 q.cells q.search :: slopeTrace env t q ++
          restartTrace env t n (sloped env t q) ++
          if p.2.search.stopped ∨ p.1 = 0 then []
          else lowerTrace env t fuel p.2 ++
            (lowered env t fuel p.2).elim [] (epochsTrace env t fuel) := by
  intro p
  rw [epochs_succ, epochsTrace_succ, ← rounds, going]
  constructor
  · simp only [lowered, Option.bind_map]
    rfl
  · simp only [lowered]
    dsimp only [p, sloped, slopeTrace, lowerTrace]
    cases descend env t fuel _ _ _ _ with
    | none | some r => rfl

lemma epochs_step (q : Point F) :
    (q.search.stopped = true ∧ ∀ fuel, epochs env t (fuel + 1) q = some q.search ∧
      epochsTrace env t (fuel + 1) q = []) ∨
    (q.search.stopped = false ∧ ∀ fuel,
      epochs env t (fuel + 1) q = some (restarted env t q).search ∧
      epochsTrace env t (fuel + 1) q = roundTrace env t q) ∨
    (q.search.stopped = false ∧ (restarted env t q).search.stopped = false ∧ ∀ fuel,
      epochs env t (fuel + 1) q =
        (lowered env t fuel (restarted env t q)).bind (epochs env t fuel) ∧
      epochsTrace env t (fuel + 1) q = roundTrace env t q ++
        (lowerTrace env t fuel (restarted env t q) ++
          (lowered env t fuel (restarted env t q)).elim [] (epochsTrace env t fuel))) := by
  cases going : q.search.stopped with
  | true =>
    refine .inl ⟨rfl, fun fuel => ?_⟩
    rw [epochs_succ, epochsTrace_succ, if_pos going, if_pos going]
    exact ⟨rfl, rfl⟩
  | false =>
    have round := epochs_rounds env t rfl going
    simp only [restarted]
    generalize restart env t (maxOptimaRound + 1) (sloped env t q) = p at round
    by_cases finished : p.2.search.stopped ∨ p.1 = 0
    · refine .inr (.inl ⟨trivial, fun fuel => ?_⟩)
      obtain ⟨run, trace⟩ := round fuel
      rw [run, trace, if_pos finished, if_pos finished, List.append_nil]
      exact ⟨rfl, rfl⟩
    refine .inr (.inr ⟨trivial, ?_, fun fuel => ?_⟩)
    · exact Bool.eq_false_iff.mpr fun stopped => finished (.inl stopped)
    · obtain ⟨run, trace⟩ := round fuel
      rw [run, trace, if_neg finished, if_neg finished]
      exact ⟨rfl, rfl⟩

variable {env t} in
/-- What holds where the outer loop ends, and passes back through an epoch, holds of the
loop. -/
lemma epochs_rule {P : Point F → List Event → Search → Prop}
    (idle : ∀ q, q.search.stopped = true → P q [] q.search)
    (ended : ∀ q, q.search.stopped = false → P q (roundTrace env t q) (restarted env t q).search)
    (again : ∀ q fuel q' es s, q.search.stopped = false →
      (restarted env t q).search.stopped = false →
      lowered env t fuel (restarted env t q) = some q' → P q' es s →
      P q (roundTrace env t q ++ (lowerTrace env t fuel (restarted env t q) ++ es)) s)
    {s : Search} (h : epochs env t fuel q = some s) : P q (epochsTrace env t fuel q) s := by
  induction fuel generalizing q with
  | zero => cases h
  | succ fuel ih =>
    rcases epochs_step env t q with ⟨stopped, step⟩ | ⟨going, step⟩ | ⟨going, running, step⟩
    · obtain ⟨run, trace⟩ := step fuel
      rw [run] at h
      cases h
      rw [trace]
      exact idle q stopped
    · obtain ⟨run, trace⟩ := step fuel
      rw [run] at h
      cases h
      rw [trace]
      exact ended q going
    · obtain ⟨run, trace⟩ := step fuel
      rw [run] at h
      obtain ⟨q', lower, h⟩ := Option.bind_eq_some_iff.mp h
      rw [trace, lower]
      exact again q fuel q' _ s going running lower (ih h)

/-! ## The search -/

/-- The point that the outer loop is entered with. -/
def opened (s : Search) : Point F :=
  let p := reloadInput env t { s with attempts := 0 }
  let r := tryI2s env t p.2.1 p.1 p.2.2
  ⟨r.1, r.2.1, t.inputs.map fun _ => ⟨false, 0, env.doubles.zero⟩, r.2.2⟩

def openTrace (s : Search) : List Event :=
  let p := reloadInput env t { s with attempts := 0 }
  .full p.2.1 0 :: tryI2sTrace env t p.2.1 p.2.2

lemma gdEntry_step (s : Search) :
    ((opened env t s).search.stopped = true ∧ ∀ fuel,
      gdEntry env t fuel s = some ((opened env t s).search.solved, (opened env t s).search) ∧
        gdTrace env t fuel s = openTrace env t s) ∨
    ((opened env t s).search.stopped = false ∧ ∀ fuel,
      gdEntry env t fuel s = some (false, (opened env t s).search) ∧
        gdTrace env t fuel s = openTrace env t s) ∨
    ((opened env t s).search.stopped = false ∧ ∀ fuel,
      gdEntry env t fuel s = (epochs env t fuel (opened env t s)).map (fun s => (s.solved, s)) ∧
        gdTrace env t fuel s = openTrace env t s ++ epochsTrace env t fuel (opened env t s)) := by
  have run : ∀ fuel, gdEntry env t fuel s =
      if (opened env t s).search.stopped then
        some ((opened env t s).search.solved, (opened env t s).search)
      else if (opened env t s).f0 = 2 ^ 64 - 1 then some (false, (opened env t s).search)
      else (epochs env t fuel (opened env t s)).map fun s => (s.solved, s) := fun _ => rfl
  have trace : ∀ fuel, gdTrace env t fuel s = openTrace env t s ++
      if (opened env t s).search.stopped then []
      else if (opened env t s).f0 = 2 ^ 64 - 1 then []
      else epochsTrace env t fuel (opened env t s) := fun _ => rfl
  generalize opened env t s = q at run trace
  cases stopped : q.search.stopped with
  | true =>
    refine .inl ⟨rfl, fun fuel => ?_⟩
    rw [run, trace, if_pos stopped, if_pos stopped, List.append_nil]
    exact ⟨rfl, rfl⟩
  | false =>
    have going := Bool.eq_false_iff.mp stopped
    by_cases saturated : q.f0 = 2 ^ 64 - 1
    · refine .inr (.inl ⟨rfl, fun fuel => ?_⟩)
      rw [run, trace, if_neg going, if_neg going, if_pos saturated, if_pos saturated,
        List.append_nil]
      exact ⟨rfl, rfl⟩
    · refine .inr (.inr ⟨rfl, fun fuel => ?_⟩)
      rw [run, trace, if_neg going, if_neg going, if_neg saturated, if_neg saturated]
      exact ⟨rfl, rfl⟩

end Search

end SearchSteps
