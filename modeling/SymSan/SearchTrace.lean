import SymSan.GradientDescent

/-!
# The course of a search

`gd_entry` only returns its verdict. What it does on the way is recorded here: each trace
follows the control flow of the function it is named after and uses that function for the
states in between. An evaluation is recorded with the cells that it is made on, a round of
the outer loop and a return of `cal_gradient` with the point and the state there.
-/

namespace SearchTrace

open RgdAst JigsawTask GradientDescent

universe u

inductive Event where
  /-- `distance` on the cells, after so many attempts. -/
  | full (cells : Cells) (attempts : Nat)
  /-- A probe of `partial_derivative`, and whether it returns with a moved cell. -/
  | probe (index : Nat) (cells : Cells) (lucky : Bool)
  /-- A step of `descend` for one cell. -/
  | step (index : Nat) (cells : Cells)
  /-- `try_new_i2s_value` on a constraint. -/
  | trial (constraint : Nat)
  /-- The outer loop starts another round. -/
  | epoch (f0 : Nat) (cells : Cells) (s : Search)
  /-- `cal_gradient` returns, with the cells it was called with and has left. -/
  | gradient (f0 : Nat) (before cells : Cells) (s : Search)

section Search

variable {F : Type u} (env : Env F) (t : SearchTask)

/-! ## Gradient -/

def probeTrace (direction : Bool) (index f0 : Nat) : Nat → Nat → Cells → Search → List Event
  | 0, _, _, _ => []
  | fuel + 1, delta, cells, s =>
    if 256 ≤ delta then []
    else
      let cells := update cells index direction delta
      let (single, distances, s) := singleDistance env t cells index s.minDistances s
      .probe index cells (decide (single = 0)) ::
        if single = 0 then []
        else if s.count.stopped then []
        else if sumDistances t distances = f0 then
          probeTrace direction index f0 fuel (delta * 4) cells s.count
        else []

def derivativeTrace (index f0 : Nat) (cells : Cells) (s : Search) : List Event :=
  probeTrace env t true index f0 8 1 cells s ++
    match probe env t true index f0 8 1 0 cells s with
    | .value _ s => probeTrace env t false index f0 8 1 cells s
    | _ => []

def gradientTrace (f0 : Nat) : Nat → List (GradUnit F) → Cells → Search → List Event
  | _, [], _, _ => []
  | index, _ :: rest, cells, s =>
    if s.stopped then []
    else
      let (_, _, cells', s') := partialDerivative env t index f0 cells s
      derivativeTrace env t index f0 cells s ++ gradientTrace f0 (index + 1) rest cells' s'

/-- A return from a stopped search is not recorded. -/
def calGradientTrace (f0 : Nat) (grads : List (GradUnit F)) (cells : Cells) (s : Search) :
    List Event :=
  let (_, cells', s') := calGradient env t f0 0 grads cells s
  gradientTrace env t f0 0 grads cells s ++
    if s'.stopped then [] else [.gradient f0 cells cells' s']

/-! ## Descent -/

def turnTrace (grads : List (GradUnit F)) (d : Descent) : List Event :=
  if d.search.stopped then []
  else if d.doDelta then
    match grads[d.deltaIdx]? with
    | none => []
    | some g =>
      let movement := env.doubles.mul g.pct (env.doubles.ofNat d.step)
      [.step d.deltaIdx (update d.input d.deltaIdx g.sign (env.doubles.toNat movement))]
  else [.full (computeDeltaAll env d.step 0 grads d.input) d.search.attempts]

def descendLoopTrace (grads : List (GradUnit F)) : Nat → Descent → List Event
  | 0, _ => []
  | fuel + 1, d =>
    turnTrace env grads d ++
      match turn env t grads d with
      | .again d => descendLoopTrace grads fuel d
      | .done _ _ => []
      | .leave d =>
        match nextDelta env grads d with
        | none => []
        | some d => descendLoopTrace grads fuel d

def descendTrace (fuel : Nat) (inputMin : Cells) (f0 : Nat) (grads : List (GradUnit F))
    (s : Search) : List Event :=
  if valSum grads = 0 then
    descendLoopTrace env t grads fuel
      ⟨inputMin, inputMin, f0, false, 0, 1, { s with distances := s.minDistances }⟩
  else
    let input := computeDeltaAll env (f0 / valSum grads) 0 grads inputMin
    let (f, distances, s') := distance env t input s.distances s
    let s' := { s' with distances := distances }
    .full input s.attempts ::
      if f0 ≤ f then
        descendLoopTrace env t grads fuel ⟨inputMin, inputMin, f0, false, 0, 1, s'⟩
      else if f = 0 then []
      else descendLoopTrace env t grads fuel
        ⟨input, input, f, false, 0, 1, { s' with minDistances := distances }⟩

/-! ## Input to state -/

def trialTrace (i : Nat) (value : Option Nat) : List Event :=
  if value.isSome then [.trial i] else []

def candidatesTrace (i : Nat) (k : Constraint × ConsMeta) (ops : Nat × Nat)
    (inputMin cells : Cells) : List (Nat × Nat) → Nat → Nat → (Nat → Nat) → List Event
  | [], _, _, _ => []
  | run :: rest, input, inputR, scratch =>
    if 8 < run.2 then candidatesTrace i k ops inputMin cells rest input inputR scratch
    else
      let (input, inputR) := gatherRun k run inputMin input inputR
      let comp := k.2.comparison
      trialTrace i (matchOperand comp ops input) ++
        match tryValue env k run (matchOperand comp ops input) cells scratch with
        | (some _, _) => []
        | (none, scratch) =>
          let reversed := (matchOperand comp ops inputR).map fun value =>
            shiftRight env (swap64 value) (64 - 8 * run.2)
          trialTrace i reversed ++
            match tryValue env k run reversed cells scratch with
            | (some _, _) => []
            | (none, scratch) => candidatesTrace i k ops inputMin cells rest input inputR scratch

def i2sTrace (inputMin : Cells) (s : Search) : Nat → List (Constraint × ConsMeta) →
    Bool × Cells × (Nat → Nat) → List Event
  | _, [], _ => []
  | i, k :: rest, acc =>
    (if s.minDistances i = 0 then []
      else if isRelationalKind k.2.comparison then
        candidatesTrace env i k (s.operands i) inputMin acc.2.1 k.2.i2sCandidates 0
          (env.garbage i) acc.2.2
      else []) ++
      i2sTrace inputMin s (i + 1) rest (i2sLoop env inputMin s i [k] acc)

def tryI2sTrace (inputMin : Cells) (s : Search) : List Event :=
  let (updated, cells, _) := i2sLoop env inputMin s 0 t.constraints (false, inputMin, s.scratchArgs)
  i2sTrace env inputMin s 0 t.constraints (false, inputMin, s.scratchArgs) ++
    if updated then [.full cells s.attempts] else []

/-! ## The search -/

def restartTrace : Nat → Point F → List Event
  | 0, _ => []
  | rounds + 1, q =>
    if maxVal q.grads ≠ 0 ∨ q.search.stopped then []
    else
      let (f0, cells, s) := repickStartPoint env t q.search
      let (f0', cells', s') := tryI2s env t cells f0 s
      .full cells q.search.attempts :: tryI2sTrace env t cells s ++
        if s'.stopped then []
        else
          let (grads, cells'', s'') := calGradient env t f0' 0 q.grads cells' s'
          calGradientTrace env t f0' q.grads cells' s' ++
            restartTrace rounds ⟨f0', cells'', grads, s''⟩

def epochsTrace : Nat → Point F → List Event
  | 0, _ => []
  | fuel + 1, q =>
    if q.search.stopped then []
    else
      let (grads, cells, s) := calGradient env t q.f0 0 q.grads q.cells q.search
      let (rounds, q') := restart env t (maxOptimaRound + 1) ⟨q.f0, cells, grads, s⟩
      .epoch q.f0 q.cells q.search :: calGradientTrace env t q.f0 q.grads q.cells q.search ++
        restartTrace env t (maxOptimaRound + 1) ⟨q.f0, cells, grads, s⟩ ++
        if q'.search.stopped ∨ rounds = 0 then []
        else
          let grads := normalize env q'.grads
          descendTrace env t fuel q'.cells q'.f0 grads q'.search ++
            match descend env t fuel q'.cells q'.f0 grads q'.search with
            | none => []
            | some (f0, cells, s) => epochsTrace fuel ⟨f0, cells, grads, s⟩

-- Stated by hand, for the reason given at `epochs_succ`.
lemma epochsTrace_succ (fuel : Nat) (q : Point F) :
    epochsTrace env t (fuel + 1) q =
      if q.search.stopped then []
      else
        let (grads, cells, s) := calGradient env t q.f0 0 q.grads q.cells q.search
        let (rounds, q') := restart env t (maxOptimaRound + 1) ⟨q.f0, cells, grads, s⟩
        .epoch q.f0 q.cells q.search :: calGradientTrace env t q.f0 q.grads q.cells q.search ++
          restartTrace env t (maxOptimaRound + 1) ⟨q.f0, cells, grads, s⟩ ++
          if q'.search.stopped ∨ rounds = 0 then []
          else
            let grads := normalize env q'.grads
            descendTrace env t fuel q'.cells q'.f0 grads q'.search ++
              match descend env t fuel q'.cells q'.f0 grads q'.search with
              | none => []
              | some (f0, cells, s) => epochsTrace env t fuel ⟨f0, cells, grads, s⟩ := rfl

/-- Everything that `gd_entry` does on a task in the state `s`. -/
def gdTrace (fuel : Nat) (s : Search) : List Event :=
  let (f0, cells, s1) := reloadInput env t { s with attempts := 0 }
  let (f0', cells', s2) := tryI2s env t cells f0 s1
  .full cells 0 :: tryI2sTrace env t cells s1 ++
    if s2.stopped then []
    else if f0' = 2 ^ 64 - 1 then []
    else
      let grads := t.inputs.map fun _ => (⟨false, 0, env.doubles.zero⟩ : GradUnit F)
      epochsTrace env t fuel ⟨f0', cells', grads, s2⟩

end Search

end SearchTrace
