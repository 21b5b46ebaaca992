import SymSan.JigsawCode

/-!
# The gradient search

`gd_entry` with everything it calls. The search moves one 64-bit cell for each input
byte; a cell may leave the range of a byte, because the compiled functions add the
bytes of a read, and `add_results` carries the excess over when it turns the cells
of a solution into bytes.

Floating-point numbers, the random bytes of a restart and a variable that the code
reads before it is written are parameters.
-/

namespace GradientDescent

open RgdAst OrderedMaps JigsawTask JigsawCode

universe u

/-- The operations on `double` that the search uses. -/
structure Doubles (F : Type u) where
  zero : F
  ofNat : Nat → F
  mul : F → F → F
  div : F → F → F
  /-- Conversion to `uint64_t`. -/
  toNat : F → Nat
  /-- Greater than 0.0. -/
  positive : F → Bool
  /-- Less than 0.01. -/
  small : F → Bool

structure Env (F : Type u) where
  machine : Machine
  doubles : Doubles F
  /-- The byte for a cell in the n-th restart. -/
  random : Nat → Nat → BitVec 8
  /-- What is in `input_r` before it is written, for each constraint. -/
  garbage : Nat → Nat

def maxExecTimes : Nat := 1000

/-- `MAX_NUM_MINIMAL_OPTIMA_ROUND` -/
def maxOptimaRound : Nat := 32

abbrev Cells : Type := Nat → Nat

abbrev Distances : Type := Nat → Nat

/-- The fields of a task that the search changes. -/
structure Search where
  scratchArgs : Nat → Nat
  minDistances : Distances
  distances : Distances
  /-- `op1` and `op2` of the constraints. -/
  operands : Nat → Nat × Nat
  stopped : Bool
  solved : Bool
  attempts : Nat
  solution : Nat → Option Nat
  restarts : Nat

/-! ## Results -/

/-- The word over the cells of a read, from cell `j` on. -/
def joinCells : List (Nat × Nat) → Nat → Nat
  | [], _ => 0
  | (_, value) :: rest, j => (value * 2 ^ (8 * j) + joinCells rest (j + 1)) % 2 ^ 64

def writeBytes (start : Nat) (byte : Nat → Nat) (length : Nat) (solution : Nat → Option Nat) :
    Nat → Option Nat :=
  (List.range length).foldl
    (fun solution j => Function.update solution (start + j) (some (byte j))) solution

/-- The loop of `add_results` over the ordered cells. -/
def decodeLoop (shapes : Nat → Option Nat) : Nat → List (Nat × Nat) → (Nat → Option Nat) →
    Nat → Option Nat
  | 0, _, solution => solution
  | _ + 1, [], solution => solution
  | fuel + 1, (start, value) :: rest, solution =>
    let length := (shapes start).getD 0
    let block := ((start, value) :: rest).take length
    if length = 0 then decodeLoop shapes fuel rest solution
    else if length ≤ 8 then
      decodeLoop shapes fuel (((start, value) :: rest).drop length)
        (writeBytes start (fun j => joinCells block 0 / 2 ^ (8 * j) % 256) length solution)
    else
      decodeLoop shapes fuel (((start, value) :: rest).drop length)
        (writeBytes start (fun j => (block.getD j (0, 0)).2 % 256) length solution)

def orderedInputs (t : SearchTask) (cells : Cells) : OrderedMap Nat :=
  (t.inputs.zipIdx).foldl (fun m entry => m.insert entry.1.1 (cells entry.2)) .empty

def addResults (t : SearchTask) (cells : Cells) (solution : Nat → Option Nat) : Nat → Option Nat :=
  let ordered := (orderedInputs t cells).entries
  decodeLoop t.shapes ordered.length ordered solution

/-! ## Distances -/

def satInc (base inc : Nat) : Nat :=
  if (base + inc) % 2 ^ 64 < base then 2 ^ 64 - 1 else (base + inc) % 2 ^ 64

def minus (a b : Nat) : Nat := (a + 2 ^ 64 - b) % 2 ^ 64

def getDistance (comp : AstKind) (a b : Nat) : Nat :=
  match comp with
  | .equal => if b ≤ a then a - b else b - a
  | .distinct => if a = b then 1 else 0
  | .ult => if a < b then 0 else satInc (a - b) 1
  | .ule => if a ≤ b then 0 else a - b
  | .ugt => if b < a then 0 else satInc (b - a) 1
  | .uge => if b ≤ a then 0 else b - a
  | .slt => if (BitVec.ofNat 64 a).slt (BitVec.ofNat 64 b) then 0 else satInc (minus a b) 1
  | .sle => if (BitVec.ofNat 64 a).sle (BitVec.ofNat 64 b) then 0 else minus a b
  | .sgt => if (BitVec.ofNat 64 b).slt (BitVec.ofNat 64 a) then 0 else satInc (minus b a) 1
  | .sge => if (BitVec.ofNat 64 b).sle (BitVec.ofNat 64 a) then 0 else minus b a
  | .memcmp => a ^^^ 1
  | .memcmpN => a
  | _ => 0

/-- The argument array for a constraint; slots without argument keep their content. -/
def loadArgs (inputArgs : List (Bool × Nat)) (cells : Cells) (scratch : Nat → Nat) :
    Nat → Nat := fun j =>
  if j < retOffset then scratch j
  else match inputArgs[j - retOffset]? with
  | some (true, cell) => cells cell
  | some (false, value) => value
  | none => scratch j

section Search

variable {F : Type u} (env : Env F) (t : SearchTask)

/-- The arguments after the function of a constraint has run. -/
def callFn (k : Constraint × ConsMeta) (cells : Cells) (scratch : Nat → Nat) : Nat → Nat :=
  fn env.machine k.1 (loadArgs k.2.inputArgs cells scratch)

/-- The distance for the operands in the first two slots, which have 64 bits. -/
def distanceAfter (k : Constraint × ConsMeta) (scratch : Nat → Nat) : Nat :=
  getDistance k.2.comparison (scratch 0 % 2 ^ 64) (scratch 1 % 2 ^ 64)

/-- The constraints are evaluated one after the other. -/
structure Evaluation where
  scratch : Nat → Nat
  distances : Distances
  operands : Nat → Nat × Nat
  res : Nat

def singleLoop (cells : Cells) : List Nat → Evaluation → Evaluation
  | [], e => e
  | i :: rest, e =>
    match t.constraints[i]? with
    | none => singleLoop cells rest e
    | some k =>
      let scratch := callFn env k cells e.scratch
      let dis := distanceAfter k scratch
      singleLoop cells rest { e with
        scratch := scratch, distances := Function.update e.distances i dis
        res := satInc e.res dis }

/-- `single_distance`: the sum over the constraints with the cell, the new distances
and the argument array. -/
def singleDistance (cells : Cells) (index : Nat) (distances : Distances) (s : Search) :
    Nat × Distances × Search :=
  let e := singleLoop env t cells (t.cmap index) ⟨s.scratchArgs, distances, s.operands, 0⟩
  (e.res, e.distances, { s with scratchArgs := e.scratch })

def distanceLoop (cells : Cells) : Nat → List (Constraint × ConsMeta) → Evaluation → Evaluation
  | _, [], e => e
  | i, k :: rest, e =>
    let scratch := callFn env k cells e.scratch
    let dis := distanceAfter k scratch
    distanceLoop cells (i + 1) rest
      ⟨scratch, Function.update e.distances i dis,
        Function.update e.operands i (scratch 0 % 2 ^ 64, scratch 1 % 2 ^ 64), satInc e.res dis⟩

def Search.succeed (s : Search) (cells : Cells) : Search :=
  { s with stopped := true, solved := true, solution := addResults t cells s.solution }

def Search.count (s : Search) : Search :=
  { s with
    attempts := s.attempts + 1
    stopped := s.stopped || decide (maxExecTimes < s.attempts + 1) }

/-- `distance`; the distances are returned for the caller to keep. -/
def distance (cells : Cells) (distances : Distances) (s : Search) : Nat × Distances × Search :=
  let e := distanceLoop env cells 0 t.constraints ⟨s.scratchArgs, distances, s.operands, 0⟩
  let s := { s with scratchArgs := e.scratch, operands := e.operands }
  let s := if e.res = 0 then s.succeed t cells else s
  let s := s.count
  (e.res, e.distances,
    if maxExecTimes < s.attempts then { s with solved := false } else s)

def sumDistances (distances : Distances) : Nat :=
  (List.range t.constraints.length).foldl (fun sum i => satInc sum (distances i)) 0

/-! ## Gradient -/

def update (cells : Cells) (index : Nat) (direction : Bool) (delta : Nat) : Cells :=
  Function.update cells index
    (if direction then (cells index + delta) % 2 ^ 64 else minus (cells index) (delta % 2 ^ 64))

inductive Probe where
  /-- The constraints with the cell are all satisfied. -/
  | lucky (cells : Cells) (s : Search)
  | stopped (cells : Cells) (s : Search)
  | value (f : Nat) (s : Search)

/-- One of the two loops of `partial_derivative`. The cell moves on by every step that
is tried, and a step that changes nothing is followed by one four times as large. -/
def probe (direction : Bool) (index f0 : Nat) : Nat → Nat → Nat → Cells → Search → Probe
  | 0, _, f, _, s => .value f s
  | fuel + 1, delta, f, cells, s =>
    if 256 ≤ delta then .value f s
    else
      let cells := update cells index direction delta
      let (single, distances, s) := singleDistance env t cells index s.minDistances s
      if single = 0 then .lucky cells s
      else
        let f := sumDistances t distances
        let s := s.count
        if s.stopped then .stopped cells s
        else if f = f0 then probe direction index f0 fuel (delta * 4) f cells s
        else .value f s

structure GradUnit (F : Type u) where
  sign : Bool
  val : Nat
  pct : F

/-- Sign and value from the distances on both sides. -/
def slope (f0 plus minus : Nat) : Bool × Nat :=
  if minus < f0 then
    if plus < f0 then
      if minus < plus then (false, f0 - minus) else (true, f0 - plus)
    else (false, f0 - minus)
  else if plus < f0 then (true, f0 - plus)
  else (true, 0)

/-- `partial_derivative`: sign, value and the cells, which are only restored at the
end. -/
def partialDerivative (index f0 : Nat) (cells : Cells) (s : Search) : Bool × Nat × Cells × Search :=
  match probe env t true index f0 8 1 0 cells s with
  | .lucky cells s => (true, 0, cells, s)
  | .stopped cells s => (false, 0, cells, s)
  | .value plus s =>
    match probe env t false index f0 8 1 0 cells s with
    | .lucky cells s => (false, 0, cells, s)
    | .stopped cells s => (false, 0, cells, s)
    | .value minus s =>
      let (sign, val) := slope f0 plus minus
      (sign, val, cells, s)

def calGradient (f0 : Nat) : Nat → List (GradUnit F) → Cells → Search →
    List (GradUnit F) × Cells × Search
  | _, [], cells, s => ([], cells, s)
  | index, g :: rest, cells, s =>
    if s.stopped then (g :: rest, cells, s)
    else
      let (sign, val, cells, s) := partialDerivative env t index f0 cells s
      let (rest, cells, s) := calGradient f0 (index + 1) rest cells s
      ({ g with sign := sign, val := val } :: rest, cells, s)

def maxVal (grads : List (GradUnit F)) : Nat :=
  grads.foldl (fun max g => if max < g.val then g.val else max) 0

def valSum (grads : List (GradUnit F)) : Nat :=
  grads.foldl (fun sum g => (sum + g.val) % 2 ^ 64) 0

def normalize (grads : List (GradUnit F)) : List (GradUnit F) :=
  let ops := env.doubles
  let max := ops.ofNat (maxVal grads)
  if ops.positive max then
    grads.map fun g => { g with pct := ops.mul (ops.ofNat 1) (ops.div (ops.ofNat g.val) max) }
  else grads

def computeDeltaAll (step : Nat) : Nat → List (GradUnit F) → Cells → Cells
  | _, [], cells => cells
  | index, g :: rest, cells =>
    let movement := env.doubles.mul g.pct (env.doubles.ofNat step)
    computeDeltaAll step (index + 1) rest (update cells index g.sign (env.doubles.toNat movement))

/-! ## Descent -/

structure Descent where
  inputMin : Cells
  input : Cells
  fLast : Nat
  doDelta : Bool
  deltaIdx : Nat
  step : Nat
  search : Search

inductive Turn where
  | again (d : Descent)
  | leave (d : Descent)
  | done (f : Nat) (d : Descent)

/-- The end of a round of the inner loop, with the new distance `f`. -/
def settle (f : Nat) (d : Descent) : Turn :=
  if f = 0 then .done 0 { d with search := d.search.succeed t d.input }
  else if d.fLast < f then .leave d
  else .again { d with
    step := d.step * 2 % 2 ^ 64, inputMin := d.input, fLast := f
    search := { d.search with minDistances := d.search.distances } }

/-- A round of the inner loop. -/
def turn (grads : List (GradUnit F)) (d : Descent) : Turn :=
  let s := d.search
  if s.stopped then .done d.fLast d
  else if d.doDelta then
    match grads[d.deltaIdx]? with
    | none => .done d.fLast d
    | some g =>
      let movement := env.doubles.mul g.pct (env.doubles.ofNat d.step)
      let input := update d.input d.deltaIdx g.sign (env.doubles.toNat movement)
      let (single, distances, s) := singleDistance env t input d.deltaIdx s.distances s
      let d := { d with input := input, search := { s with distances := distances }.count }
      if single = 0 then .leave d else settle t (sumDistances t distances) d
  else
    let input := computeDeltaAll env d.step 0 grads d.input
    let (f, distances, s) := distance env t input s.distances s
    settle t f { d with input := input, search := { s with distances := distances } }

/-- After the inner loop: the next cell with a noticeable gradient, if there is one. -/
def nextDelta (grads : List (GradUnit F)) (d : Descent) : Option Descent :=
  if grads.length = 1 then none
  else
    let first := if d.doDelta then d.deltaIdx + 1 else 0
    let small := (grads.drop first).takeWhile fun g => env.doubles.small g.pct
    let next := first + small.length
    if grads.length ≤ next then none
    else some { d with
      doDelta := true, deltaIdx := next, input := d.inputMin, step := 1
      search := { d.search with distances := d.search.minDistances } }

def descendLoop (grads : List (GradUnit F)) : Nat → Descent → Option (Nat × Cells × Search)
  | 0, _ => none
  | fuel + 1, d =>
    match turn env t grads d with
    | .again d => descendLoop grads fuel d
    | .done f d => some (f, d.inputMin, d.search)
    | .leave d =>
      match nextDelta env grads d with
      | none => some (d.fLast, d.inputMin, d.search)
      | some d => descendLoop grads fuel d

def descend (fuel : Nat) (inputMin : Cells) (f0 : Nat) (grads : List (GradUnit F)) (s : Search) :
    Option (Nat × Cells × Search) :=
  let start (inputMin : Cells) (fLast : Nat) (s : Search) : Descent :=
    ⟨inputMin, inputMin, fLast, false, 0, 1, s⟩
  let sum := valSum grads
  if sum = 0 then
    descendLoop env t grads fuel (start inputMin f0 { s with distances := s.minDistances })
  else
    let input := computeDeltaAll env (f0 / sum) 0 grads inputMin
    let (f, distances, s) := distance env t input s.distances s
    let s := { s with distances := distances }
    if f0 ≤ f then descendLoop env t grads fuel (start inputMin f0 s)
    else if f = 0 then some (0, inputMin, s.succeed t input)
    else descendLoop env t grads fuel (start input f { s with minDistances := distances })

/-! ## Input to state -/

def getI2sValue (comp : AstKind) (v : Nat) (rhs : Bool) : Nat :=
  match comp with
  | .distinct | .ugt | .sgt => if rhs then minus v 1 else (v + 1) % 2 ^ 64
  | .ult | .slt => if rhs then (v + 1) % 2 ^ 64 else minus v 1
  | _ => v

def swap64 (v : Nat) : Nat :=
  ((List.range 8).map fun j => v / 2 ^ (8 * j) % 256 * 2 ^ (8 * (7 - j))).sum

def shiftRight (v bits : Nat) : Nat :=
  if bits < 64 then v / 2 ^ bits else env.machine.shiftRight v bits

/-- `try_new_i2s_value`: the distance of a constraint with `value` spread over its
inputs, and the argument array. -/
def tryNewI2sValue (k : Constraint × ConsMeta) (value : Nat) (scratch : Nat → Nat) :
    Nat × (Nat → Nat) :=
  let spread := k.1.args.localMap.entries.zipIdx.foldl
    (fun scratch entry => Function.update scratch (retOffset + entry.1.2)
      (shiftRight env value (8 * entry.2) % 256)) scratch
  let filled := k.1.args.inputArgs.zipIdx.foldl
    (fun scratch arg => if arg.1.1 then scratch
      else Function.update scratch (retOffset + arg.2) arg.1.2) spread
  let scratch := fn env.machine k.1 filled
  (distanceAfter k scratch, scratch)

def cellOf (k : Constraint × ConsMeta) (offset : Nat) : Nat :=
  (k.2.inputArgs.getD ((k.1.args.localMap.find offset).getD 0) (false, 0)).2

def setRun (k : Constraint × ConsMeta) (run : Nat × Nat) (value : Nat) (cells : Cells) : Cells :=
  (List.range run.2).foldl
    (fun cells j => Function.update cells (cellOf k (run.1 + j)) (value / 2 ^ (8 * j) % 256)) cells

/-- The bytes of a run are or-ed into what the earlier runs have left. -/
def gatherRun (k : Constraint × ConsMeta) (run : Nat × Nat) (cells : Cells)
    (input inputR : Nat) : Nat × Nat :=
  (List.range run.2).foldl
    (fun acc j =>
      let v := cells (cellOf k (run.1 + j)) % 256
      (acc.1 ||| v * 2 ^ (8 * j), acc.2 ||| v * 2 ^ (8 * run.2 - 8 * j - 8))) (input, inputR)

/-- The value to try if a run of bytes is one of the compared operands. -/
def matchOperand (comp : AstKind) (ops : Nat × Nat) (input : Nat) : Option Nat :=
  if input = ops.1 then some (getI2sValue comp ops.2 true)
  else if input = ops.2 then some (getI2sValue comp ops.1 false)
  else none

/-- A value is tried; it is kept if it satisfies the constraint. -/
def tryValue (k : Constraint × ConsMeta) (run : Nat × Nat) (value : Option Nat) (cells : Cells)
    (scratch : Nat → Nat) : Option Cells × (Nat → Nat) :=
  match value with
  | none => (none, scratch)
  | some value =>
    let (dis, scratch) := tryNewI2sValue env k value scratch
    (if dis = 0 then some (setRun k run value cells) else none, scratch)

/-- The loop over the candidate runs of a comparison. -/
def tryCandidates (k : Constraint × ConsMeta) (ops : Nat × Nat) (inputMin cells : Cells) :
    List (Nat × Nat) → Nat → Nat → (Nat → Nat) → Option Cells × (Nat → Nat)
  | [], _, _, scratch => (none, scratch)
  | run :: rest, input, inputR, scratch =>
    if 8 < run.2 then tryCandidates k ops inputMin cells rest input inputR scratch
    else
      let (input, inputR) := gatherRun k run inputMin input inputR
      let comp := k.2.comparison
      match tryValue env k run (matchOperand comp ops input) cells scratch with
      | (some cells, scratch) => (some cells, scratch)
      | (none, scratch) =>
        let reversed := (matchOperand comp ops inputR).map fun value =>
          shiftRight env (swap64 value) (64 - 8 * run.2)
        match tryValue env k run reversed cells scratch with
        | (some cells, scratch) => (some cells, scratch)
        | (none, scratch) => tryCandidates k ops inputMin cells rest input inputR scratch

/-- The constants of a memory comparison, in words of 8 bytes, copied over the input. -/
def copyConstants (k : Constraint × ConsMeta) (run : Nat × Nat) (constIndex : Nat)
    (cells : Cells) : Cells :=
  (List.range run.2).foldl
    (fun cells j =>
      let value := (k.1.args.inputArgs.getD (constIndex + j / 8) (false, 0)).2
      Function.update cells (cellOf k (run.1 + j)) (value / 2 ^ (8 * (j % 8)) % 256)) cells

/-- A memory comparison with a constant: the cells, if they are to be changed. -/
def tryMemcmp (k : Constraint × ConsMeta) (cells : Cells) : Option Cells :=
  let args := k.1.args.inputArgs
  let constIndex := (args.takeWhile (·.1)).length
  if constIndex = args.length then none
  else match k.2.i2sCandidates with
  | [run] =>
    if run.2 ≠ k.1.args.localMap.keys.length then none
    else some (copyConstants k run constIndex cells)
  | _ => none

/-- The loop over the constraints: whether cells were changed, the cells and the
argument array. -/
def i2sLoop (inputMin : Cells) (s : Search) : Nat → List (Constraint × ConsMeta) →
    Bool × Cells × (Nat → Nat) → Bool × Cells × (Nat → Nat)
  | _, [], acc => acc
  | i, k :: rest, (updated, cells, scratch) =>
    let acc :=
      if s.minDistances i = 0 then (updated, cells, scratch)
      else if isRelationalKind k.2.comparison then
        match tryCandidates env k (s.operands i) inputMin cells k.2.i2sCandidates 0
            (env.garbage i) scratch with
        | (some cells, scratch) => (true, cells, scratch)
        | (none, scratch) => (updated, cells, scratch)
      else if k.2.comparison = .memcmp then
        match tryMemcmp k cells with
        | some cells => (true, cells, scratch)
        | none => (updated, cells, scratch)
      else (updated, cells, scratch)
    i2sLoop inputMin s (i + 1) rest acc

def tryI2s (inputMin : Cells) (f0 : Nat) (s : Search) : Nat × Cells × Search :=
  let (updated, cells, scratch) :=
    i2sLoop env inputMin s 0 t.constraints (false, inputMin, s.scratchArgs)
  let s := { s with scratchArgs := scratch }
  if updated then
    let (f, distances, s) := distance env t cells s.distances s
    let s := { s with distances := distances }
    if f < f0 then (f, cells, { s with minDistances := distances }) else (f0, inputMin, s)
  else (f0, inputMin, s)

/-! ## The search -/

def repickStartPoint (s : Search) : Nat × Cells × Search :=
  let cells : Cells := fun i => (env.random s.restarts i).toNat
  let s := { s with restarts := s.restarts + 1 }
  let (f, distances, s) := distance env t cells s.minDistances s
  (f, cells, { s with minDistances := distances })

def reloadInput (s : Search) : Nat × Cells × Search :=
  let cells : Cells := fun i => (t.inputs.getD i (0, 0)).2
  let (f, distances, s) := distance env t cells s.minDistances s
  (f, cells, { s with minDistances := distances })

/-- A search point with its distance and gradient. -/
structure Point (F : Type u) where
  f0 : Nat
  cells : Cells
  grads : List (GradUnit F)
  search : Search

/-- The inner loop of `gd_entry`: restarts until there is a gradient; the number of
rounds that are left. Clearing the gradient has no effect on it. -/
def restart : Nat → Point F → Nat × Point F
  | 0, q => (0, q)
  | rounds + 1, q =>
    if maxVal q.grads ≠ 0 ∨ q.search.stopped then (rounds + 1, q)
    else
      let (f0, cells, s) := repickStartPoint env t q.search
      let (f0, cells, s) := tryI2s env t cells f0 s
      if s.stopped then (rounds, ⟨f0, cells, q.grads, s⟩)
      else
        let (grads, cells, s) := calGradient env t f0 0 q.grads cells s
        restart rounds ⟨f0, cells, grads, s⟩

/-- The outer loop of `gd_entry`. -/
def epochs : Nat → Point F → Option Search
  | 0, _ => none
  | fuel + 1, q =>
    if q.search.stopped then some q.search
    else
      let (grads, cells, s) := calGradient env t q.f0 0 q.grads q.cells q.search
      let (rounds, q) := restart env t (maxOptimaRound + 1) ⟨q.f0, cells, grads, s⟩
      if q.search.stopped ∨ rounds = 0 then some q.search
      else
        let grads := normalize env q.grads
        (descend env t fuel q.cells q.f0 grads q.search).bind fun (f0, cells, s) =>
          epochs fuel ⟨f0, cells, grads, s⟩

-- Stated by hand: deriving this equation unrolls the rounds of `restart`.
lemma epochs_succ (fuel : Nat) (q : Point F) :
    epochs env t (fuel + 1) q =
      if q.search.stopped then some q.search
      else
        let (grads, cells, s) := calGradient env t q.f0 0 q.grads q.cells q.search
        let (rounds, q) := restart env t (maxOptimaRound + 1) ⟨q.f0, cells, grads, s⟩
        if q.search.stopped ∨ rounds = 0 then some q.search
        else
          let grads := normalize env q.grads
          (descend env t fuel q.cells q.f0 grads q.search).bind fun (f0, cells, s) =>
            epochs env t fuel ⟨f0, cells, grads, s⟩ := rfl

/-- `gd_entry` on a task in the state `s`: the result and the state. -/
def gdEntry (fuel : Nat) (s : Search) : Option (Bool × Search) :=
  let (f0, cells, s) := reloadInput env t { s with attempts := 0 }
  let (f0, cells, s) := tryI2s env t cells f0 s
  if s.stopped then some (s.solved, s)
  else if f0 = 2 ^ 64 - 1 then some (false, s)
  else
    let grads := t.inputs.map fun _ => (⟨false, 0, env.doubles.zero⟩ : GradUnit F)
    (epochs env t fuel ⟨f0, cells, grads, s⟩).map fun s => (s.solved, s)

end Search

end GradientDescent
