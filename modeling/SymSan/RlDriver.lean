import Mathlib.Logic.Function.Basic
import SymSan.PipeMessages

/-!
# The RL driver

The driver answers requests for traces. It runs the target on queued inputs until
the requested branches have been seen, asks the solver for an input that takes them
in the requested directions, and runs the target once more on that input. Its tables
of branches and conditions stay from run to run; the union table is the one the
latest run left in the shared memory.

The target, the solver and the file system are an environment: what a run on an
input reports, which inputs its tasks lead to, whether the collected constraints
have a solution. A file is its content. Each run has a number, from 1 on, and each
condition entry keeps the number of the run that recorded it; the source has neither.
-/

namespace RlDriver

open PipeMessages

abbrev Bytes := List (BitVec 8)

abbrev LineId := BitVec 64

abbrev Cid := BitVec 64

/-- The fields of `BranchInfo` that are read. -/
structure BranchInfo where
  seen : Bool
  symbolic : Bool
  taken : Bool
  notTaken : Bool
  lastResult : Bool
  deriving DecidableEq, Repr

def BranchInfo.initial : BranchInfo := ⟨false, false, false, false, false⟩

/-- A coverage message about the branch: `F_BRANCH_TAKEN_HISTORY` is 1,
`F_BRANCH_NOT_TAKEN_HISTORY` is 2 and `F_BRANCH_SYMBOLIC` is 4. -/
def BranchInfo.observe (b : BranchInfo) (msg : PipeMsg) : BranchInfo where
  seen := true
  lastResult := msg.result ≠ 0
  taken := b.taken || msg.flags.getLsbD 0
  notTaken := b.notTaken || msg.flags.getLsbD 1
  symbolic := b.symbolic || msg.flags.getLsbD 2

structure CondEntry where
  label : BitVec 32
  result : BitVec 8
  run : Nat
  deriving DecidableEq, Repr

structure RunResult where
  input : Option Bytes
  branches : LineId → Option BranchInfo
  lineHits : LineId → Bool
  newInputs : List Bytes

def RunResult.initial : RunResult := ⟨none, fun _ => none, fun _ => false, []⟩

/-- A run of the target: its input and what the driver receives. -/
structure Run where
  input : Bytes
  messages : List PipeMsg

/-- The driver; `runs` are the runs so far, the latest one first. -/
structure Driver where
  lineTable : LineId → Option Bool
  maxRuns : Nat
  seed : Bytes
  branches : LineId → Option BranchInfo
  lineToCid : LineId → Option Cid
  conds : Cid → Option CondEntry
  inputQueue : List Bytes
  parserInput : Bytes
  runs : List Run

/-- The driver before the first request. -/
def Driver.start (lineTable : LineId → Option Bool) (maxRuns : Nat) (seed : Bytes) : Driver where
  lineTable := lineTable
  maxRuns := maxRuns
  seed := seed
  branches := fun _ => none
  lineToCid := fun _ => none
  conds := fun _ => none
  inputQueue := [seed]
  parserInput := []
  runs := []

/-- What comes of starting the target: the input cannot be mapped, the launcher
fails after the parser was made anew, or the target runs. -/
inductive Launch where
  | unreadable
  | refused
  | ran (messages : List PipeMsg)

structure Env where
  launch : Bool → Bytes → Launch
  finds : Bytes → List PipeMsg → List Bytes
  solve : List (BitVec 32 × Bool) → Bytes → Option (List (Nat × BitVec 8))
  materialize : Bytes → Bool

/-! ## Runs -/

def lineOf (msg : PipeMsg) : LineId := msg.context.setWidth 64 <<< 32 ||| msg.label.setWidth 64

/-- One message in the loop of `run_once`. What the parser makes of conditions is part
of the inputs that the run finds. -/
def receive (s : Driver × RunResult) (msg : PipeMsg) : Driver × RunResult :=
  let (d, res) := s
  match MsgType.ofCode msg.msgType with
  | some .cond =>
    let entry := ⟨msg.label, msg.result.setWidth 8, d.runs.length⟩
    ({ d with conds := Function.update d.conds msg.id (some entry) }, res)
  | some .cover =>
    let line := lineOf msg
    let res := { res with lineHits := Function.update res.lineHits line true }
    if (d.lineTable line).getD false = true ∨ msg.id ≠ 0 then
      let observed := fun info : Option BranchInfo => some ((info.getD .initial).observe msg)
      ({ d with
        branches := Function.update d.branches line (observed (d.branches line))
        lineToCid := Function.update d.lineToCid line (some msg.id) },
      { res with
        branches := Function.update res.branches line (observed (res.branches line)) })
    else (d, res)
  | _ => (d, res)

/-- What no message of a run changes. -/
structure Framed (s s' : Driver × RunResult) : Prop where
  lineTable : s'.1.lineTable = s.1.lineTable
  runs : s'.1.runs = s.1.runs
  input : s'.2.input = s.2.input

lemma receive_framed (s : Driver × RunResult) (msg : PipeMsg) : Framed s (receive s msg) := by
  simp only [receive]
  split
  · exact ⟨rfl, rfl, rfl⟩
  · split
    · exact ⟨rfl, rfl, rfl⟩
    · exact ⟨rfl, rfl, rfl⟩
  · exact ⟨rfl, rfl, rfl⟩

/-- The driver when it starts to read the messages of a run. -/
def begun (d : Driver) (input : Bytes) (messages : List PipeMsg) : Driver × RunResult :=
  ({ d with runs := ⟨input, messages⟩ :: d.runs, parserInput := input },
    { RunResult.initial with input := some input })

variable (env : Env)

/-- `run_once`; no result stands for `false`. -/
def runOnce (reportAll : Bool) (input : Bytes) (d : Driver) : Option RunResult × Driver :=
  match env.launch reportAll input with
  | .unreadable => (none, d)
  | .refused => (none, { d with parserInput := [] })
  | .ran messages =>
    let (d, res) := messages.foldl receive (begun d input messages)
    (some { res with newInputs := env.finds input messages }, d)

def branchesCovered (d : Driver) (targets : List LineId) : Bool :=
  targets.all fun line => match d.branches line with
    | some info => info.seen
    | none => false

/-- `explore_until_covered`, with the number of runs that are left. -/
def exploreUntilCovered (env : Env) (targets : List LineId) :
    Nat → Driver → RunResult → Bool × Driver × RunResult
  | 0, d, lastRun => (branchesCovered d targets, d, lastRun)
  | runs + 1, d, lastRun =>
    if branchesCovered d targets then (true, d, lastRun)
    else
      match d.inputQueue with
      | [] => (false, d, lastRun)
      | input :: rest =>
        match runOnce env false input { d with inputQueue := rest } with
        | (none, d) => (false, d, lastRun)
        | (some res, d) =>
          let d := { d with inputQueue := d.inputQueue ++ res.newInputs }
          exploreUntilCovered env targets runs d res

/-! ## Solving -/

/-- A constraint that `solve_for_trace` passes to the parser. -/
structure Passed where
  line : LineId
  cid : Cid
  entry : CondEntry
  direction : Bool
  deriving DecidableEq, Repr

/-- The first loop of `solve_for_trace`: what it passes, and whether it came to the end. -/
def collect (d : Driver) : List (LineId × Bool) → List Passed × Bool
  | [] => ([], true)
  | (line, direction) :: rest =>
    match d.branches line with
    | none => ([], false)
    | some info =>
      if info.symbolic = false then collect d rest
      else
        match d.lineToCid line with
        | none => ([], false)
        | some cid =>
          match d.conds cid with
          | none => ([], false)
          | some entry =>
            let (passed, ended) := collect d rest
            (⟨line, cid, entry, direction⟩ :: passed, ended)

/-- Set the bytes of a solution that lie inside the input. -/
def patch (input : Bytes) (solutions : List (Nat × BitVec 8)) : Bytes :=
  solutions.foldl (fun buf sol => buf.set sol.1 sol.2) input

/-- The branches for which the verification loop logs a failure. -/
def verificationFailures (d : Driver) (verify : RunResult) (trace : List (LineId × Bool)) :
    List LineId :=
  let failed := trace.filter fun (line, direction) =>
    let verified := match verify.branches line with
      | some info => info.seen && info.lastResult == direction
      | none => false
    let symbolic := match d.branches line with
      | some info => info.symbolic
      | none => false
    !verified && symbolic
  failed.map Prod.fst

/-- `solve_for_trace`, with the branches it logs; without a constraint there is no task. -/
def solveForTrace (d : Driver) (trace : List (LineId × Bool)) (input : Bytes) :
    Option RunResult × List LineId × Driver :=
  let d := { d with parserInput := input }
  let (passed, ended) := collect d trace
  if ended = false ∨ passed = [] then (none, [], d)
  else
    match env.solve (passed.map fun p => (p.entry.label, p.direction)) input with
    | none => (none, [], d)
    | some solutions =>
      let buf := patch input solutions
      if env.materialize buf then
        match runOnce env true buf d with
        | (none, d) => (none, [], d)
        | (some verify, d) => (some verify, verificationFailures d verify trace, d)
      else (none, [], d)

/-! ## Requests -/

/-- `TraceRequest`; a map has each key once. -/
structure Request where
  lineToReach : LineId
  branchTraces : List (LineId × Bool)
  nodup : (branchTraces.map Prod.fst).Nodup

/-- `branch_trace`: the requested lines that the line table knows as branches. -/
def Request.trace (req : Request) (d : Driver) : List (LineId × Bool) :=
  req.branchTraces.filter fun p => (d.lineTable p.1).getD false

inductive BranchTraceType where
  | notReached
  | taken
  | notTaken
  | takenAndNotTaken
  deriving DecidableEq, Repr

inductive Status where
  | sat (value : Bool)
  | timeout
  deriving DecidableEq, Repr

structure Response where
  reached : Bool
  status : Status
  symbolicBranchTrace : List (LineId × BranchTraceType)
  nonSymbolicBranchTrace : List (LineId × BranchTraceType)
  deriving DecidableEq, Repr

/-- `build_branch_maps` for one line: the type and whether the branch is symbolic. -/
def buildBranchMaps (d : Driver) (source : LineId → Option BranchInfo) (line : LineId) :
    Option (BranchTraceType × Bool) :=
  match (source line).filter (·.seen) with
  | some info =>
    some (if info.taken && info.notTaken then .takenAndNotTaken
      else if info.taken then .taken
      else if info.notTaken then .notTaken
      else .notReached, info.symbolic)
  | none => (d.branches line).map fun info => (.notReached, info.symbolic)

/-- The maps of a response, by whether the branch is symbolic. -/
def branchMap (d : Driver) (source : LineId → Option BranchInfo) (trace : List (LineId × Bool))
    (symbolic : Bool) : List (LineId × BranchTraceType) :=
  trace.filterMap fun (line, _) =>
    match buildBranchMaps d source line with
    | some (type, kind) => if kind = symbolic then some (line, type) else none
    | none => none

structure Reply where
  response : Response
  lastRun : RunResult
  driver : Driver

def respond (d : Driver) (req : Request) (trace : List (LineId × Bool)) (sat : Bool)
    (lastRun : RunResult) : Reply :=
  ⟨⟨lastRun.lineHits req.lineToReach, .sat sat, branchMap d lastRun.branches trace true,
    branchMap d lastRun.branches trace false⟩, lastRun, d⟩

/-- The state in which `HandleTrace` calls `solve_for_trace`, if it does. -/
def explored (d : Driver) (req : Request) : Bool × Driver × RunResult :=
  exploreUntilCovered env ((req.trace d).map Prod.fst) d.maxRuns d .initial

def handleTrace (d : Driver) (req : Request) : Reply :=
  let trace := req.trace d
  let (covered, d, lastRun) := explored env d req
  if covered = false then ⟨⟨false, .timeout, [], []⟩, lastRun, d⟩
  else if trace = [] then respond d req trace true lastRun
  else
    match solveForTrace env d trace d.seed with
    | (some verify, _, d) => respond d req trace true verify
    | (none, _, d) => respond d req trace false lastRun

end RlDriver
