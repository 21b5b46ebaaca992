import Mathlib.Data.List.Induction
import SymSan.RlDriver

/-!
# What the replies of the RL driver promise

A reply of `sat` should mean that the target was run again on the input found and
took the requested branches. The driver does run it, and compares, but the outcome
goes to the log only. A constraint should come from the run whose table the parser
reads, but the table of conditions is never cleared, and the parser is restarted
with the first input whatever the latest run was on.
-/

namespace RlRequests

open PipeMessages RlDriver

/-! ## Replies -/

def Symbolic (d : Driver) (line : LineId) : Prop :=
  ∃ info, d.branches line = some info ∧ info.symbolic = true

/-- The direction of the last evaluation of a line in a run that reports them all. -/
def lastDirection (messages : List PipeMsg) (line : LineId) : Option Bool :=
  let ofLine := messages.filter fun m =>
    MsgType.ofCode m.msgType = some .cover ∧ lineOf m = line
  ofLine.getLast?.map fun m => decide (m.result ≠ 0)

/-- The target, run on the returned input, reaches every requested branch that is
symbolic and takes it in the requested direction. -/
def TakesTrace (env : Env) (req : Request) (reply : Reply) : Prop :=
  ∀ p ∈ req.branchTraces, Symbolic reply.driver p.1 →
    ∃ input messages, reply.lastRun.input = some input ∧
      env.launch true input = .ran messages ∧ lastDirection messages p.1 = some p.2

/-- The input that the solver's answer makes of the seed, and what the target reports on it. No
answer, an input that cannot be written and a target that does not start are none. -/
def answer (env : Env) (d : Driver) (trace : List (LineId × Bool)) :
    Option (Bytes × List PipeMsg) :=
  if (collect d trace).2 = false ∨ (collect d trace).1 = [] then none
  else
    (env.solve ((collect d trace).1.map fun p => (p.entry.label, p.direction)) d.seed).bind
      fun solutions =>
        if env.materialize (patch d.seed solutions) then
          match env.launch true (patch d.seed solutions) with
          | .ran messages => some (patch d.seed solutions, messages)
          | _ => none
        else none

/-- The driver after the run that should confirm an answer. -/
def confirmed (d : Driver) (input : Bytes) (messages : List PipeMsg) : Driver :=
  (messages.foldl receive (begun { d with parserInput := d.seed } input messages)).1

section Collecting

variable {d : Driver} {trace : List (LineId × Bool)}

lemma mem_collect {p : Passed} (inside : p ∈ (collect d trace).1) :
    (p.line, p.direction) ∈ trace ∧ Symbolic d p.line ∧ d.lineToCid p.line = some p.cid ∧
      d.conds p.cid = some p.entry := by
  induction trace with
  | nil => cases inside
  | cons first rest ih =>
    obtain ⟨line, _⟩ := first
    rw [collect] at inside
    cases branch : d.branches line with
    | none =>
      simp only [branch] at inside
      cases inside
    | some info =>
      simp only [branch] at inside
      by_cases concrete : info.symbolic = false
      · rw [if_pos concrete] at inside
        obtain ⟨requested, found⟩ := ih inside
        exact ⟨List.mem_cons_of_mem _ requested, found⟩
      rw [if_neg concrete] at inside
      cases number : d.lineToCid line with
      | none =>
        simp only [number] at inside
        cases inside
      | some cid =>
        cases entry : d.conds cid with
        | none =>
          simp only [number, entry] at inside
          cases inside
        | some e =>
          simp only [number, entry] at inside
          rcases List.mem_cons.mp inside with rfl | inside
          · exact ⟨List.mem_cons_self, ⟨info, branch, by simpa using concrete⟩, number, entry⟩
          · obtain ⟨requested, found⟩ := ih inside
            exact ⟨List.mem_cons_of_mem _ requested, found⟩

lemma collect_congr {d' : Driver} (branches : d'.branches = d.branches)
    (numbers : d'.lineToCid = d.lineToCid) (conds : d'.conds = d.conds) :
    collect d' trace = collect d trace := by
  induction trace with
  | nil => rfl
  | cons first rest ih => simp only [collect, branches, numbers, conds, ih]

end Collecting

/-- A symbolic evaluation of a line, with the branch number 1. -/
def coverMsg (line : LineId) : PipeMsg where
  msgType := MsgType.cover.code
  flags := 4
  instanceId := 0
  addr := 0
  context := (line >>> 32).setWidth 32
  id := 1
  label := line.setWidth 32
  result := 0

def condMsg : PipeMsg where
  msgType := MsgType.cond.code
  flags := 0
  instanceId := 0
  addr := 0
  context := 0
  id := 1
  label := 1
  result := 0

section Replies

variable {env : Env} {d : Driver} {trace : List (LineId × Bool)}

lemma foldl_receive_input (messages : List PipeMsg) (s : Driver × RunResult) :
    (messages.foldl receive s).2.input = s.2.input := by
  induction messages generalizing s with
  | nil => rfl
  | cons msg rest ih => exact (ih (receive s msg)).trans (receive_framed s msg).input

/-- Whether `solve_for_trace` has a result depends on the answer, and not on what the run on it
shows. -/
lemma solveForTrace_answer (env : Env) (d : Driver) (trace : List (LineId × Bool)) :
    match answer env d trace with
    | none => (solveForTrace env d trace d.seed).1 = none
    | some (input, messages) => env.launch true input = .ran messages ∧
      ∃ verify log, solveForTrace env d trace d.seed =
        (some verify, log, confirmed d input messages) ∧ verify.input = some input := by
  have same : collect { d with parserInput := d.seed } trace = collect d trace :=
    collect_congr rfl rfl rfl
  simp only [answer, solveForTrace, same]
  by_cases unsolved : (collect d trace).2 = false ∨ (collect d trace).1 = []
  · simp only [if_pos unsolved]
  simp only [if_neg unsolved]
  cases env.solve ((collect d trace).1.map fun p => (p.entry.label, p.direction)) d.seed with
  | none => rfl
  | some solutions =>
    simp only [Option.bind_some]
    by_cases written : env.materialize (patch d.seed solutions) = true
    · simp only [if_pos written, runOnce]
      cases ran : env.launch true (patch d.seed solutions) with
      | unreadable => rfl
      | refused => rfl
      | ran messages =>
        refine ⟨ran, _, _, rfl, ?_⟩
        exact foldl_receive_input messages _
    · simp only [if_neg written]

lemma explored_empty {req : Request} (empty : req.trace d = []) :
    explored env d req = (true, d, .initial) := by
  rw [explored, empty, List.map_nil]
  cases d.maxRuns with
  | zero => rfl
  | succ runs => rfl

end Replies

/-- A target with one symbolic branch that it never takes, and a solver that answers
with the first byte set to 1. -/
def oneWay : Env where
  launch := fun _ _ => .ran [coverMsg 5, condMsg]
  finds := fun _ _ => []
  solve := fun _ _ => some [(0, 1)]
  materialize := fun _ => true

def lineFive : LineId → Option Bool := fun line => if line = 5 then some true else none

end RlRequests
