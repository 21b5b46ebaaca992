import SymSan.RlRequests

/-!
# Conditions and the run they belong to

A driver process serves one request after the other. Each request runs the target a
number of times, and then may collect conditions and pass them to the parser. The
parser reads the union table of the latest run and holds the first input.
-/

namespace RlHistory

open PipeMessages RlDriver RlRequests

/-- A request, with what the target and the solver do while it is served. -/
structure Served where
  env : Env
  req : Request

def serve (d : Driver) (s : Served) : Driver := (handleTrace s.env d s.req).driver

/-- The driver in `solve_for_trace`, after the parser was restarted. -/
def solving (d : Driver) (s : Served) : Driver :=
  let d := (explored s.env d s.req).2.1
  { d with parserInput := d.seed }

/-- What is passed to the parser while a request is served. -/
def passedBy (d : Driver) (s : Served) : List Passed :=
  if (explored s.env d s.req).1 = true ∧ s.req.trace d ≠ [] then
    (collect (solving d s) (s.req.trace d)).1
  else []

/-- The last condition that a run reports for a branch number. -/
def recorded (messages : List PipeMsg) (cid : Cid) : Option (BitVec 32 × BitVec 8) :=
  let ofCid := messages.filter fun m => MsgType.ofCode m.msgType = some .cond ∧ m.id = cid
  ofCid.getLast?.map fun m => (m.label, m.result.setWidth 8)

/-- Every entry passed was recorded during the latest run, whose table the parser
reads, and that run was on the input that the parser holds. -/
def EntriesOfLatestRun (d : Driver) (s : Served) : Prop :=
  ∀ p ∈ passedBy d s, p.entry.run = (solving d s).runs.length ∧
    ∃ run earlier, (solving d s).runs = run :: earlier ∧ run.input = (solving d s).parserInput ∧
      recorded run.messages p.cid = some (p.entry.label, p.entry.result)

/-- The latest run before the constraints are collected was on the first input, and
reported a condition for every requested symbolic branch. -/
def LatestRunReports (d : Driver) (s : Served) : Prop :=
  ∀ p ∈ passedBy d s, ∃ run earlier, (solving d s).runs = run :: earlier ∧
    run.input = (solving d s).seed ∧
    ∃ m ∈ run.messages, MsgType.ofCode m.msgType = some .cond ∧ m.id = p.cid

/-! ## Entries carry the number of their run -/

/-- After `done` of the messages of run `number`, an entry is what the run reported last
for its branch, or older than the run. -/
def StampedBy (number : Nat) (done : List PipeMsg) (conds : Cid → Option CondEntry) : Prop :=
  ∀ cid entry, conds cid = some entry →
    (recorded done cid = some (entry.label, entry.result) ∧ entry.run = number) ∨
      (recorded done cid = none ∧ entry.run < number)

/-- The entries between two runs. -/
def Stamped (d : Driver) : Prop :=
  (∀ cid entry, d.conds cid = some entry → entry.run ≤ d.runs.length) ∧
    ∀ run earlier, d.runs = run :: earlier → StampedBy d.runs.length run.messages d.conds

lemma recorded_append (messages : List PipeMsg) (msg : PipeMsg) (cid : Cid) :
    recorded (messages ++ [msg]) cid =
      if MsgType.ofCode msg.msgType = some .cond ∧ msg.id = cid then
        some (msg.label, msg.result.setWidth 8)
      else recorded messages cid := by
  by_cases reports : MsgType.ofCode msg.msgType = some .cond ∧ msg.id = cid
  · simp [recorded, reports]
  · simp [recorded, reports]

lemma recorded_isSome {messages : List PipeMsg} {cid : Cid} :
    recorded messages cid ≠ none ↔
      ∃ m ∈ messages, MsgType.ofCode m.msgType = some .cond ∧ m.id = cid := by
  simp [recorded]

section Receiving

variable {s : Driver × RunResult}

lemma receive_conds (s : Driver × RunResult) (msg : PipeMsg) :
    (receive s msg).1.conds = if MsgType.ofCode msg.msgType = some .cond then
      Function.update s.1.conds msg.id (some ⟨msg.label, msg.result.setWidth 8, s.1.runs.length⟩)
      else s.1.conds := by
  simp only [receive]
  split
  next type =>
    rw [if_pos type]
  next type =>
    have other : MsgType.ofCode msg.msgType ≠ some .cond := by simp [type]
    split <;> rfl
  next other _ =>
    rw [if_neg other]

lemma receive_stamped {done : List PipeMsg} (msg : PipeMsg)
    (stamped : StampedBy s.1.runs.length done s.1.conds) :
    StampedBy (receive s msg).1.runs.length (done ++ [msg]) (receive s msg).1.conds := by
  intro cid entry known
  rw [receive_conds] at known
  rw [(receive_framed s msg).runs, recorded_append]
  by_cases type : MsgType.ofCode msg.msgType = some .cond
  · rw [if_pos type] at known
    by_cases same : msg.id = cid
    · rw [same, Function.update_self] at known
      cases known
      exact .inl ⟨if_pos ⟨type, same⟩, rfl⟩
    · rw [Function.update_of_ne (.symm same)] at known
      rw [if_neg fun both => same both.2]
      exact stamped cid entry known
  · rw [if_neg type] at known
    rw [if_neg fun both => type both.1]
    exact stamped cid entry known

lemma foldl_receive_stamped (messages done : List PipeMsg)
    (stamped : StampedBy s.1.runs.length done s.1.conds) :
    StampedBy s.1.runs.length (done ++ messages) (messages.foldl receive s).1.conds ∧
      (messages.foldl receive s).1.runs = s.1.runs := by
  induction messages generalizing s done with
  | nil => exact ⟨by rwa [List.append_nil], rfl⟩
  | cons msg rest ih =>
    obtain ⟨after, runs⟩ := ih (done ++ [msg]) (receive_stamped msg stamped)
    have same := (receive_framed s msg).runs
    rw [same, List.append_assoc] at after
    exact ⟨after, runs.trans same⟩

end Receiving

/-! ## Requests keep the stamps -/

section Serving

variable (env : Env) {d : Driver}

section

variable (stamped : Stamped d)

include stamped

lemma Stamped.congr {d' : Driver} (conds : d'.conds = d.conds) (runs : d'.runs = d.runs) :
    Stamped d' := by
  rw [Stamped, conds, runs]
  exact stamped

lemma runOnce_stamped (reportAll : Bool) (input : Bytes) :
    Stamped (runOnce env reportAll input d).2 := by
  rw [runOnce]
  cases env.launch reportAll input with
  | unreadable => exact stamped
  | refused => exact stamped.congr rfl rfl
  | ran messages =>
    have older : StampedBy (begun d input messages).1.runs.length [] d.conds :=
      fun cid entry known => .inr ⟨rfl, Nat.lt_succ_of_le (stamped.1 cid entry known)⟩
    obtain ⟨after, runs⟩ := foldl_receive_stamped (s := begun d input messages) messages [] older
    constructor
    · intro cid entry known
      rw [show List.length _ = _ from congrArg List.length runs]
      rcases after cid entry known with ⟨-, now⟩ | ⟨-, before⟩
      · exact Nat.le_of_eq now
      · exact Nat.le_of_lt before
    · intro run earlier latest
      rw [show List.length _ = _ from congrArg List.length runs]
      cases runs.symm.trans latest
      exact after

lemma explore_stamped (targets : List LineId) (runs : Nat) (lastRun : RunResult) :
    Stamped (exploreUntilCovered env targets runs d lastRun).2.1 := by
  induction runs generalizing d lastRun with
  | zero => exact stamped
  | succ runs ih =>
    rw [exploreUntilCovered]
    split
    · exact stamped
    split
    · exact stamped
    rename_i input rest _
    have shorter : Stamped { d with inputQueue := rest } := stamped.congr rfl rfl
    have ran := runOnce_stamped env shorter false input
    split
    next failed =>
      rwa [failed] at ran
    next found =>
      rw [found] at ran
      refine ih ?_ _
      exact ran.congr rfl rfl

lemma solve_stamped (trace : List (LineId × Bool)) (input : Bytes) :
    Stamped (solveForTrace env d trace input).2.2 := by
  have restarted : Stamped { d with parserInput := input } := stamped.congr rfl rfl
  simp only [solveForTrace]
  split
  · exact restarted
  split
  · exact restarted
  split
  next solutions _ _ =>
    have ran := runOnce_stamped env restarted true (patch input solutions)
    split
    next failed =>
      rwa [failed] at ran
    next verified =>
      rwa [verified] at ran
  · exact restarted

lemma serve_stamped (s : Served) : Stamped (serve d s) := by
  have found : Stamped (explored s.env d s.req).2.1 := explore_stamped _ stamped _ _ _
  simp only [serve, handleTrace]
  split
  · exact found
  split
  · exact found
  have solved := solve_stamped s.env found (s.req.trace d) (explored s.env d s.req).2.1.seed
  split
  next verified =>
    rwa [verified] at solved
  next failed =>
    rwa [failed] at solved

end

lemma serveAll_stamped (stamped : Stamped d) (history : List Served) :
    Stamped (history.foldl serve d) := by
  induction history generalizing d with
  | nil => exact stamped
  | cons s rest ih => exact ih (serve_stamped stamped s)

lemma passedBy_entry {s : Served} {p : Passed} (inside : p ∈ passedBy d s) :
    (solving d s).conds p.cid = some p.entry := by
  rw [passedBy] at inside
  split at inside
  · exact (mem_collect inside).2.2.2
  · cases inside

/-- For one request: the entries belong to the latest run if that run reported them. -/
lemma entriesOfLatestRun_iff (stamped : Stamped d) (s : Served) :
    EntriesOfLatestRun d s ↔ LatestRunReports d s := by
  have found : Stamped (solving d s) := (explore_stamped _ stamped _ _ _).congr rfl rfl
  refine forall₂_congr fun p inside => ?_
  constructor
  · rintro ⟨-, run, earlier, latest, input, now⟩
    refine ⟨run, earlier, latest, input, recorded_isSome.mp ?_⟩
    rw [now]
    exact Option.some_ne_none _
  rintro ⟨run, earlier, latest, input, reported⟩
  have isSome := recorded_isSome.mpr reported
  rcases found.2 run earlier latest p.cid p.entry (passedBy_entry inside) with
    ⟨now, number⟩ | ⟨none, -⟩
  · exact ⟨number, run, earlier, latest, input, now⟩
  · exact absurd none isSome

end Serving

/-- In a history of requests, every entry passed belongs to the run whose table and
input the parser holds if and only if, whenever constraints are collected, the latest
run was on the first input and reported a condition for each branch. -/
theorem entries_current_iff (lineTable : LineId → Option Bool) (maxRuns : Nat) (seed : Bytes)
    (history : List Served) :
    let start := Driver.start lineTable maxRuns seed
    (∀ before s after, history = before ++ s :: after →
      EntriesOfLatestRun (before.foldl serve start) s) ↔
    ∀ before s after, history = before ++ s :: after →
      LatestRunReports (before.foldl serve start) s := by
  intro start
  have stamped : ∀ before : List Served, Stamped (before.foldl serve start) :=
    serveAll_stamped ⟨nofun, nofun⟩
  constructor
  · intro current before s after split
    exact (entriesOfLatestRun_iff (stamped before) s).mp (current before s after split)
  · intro reports before s after split
    exact (entriesOfLatestRun_iff (stamped before) s).mpr (reports before s after split)

/-- The target evaluates its branch with a symbolic condition on the first input only. -/
def firstOnly : Env where
  launch := fun _ input => .ran (if input = [0] then [coverMsg 5, condMsg] else [coverMsg 5])
  finds := fun _ _ => []
  solve := fun _ _ => some [(0, 1)]
  materialize := fun _ => true

/-- The second request passes the condition of run 1 with the table of run 2. -/
theorem second_request_passes_stale_entry : let s : Served := ⟨firstOnly, 5, [(5, true)], by decide⟩
    let d := serve (.start lineFive 8 [0]) s
    passedBy d s = [⟨5, 1, ⟨1, 0, 1⟩, true⟩] ∧ (solving d s).runs.length = 2 ∧
      ¬ EntriesOfLatestRun d s := by
  intro s d
  have passed : passedBy d s = [⟨5, 1, ⟨1, 0, 1⟩, true⟩] := by decide +kernel
  have number : (solving d s).runs.length = 2 := by decide +kernel
  refine ⟨passed, number, fun current => ?_⟩
  have latest := (current _ (passed ▸ List.mem_singleton_self _)).1
  rw [number] at latest
  cases latest

end RlHistory
