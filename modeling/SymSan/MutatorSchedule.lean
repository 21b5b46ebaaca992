import Mathlib.Algebra.Order.Ring.Nat
import Mathlib.Data.List.Induction

/-!
# The solving schedule of the mutator

The fuzzer asks for one mutation at a time. Between two calls the mutator keeps the
task it is working on, the solver it asked last and whether the answer waits for
the fuzzer's verdict; the verdict arrives through the callback for new queue
entries. A solver is whatever answers: a call carries the answers the solvers would
give at that moment. The log of a run lists the attempts, the latest one first.
-/

namespace MutatorSchedule

variable {τ : Type}

/-- `solver_result_t` -/
inductive Answer where
  | error
  | sat
  | unsat
  | timeout
  deriving DecidableEq, Repr

inductive MutationState where
  | invalid
  | inValidation
  | validated
  deriving DecidableEq, Repr

/-- The part of `my_mutator_t` that is kept between calls; `tasks` is the queue of
`FIFOTaskManager` and `solvers` the number of solvers. -/
structure Mutator (τ : Type) where
  solvers : Nat
  tasks : List τ
  curTask : Option τ
  curSolverIndex : Nat
  curMutationState : MutationState

namespace Mutator

def getNextTask (m : Mutator τ) : Mutator τ :=
  { m with curTask := m.tasks.head?, tasks := m.tasks.tail }

/-- Get a task if there is none, or if the previous one is solved. -/
def ensureTask (m : Mutator τ) : Mutator τ :=
  if m.curTask.isNone ∨ m.curMutationState = .validated then
    let m := m.getNextTask
    if m.curTask.isNone then { m with curMutationState := .invalid }
    else { m with curSolverIndex := 0, curMutationState := .invalid }
  else m

/-- Check the previous mutation: still in validation means it was not new. -/
def moveOn (m : Mutator τ) : Mutator τ :=
  if m.curMutationState = .inValidation then
    let m := { m with curSolverIndex := m.curSolverIndex + 1 }
    if m.solvers ≤ m.curSolverIndex then
      let m := m.getNextTask
      if m.curTask.isNone then { m with curMutationState := .invalid }
      else { m with curSolverIndex := 0 }
    else m
  else m

/-- The two checks before a solver is asked; the second needs a task. -/
def pick (m : Mutator τ) : Mutator τ :=
  if m.ensureTask.curTask.isNone then m.ensureTask else m.ensureTask.moveOn

end Mutator

/-- What `*out_buf` is set to. -/
inductive OutBuf where
  | input
  | output
  | null
  deriving DecidableEq, Repr

structure Reply (τ : Type) where
  mutator : Mutator τ
  asked : Option (τ × Nat × Answer)
  outBuf : OutBuf
  size : Nat

/-- The answer of a solver with the size it stores, for each solver and task. -/
abbrev Solve (τ : Type) := Nat → τ → Answer × Nat

/-- `afl_custom_fuzz`; `maxFile` is the fuzzer's bound on inputs. -/
def aflCustomFuzz (maxFile : Nat) (m : Mutator τ) (bufSize : Nat) (solve : Solve τ) : Reply τ :=
  if maxFile < bufSize then ⟨m, none, .input, 0⟩
  else
    let m := m.pick
    match m.curTask with
    | none => ⟨m, none, .input, 0⟩
    | some task =>
      let (answer, size) := solve m.curSolverIndex task
      let asked := some (task, m.curSolverIndex, answer)
      match answer with
      | .sat => ⟨{ m with curMutationState := .inValidation }, asked, .output, size⟩
      | .timeout => ⟨{ m with curMutationState := .inValidation }, asked, .input, size⟩
      | .unsat => ⟨{ m with curTask := none }, asked, .input, size⟩
      | .error => ⟨m, asked, .null, 0⟩

/-- `afl_custom_queue_new_entry`; `current` says that the new entry comes from the
current one. -/
def aflCustomQueueNewEntry (m : Mutator τ) (current : Bool) : Mutator τ :=
  if current ∧ m.curMutationState = .inValidation then { m with curMutationState := .validated }
  else m

/-- `afl_custom_fuzz_count`; the trace of the input adds the tasks it finds, and no
list stands for an input that is not traced. -/
def aflCustomFuzzCount (m : Mutator τ) : Option (List τ) → Mutator τ × Nat
  | none => (m, 0)
  | some found =>
    let m := { m with tasks := m.tasks ++ found, curTask := none }
    (m, m.tasks.length * m.solvers % 2 ^ 32)

/-! ## Runs -/

/-- A solver asked about the task at a position of the queue. -/
structure Attempt (τ : Type) where
  position : Nat
  solver : Nat
  task : τ
  answer : Answer
  validated : Bool
  deriving DecidableEq, Repr

inductive Call (τ : Type) where
  | fuzz (bufSize : Nat) (solve : Solve τ)
  | newEntry (current : Bool)

structure Session (τ : Type) where
  mutator : Mutator τ
  log : List (Attempt τ)

def markLatest : List (Attempt τ) → List (Attempt τ)
  | [] => []
  | a :: earlier => { a with validated := true } :: earlier

/-- The attempt of a reply in a run that began with `queued` tasks. -/
def attemptOf (queued : Nat) (r : Reply τ) : Option (Attempt τ) :=
  r.asked.map fun (task, solver, answer) =>
    ⟨queued - r.mutator.tasks.length - 1, solver, task, answer, false⟩

def step (maxFile queued : Nat) (s : Session τ) : Call τ → Session τ
  | .fuzz bufSize solve =>
    let r := aflCustomFuzz maxFile s.mutator bufSize solve
    ⟨r.mutator, (attemptOf queued r).toList ++ s.log⟩
  | .newEntry current =>
    ⟨aflCustomQueueNewEntry s.mutator current,
      if current ∧ s.mutator.curMutationState = .inValidation then markLatest s.log else s.log⟩

def run (maxFile queued : Nat) (s : Session τ) (calls : List (Call τ)) : Session τ :=
  calls.foldl (step maxFile queued) s

/-- A call that may ask a solver. -/
def Call.counts (maxFile : Nat) : Call τ → Bool
  | .fuzz bufSize _ => bufSize ≤ maxFile
  | .newEntry _ => false

/-- The first solver does not report an error. -/
def Call.FirstAnswers : Call τ → Prop
  | .fuzz _ solve => ∀ task, (solve 0 task).1 ≠ .error
  | .newEntry _ => True

/-- Whatever is called next, no solver is asked. -/
def Exhausted (maxFile : Nat) (m : Mutator τ) : Prop :=
  ∀ bufSize solve, (aflCustomFuzz maxFile m bufSize solve).asked = none

/-! ## Turns -/

def Attempt.Settled (a : Attempt τ) : Prop := a.answer = .unsat ∨ a.validated = true

instance (a : Attempt τ) : Decidable a.Settled := inferInstanceAs (Decidable (_ ∨ _))

/-- The position and the solver whose turn it is after the attempts of a log. -/
def turn (solvers : Nat) : List (Attempt τ) → Nat × Nat
  | [] => (0, 0)
  | a :: _ =>
    if a.Settled ∨ a.solver + 1 = solvers then (a.position + 1, 0) else (a.position, a.solver + 1)

/-- Every attempt was made in its turn. -/
def Scheduled (solvers : Nat) (tasks : List τ) : List (Attempt τ) → Prop
  | [] => True
  | a :: earlier =>
    (a.position, a.solver) = turn solvers earlier ∧ tasks[a.position]? = some a.task ∧
      Scheduled solvers tasks earlier

def Attempt.Before (a b : Attempt τ) : Prop :=
  a.position < b.position ∨ a.position = b.position ∧ a.solver < b.solver

section Turns

variable {solvers : Nat} {tasks : List τ} {log : List (Attempt τ)} {a : Attempt τ}

lemma turn_settled (settled : a.Settled) : turn solvers (a :: log) = (a.position + 1, 0) :=
  if_pos (.inl settled)

lemma turn_lt (positive : 0 < solvers) (h : Scheduled solvers tasks log) :
    (turn solvers log).2 < solvers := by
  induction log with
  | nil => exact positive
  | cons a earlier ih =>
    obtain ⟨inTurn, -, before⟩ := h
    have lt : a.solver < solvers := by
      rw [show a.solver = (turn solvers earlier).2 from congrArg Prod.snd inTurn]
      exact ih before
    rw [turn]
    split
    · exact positive
    · omega

lemma Scheduled.solver_lt (positive : 0 < solvers) (h : Scheduled solvers tasks log)
    (inside : a ∈ log) : a.solver < solvers := by
  induction log with
  | nil => cases inside
  | cons b earlier ih =>
    obtain ⟨inTurn, -, before⟩ := h
    rcases List.mem_cons.mp inside with rfl | inside
    · rw [show a.solver = (turn solvers earlier).2 from congrArg Prod.snd inTurn]
      exact turn_lt positive before
    · exact ih before inside

section

variable (h : Scheduled solvers tasks log)

include h

lemma Scheduled.task_eq (inside : a ∈ log) : tasks[a.position]? = some a.task := by
  induction log with
  | nil => cases inside
  | cons b earlier ih =>
    rcases List.mem_cons.mp inside with rfl | inside
    · exact h.2.1
    · exact ih h.2.2 inside

lemma Scheduled.before_turn (inside : a ∈ log) :
    a.position < (turn solvers log).1 ∨
      a.position = (turn solvers log).1 ∧ a.solver < (turn solvers log).2 := by
  induction log with
  | nil => cases inside
  | cons b earlier ih =>
    obtain ⟨inTurn, -, before⟩ := h
    have position : b.position = (turn solvers earlier).1 := congrArg Prod.fst inTurn
    have solver : b.solver = (turn solvers earlier).2 := congrArg Prod.snd inTurn
    have upTo : a.position < b.position ∨ a.position = b.position ∧ a.solver ≤ b.solver := by
      rcases List.mem_cons.mp inside with rfl | inside
      · exact .inr ⟨rfl, Nat.le_refl _⟩
      · rcases ih before inside with lt | ⟨same, lt⟩
        · exact .inl (position ▸ lt)
        · exact .inr ⟨same.trans position.symm, Nat.le_of_lt (solver ▸ lt)⟩
    rw [turn]
    split <;> dsimp only <;> omega

lemma Scheduled.pairwise : log.Pairwise fun later earlier => earlier.Before later := by
  induction log with
  | nil => exact .nil
  | cons b earlier ih =>
    obtain ⟨inTurn, -, before⟩ := h
    refine .cons (fun a inside => ?_) (ih before)
    rw [Attempt.Before, show b.position = (turn solvers earlier).1 from congrArg Prod.fst inTurn,
      show b.solver = (turn solvers earlier).2 from congrArg Prod.snd inTurn]
    exact before.before_turn inside

end

/-- Every attempt uses up at least one of the pairs of a task and a solver. -/
lemma Scheduled.length_le (positive : 0 < solvers) (h : Scheduled solvers tasks log) :
    log.length ≤ (turn solvers log).1 * solvers + (turn solvers log).2 := by
  induction log with
  | nil => exact Nat.zero_le _
  | cons a earlier ih =>
    obtain ⟨inTurn, -, before⟩ := h
    have le := ih before
    have lt := turn_lt positive before
    rw [← inTurn] at le lt
    dsimp only at le lt
    rw [turn, List.length_cons]
    split
    · rw [Nat.add_mul]
      omega
    · dsimp only
      omega

lemma Scheduled.again (h : Scheduled solvers tasks log) (ne : (turn solvers log).2 ≠ 0) :
    tasks[(turn solvers log).1]? ≠ none := by
  cases log with
  | nil => exact absurd rfl ne
  | cons a earlier =>
    rw [turn] at ne ⊢
    split at ne
    · exact absurd rfl ne
    next goesOn =>
      rw [if_neg goesOn, h.2.1]
      exact Option.some_ne_none _

end Turns

/-! ## The mutator follows the turns -/

/-- What holds between two calls of a run that began with the queue `tasks`. A task
is kept only while its latest answer waits for the verdict or has it. -/
structure Keeps (solvers : Nat) (tasks : List τ) (s : Session τ) : Prop where
  scheduled : Scheduled solvers tasks s.log
  solvers_eq : s.mutator.solvers = solvers
  idle : s.mutator.curTask = none →
    s.mutator.tasks = tasks.drop (turn solvers s.log).1 ∧ (turn solvers s.log).2 = 0
  busy : ∀ t, s.mutator.curTask = some t → ∃ a earlier, s.log = a :: earlier ∧ a.task = t ∧
    a.solver = s.mutator.curSolverIndex ∧ a.answer ≠ .unsat ∧
    s.mutator.tasks = tasks.drop (a.position + 1) ∧
    (s.mutator.curMutationState = .inValidation ∧ a.validated = false ∨
      s.mutator.curMutationState = .validated ∧ a.validated = true)

namespace Mutator

variable {m : Mutator τ} {t : τ}

lemma ensureTask_next (h : m.curTask = none ∨ m.curMutationState = .validated) :
    m.ensureTask = { m with
      curTask := m.tasks.head?, tasks := m.tasks.tail, curMutationState := .invalid,
      curSolverIndex := if m.tasks = [] then m.curSolverIndex else 0 } := by
  rw [ensureTask, if_pos (h.imp_left Option.isNone_iff_eq_none.mpr)]
  cases tasks : m.tasks with
  | nil | cons t rest => simp [getNextTask, tasks]

lemma pick_next (h : m.curTask = none ∨ m.curMutationState = .validated) :
    m.pick = { m with
      curTask := m.tasks.head?, tasks := m.tasks.tail, curMutationState := .invalid,
      curSolverIndex := if m.tasks = [] then m.curSolverIndex else 0 } := by
  have still : m.ensureTask.moveOn = m.ensureTask := if_neg (by simp [ensureTask_next h])
  rw [pick, still, ite_self, ensureTask_next h]

variable (task : m.curTask = some t) (waits : m.curMutationState = .inValidation)

include task waits

lemma pick_moves : m.pick = m.moveOn := by
  have kept : m.ensureTask = m := if_neg (by simp [task, waits])
  rw [pick, kept, if_neg (by simp [task])]

/-- While an answer waits and there are more solvers, the task stays. -/
lemma pick_solver (more : m.curSolverIndex + 1 < m.solvers) :
    m.pick = { m with curSolverIndex := m.curSolverIndex + 1 } := by
  rw [pick_moves task waits, moveOn, if_pos waits]
  exact if_neg (Nat.not_le.mpr more)

lemma pick_last (last : m.solvers ≤ m.curSolverIndex + 1) :
    m.pick = { m with
      curTask := m.tasks.head?, tasks := m.tasks.tail,
      curMutationState := if m.tasks = [] then .invalid else .inValidation,
      curSolverIndex := if m.tasks = [] then m.curSolverIndex + 1 else 0 } := by
  rw [pick_moves task waits, moveOn, if_pos waits]
  rw [if_pos last]
  cases tasks : m.tasks with
  | nil => simp [getNextTask]
  | cons t rest => simp [getNextTask, waits]

end Mutator

section Keeping

variable {maxFile solvers bufSize : Nat} {tasks : List τ} {s : Session τ} {solve : Solve τ}

lemma Keeps.pick (positive : 0 < solvers) (keeps : Keeps solvers tasks s) :
    s.mutator.pick.solvers = solvers ∧
    s.mutator.pick.curTask = tasks[(turn solvers s.log).1]? ∧
    s.mutator.pick.tasks = tasks.drop ((turn solvers s.log).1 + 1) ∧
    (s.mutator.pick.curTask ≠ none → s.mutator.pick.curSolverIndex = (turn solvers s.log).2 ∧
      ((turn solvers s.log).2 = 0 ∨ s.mutator.pick.curMutationState = .inValidation)) := by
  obtain ⟨scheduled, same, idle, busy⟩ := keeps
  have fresh : ∀ n, s.mutator.tasks = tasks.drop n →
      s.mutator.tasks.head? = tasks[n]? ∧ s.mutator.tasks.tail = tasks.drop (n + 1) ∧
        (tasks[n]? ≠ none → s.mutator.tasks ≠ []) := by
    intro n queue
    refine ⟨by rw [queue, List.head?_drop], by rw [queue, List.tail_drop], fun some none => some ?_⟩
    rw [← List.head?_drop, ← queue, none, List.head?_nil]
  cases task : s.mutator.curTask with
  | none =>
    obtain ⟨queue, first⟩ := idle task
    obtain ⟨head, tail, nonempty⟩ := fresh _ queue
    rw [Mutator.pick_next (.inl task)]
    refine ⟨same, head, tail, fun found => ⟨?_, .inl first⟩⟩
    rw [first]
    exact if_neg (nonempty (head ▸ found))
  | some t =>
    obtain ⟨a, _, log, taskEq, index, answer, queue, state⟩ := busy t task
    have known : tasks[a.position]? = some t := by
      rw [log] at scheduled
      rw [scheduled.2.1, taskEq]
    obtain ⟨head, tail, nonempty⟩ := fresh _ queue
    rcases state with ⟨waits, notYet⟩ | ⟨done, validated⟩
    · have open' : ¬ a.Settled := by simp [Attempt.Settled, answer, notYet]
      by_cases more : s.mutator.curSolverIndex + 1 < s.mutator.solvers
      · have now : turn solvers s.log = (a.position, a.solver + 1) := by
          rw [log, turn, if_neg]
          rintro (settled | last)
          · exact open' settled
          · omega
        rw [Mutator.pick_solver task waits more, now]
        exact ⟨same, task.trans known.symm, queue, fun _ => ⟨by rw [index], .inr waits⟩⟩
      · have now : turn solvers s.log = (a.position + 1, 0) := by
          have lt : a.solver < solvers := scheduled.solver_lt positive (by simp [log])
          rw [log, turn, if_pos (.inr (by omega))]
        rw [Mutator.pick_last task waits (Nat.not_lt.mp more), now]
        refine ⟨same, head, tail, fun found => ⟨?_, .inl rfl⟩⟩
        exact if_neg (nonempty (head ▸ found))
    · have now : turn solvers s.log = (a.position + 1, 0) := by
        rw [log, turn_settled (.inr validated)]
      rw [Mutator.pick_next (.inr done), now]
      refine ⟨same, head, tail, fun found => ⟨?_, .inl rfl⟩⟩
      exact if_neg (nonempty (head ▸ found))

lemma aflCustomFuzz_idle (small : bufSize ≤ maxFile) (none : m.pick.curTask = none) :
    aflCustomFuzz maxFile m bufSize solve = ⟨m.pick, .none, .input, 0⟩ := by
  rw [aflCustomFuzz, if_neg (Nat.not_lt.mpr small)]
  simp only [none]

/-- An answer leaves the task unless it is UNSAT, and asks for a verdict unless it is
UNSAT or an error. -/
lemma aflCustomFuzz_asks {task : τ} (solve : Solve τ) (small : bufSize ≤ maxFile)
    (found : m.pick.curTask = some task) :
    ∃ answer, answer = (solve m.pick.curSolverIndex task).1 ∧
      (aflCustomFuzz maxFile m bufSize solve).asked = some (task, m.pick.curSolverIndex, answer) ∧
      (aflCustomFuzz maxFile m bufSize solve).mutator = { m.pick with
        curTask := if answer = .unsat then none else some task
        curMutationState := if answer = .sat ∨ answer = .timeout then .inValidation
          else m.pick.curMutationState } := by
  rw [aflCustomFuzz, if_neg (Nat.not_lt.mpr small)]
  simp only [found]
  cases (solve m.pick.curSolverIndex task).1 <;> simp [← found]

lemma Keeps.fuzz (positive : 0 < solvers) (keeps : Keeps solvers tasks s)
    (first : ∀ task, (solve 0 task).1 ≠ .error) :
    Keeps solvers tasks (step maxFile tasks.length s (.fuzz bufSize solve)) := by
  obtain ⟨same, current, queue, solver⟩ := keeps.pick positive
  by_cases small : bufSize ≤ maxFile
  · cases found : s.mutator.pick.curTask with
    | none =>
      rw [step, aflCustomFuzz_idle small found]
      have past : tasks.length ≤ (turn solvers s.log).1 :=
        List.getElem?_eq_none_iff.mp (current.symm.trans found)
      refine ⟨keeps.scheduled, same, fun _ => ⟨?_, ?_⟩, fun t some => ?_⟩
      · dsimp only [attemptOf, Option.map_none, Option.toList_none, List.nil_append]
        rw [queue, List.drop_of_length_le past, List.drop_of_length_le (by omega)]
      · by_contra ne
        exact keeps.scheduled.again ne (current.symm.trans found)
      · exact absurd (found.symm.trans some) nofun
    | some task =>
      obtain ⟨index, state⟩ := solver (by simp [found])
      obtain ⟨answer, answerEq, asked, after⟩ := aflCustomFuzz_asks solve small found
      have inside : (turn solvers s.log).1 < tasks.length :=
        (List.getElem?_eq_some_iff.mp (current.symm.trans found)).1
      have position : tasks.length - s.mutator.pick.tasks.length - 1 = (turn solvers s.log).1 := by
        rw [queue, List.length_drop]
        omega
      simp only [step, attemptOf, asked, after, Option.map_some, Option.toList_some,
        List.singleton_append, position, index]
      refine ⟨⟨rfl, current.symm.trans found, keeps.scheduled⟩, same, fun none => ?_,
        fun t some => ?_⟩
      · have unsat : answer = .unsat := by
          by_contra other
          simp [other] at none
        rw [turn_settled]
        · exact ⟨queue, rfl⟩
        · exact .inl unsat
      · have other : answer ≠ .unsat := by
          rintro rfl
          simp at some
        have taskEq : task = t := by simpa [other] using some
        refine ⟨_, _, rfl, taskEq, rfl, other, queue, .inl ⟨?_, rfl⟩⟩
        by_cases answered : answer = .sat ∨ answer = .timeout
        · exact if_pos answered
        -- an error, so not of the first solver: the state is that of the solver before
        rcases state with zero | waits
        · rw [index, zero] at answerEq
          have noError := first task
          cases answer <;> simp_all
        · exact (if_neg answered).trans waits
  · rw [step, aflCustomFuzz, if_pos (Nat.not_le.mp small)]
    exact keeps

lemma Keeps.newEntry (keeps : Keeps solvers tasks s) (current : Bool) :
    Keeps solvers tasks (step maxFile tasks.length s (.newEntry current)) := by
  by_cases waits : current ∧ s.mutator.curMutationState = .inValidation
  · rw [step, aflCustomQueueNewEntry, if_pos waits, if_pos waits]
    obtain ⟨scheduled, same, idle, busy⟩ := keeps
    cases log : s.log with
    | nil =>
      rw [log] at scheduled idle
      refine ⟨scheduled, same, idle, fun t task => ?_⟩
      obtain ⟨a, earlier, some, -⟩ := busy t task
      rw [log] at some
      cases some
    | cons a earlier =>
      rw [log] at scheduled
      refine ⟨scheduled, same, fun task => ?_, fun t task => ?_⟩
      · obtain ⟨queue, first⟩ := idle task
        -- the turn had passed to the next task without the verdict
        have now : turn solvers s.log = (a.position + 1, 0) := by
          rw [log, turn] at first ⊢
          split at first
          next passed =>
            exact if_pos passed
          · cases first
        rw [markLatest, turn_settled (.inr rfl)]
        rw [now] at queue
        exact ⟨queue, rfl⟩
      · obtain ⟨b, _, same, taskEq, index, answer, queue, -⟩ := busy t task
        rw [log] at same
        cases same
        exact ⟨_, _, rfl, taskEq, index, answer, queue, .inr ⟨rfl, rfl⟩⟩
  · rw [step, aflCustomQueueNewEntry, if_neg waits, if_neg waits]
    exact keeps

variable (positive : 0 < solvers) (keeps : Keeps solvers tasks s)

include positive keeps

lemma Keeps.runs {calls : List (Call τ)} (first : ∀ call ∈ calls, call.FirstAnswers) :
    Keeps solvers tasks (run maxFile tasks.length s calls) := by
  induction calls generalizing s with
  | nil => exact keeps
  | cons call calls ih =>
    refine ih ?_ fun other inside => first other (List.mem_cons_of_mem _ inside)
    have answers := first call List.mem_cons_self
    cases call with
    | fuzz bufSize solve => exact keeps.fuzz positive answers
    | newEntry current => exact keeps.newEntry current

/-! ## Counting the calls -/

lemma Keeps.exhausted_iff :
    Exhausted maxFile s.mutator ↔ tasks.length ≤ (turn solvers s.log).1 := by
  obtain ⟨-, current, -, -⟩ := keeps.pick positive
  constructor
  · intro exhausted
    by_contra inside
    have found : s.mutator.pick.curTask = some _ :=
      current.trans (List.getElem?_eq_getElem (Nat.not_le.mp inside))
    obtain ⟨_, -, asked, -⟩ :=
      aflCustomFuzz_asks (fun _ _ => (.unsat, 0)) (Nat.zero_le maxFile) found
    rw [exhausted] at asked
    cases asked
  · intro past bufSize solve
    by_cases small : bufSize ≤ maxFile
    · rw [aflCustomFuzz_idle small (current.trans (List.getElem?_eq_none past))]
    · rw [aflCustomFuzz, if_pos (Nat.not_le.mp small)]

/-- A call with a small input asks a solver as long as a turn is left. -/
lemma Keeps.length_step (call : Call τ) : (step maxFile tasks.length s call).log.length =
      s.log.length + if call.counts maxFile ∧ (turn solvers s.log).1 < tasks.length then 1
        else 0 := by
  obtain ⟨-, current, -, -⟩ := keeps.pick positive
  cases call with
  | newEntry entry =>
    rw [step]
    split
    · cases s.log <;> rfl
    · rfl
  | fuzz bufSize solve =>
    by_cases small : bufSize ≤ maxFile
    · by_cases inside : (turn solvers s.log).1 < tasks.length
      · have found : s.mutator.pick.curTask = some _ :=
          current.trans (List.getElem?_eq_getElem inside)
        obtain ⟨_, -, asked, -⟩ := aflCustomFuzz_asks solve small found
        simp [step, attemptOf, asked, Call.counts, small, inside]
      · have none := current.trans (List.getElem?_eq_none (Nat.not_lt.mp inside))
        simp [step, attemptOf, aflCustomFuzz_idle small none, inside]
    · simp [step, attemptOf, aflCustomFuzz, Nat.not_le.mp small, Call.counts, small]

lemma Keeps.past_step (past : tasks.length ≤ (turn solvers s.log).1) (call : Call τ) :
    tasks.length ≤ (turn solvers (step maxFile tasks.length s call).log).1 := by
  cases call with
  | newEntry current =>
    rw [step]
    split
    · cases log : s.log with
      | nil =>
        rw [log] at past
        exact past
      | cons a earlier =>
        rw [log, turn] at past
        rw [markLatest, turn_settled (.inr rfl)]
        split at past
        · exact past
        · exact Nat.le_succ_of_le past
    · exact past
  | fuzz bufSize solve =>
    simp only [step, attemptOf, (keeps.exhausted_iff positive).mpr past bufSize solve]
    exact past

/-- A run asks a solver at every counted call until it is past the queue. -/
lemma Keeps.length_run (calls : List (Call τ)) (first : ∀ call ∈ calls, call.FirstAnswers) :
    tasks.length ≤ (turn solvers (run maxFile tasks.length s calls).log).1 ∨
      (run maxFile tasks.length s calls).log.length =
        s.log.length + calls.countP (Call.counts maxFile) := by
  induction calls using List.reverseRecOn with
  | nil => exact .inr rfl
  | append_singleton calls call ih =>
    have before : ∀ other ∈ calls, other.FirstAnswers :=
      fun other inside => first other (List.mem_append_left _ inside)
    have kept : Keeps solvers tasks (run maxFile tasks.length s calls) := keeps.runs positive before
    rw [run, List.foldl_append]
    by_cases past : tasks.length ≤ (turn solvers (run maxFile tasks.length s calls).log).1
    · exact .inl (kept.past_step positive past call)
    refine .inr ?_
    have length := (ih before).resolve_left past
    refine (kept.length_step positive call).trans ?_
    rw [length, Nat.add_assoc]
    cases counts : call.counts maxFile <;> simp [counts, Nat.not_le.mp past]

end Keeping

variable {m : Mutator τ} {found : List τ}

lemma keeps_begun : Keeps m.solvers (m.tasks ++ found)
    ⟨(aflCustomFuzzCount m (some found)).1, []⟩ :=
  ⟨trivial, rfl, fun _ => ⟨rfl, rfl⟩, fun _ task => by cases task⟩

/-- After the input was traced, every call asks the solver whose turn it is about the
task whose turn it is: tasks in the order of the queue, for each task the solvers in
their order, the next one unless an answer was UNSAT or validated, no pair twice. -/
theorem mutator_follows_turns (maxFile : Nat) (m : Mutator τ) (found : List τ)
    (calls : List (Call τ)) (positive : 0 < m.solvers)
    (first : ∀ call ∈ calls, call.FirstAnswers) :
    let queue := m.tasks ++ found
    let begun := aflCustomFuzzCount m (some found)
    let s := run maxFile queue.length ⟨begun.1, []⟩ calls
    Scheduled m.solvers queue s.log ∧
    (∀ bufSize solve, bufSize ≤ maxFile →
      (aflCustomFuzz maxFile s.mutator bufSize solve).asked =
        queue[(turn m.solvers s.log).1]?.map fun task =>
          (task, (turn m.solvers s.log).2, (solve (turn m.solvers s.log).2 task).1)) ∧
    (∀ a ∈ s.log, queue[a.position]? = some a.task ∧ a.solver < m.solvers) ∧
    (s.log.Pairwise fun later earlier => earlier.Before later) ∧
    (∀ t, s.mutator.curTask = some t → s.mutator.curSolverIndex < m.solvers) ∧
    (queue.length * m.solvers < 2 ^ 32 → begun.2 ≤ calls.countP (Call.counts maxFile) →
      Exhausted maxFile s.mutator) := by
  intro queue begun s
  have kept : Keeps m.solvers queue s := keeps_begun.runs positive first
  refine ⟨kept.scheduled, fun bufSize solve small => ?_, fun a inside =>
    ⟨kept.scheduled.task_eq inside, kept.scheduled.solver_lt positive inside⟩,
    kept.scheduled.pairwise, fun t task => ?_, fun fits enough => ?_⟩
  · obtain ⟨-, current, -, solver⟩ := kept.pick positive
    rw [← current]
    cases task : s.mutator.pick.curTask with
    | none => rw [aflCustomFuzz_idle small task, Option.map_none]
    | some t =>
      obtain ⟨_, answerEq, asked, -⟩ := aflCustomFuzz_asks solve small task
      rw [asked, answerEq, (solver (by simp [task])).1, Option.map_some]
  · obtain ⟨a, _, log, -, index, -⟩ := kept.busy t task
    rw [← index]
    exact kept.scheduled.solver_lt positive (log ▸ List.mem_cons_self)
  · rw [kept.exhausted_iff positive]
    by_contra inside
    have length : s.log.length = 0 + calls.countP (Call.counts maxFile) :=
      (keeps_begun.length_run positive calls first).resolve_left inside
    have announced : begun.2 = queue.length * m.solvers := Nat.mod_eq_of_lt fits
    have used := kept.scheduled.length_le positive
    have lt := turn_lt positive kept.scheduled
    have rows : ((turn m.solvers s.log).1 + 1) * m.solvers ≤ queue.length * m.solvers :=
      Nat.mul_le_mul_right _ (Nat.not_le.mp inside)
    rw [Nat.add_mul] at rows
    omega

/-- Every solver answers the same. -/
def always (answer : Answer) : Call Nat := .fuzz 4 fun _ _ => (answer, 4)

/-- Two tasks and two solvers: the first answer is validated, the second task times
out and is then UNSAT. -/
theorem mutator_follows_turns_validated :
    let calls := [always .sat, .newEntry true, always .timeout, always .unsat, always .sat]
    let m : Mutator Nat := ⟨2, [10], none, 0, .invalid⟩
    let s := run 8 2 ⟨(aflCustomFuzzCount m (some [20])).1, []⟩ calls
    s.log = [⟨1, 1, 20, .unsat, false⟩, ⟨1, 0, 20, .timeout, false⟩, ⟨0, 0, 10, .sat, true⟩] ∧
      Exhausted 8 s.mutator := by
  intro calls m s
  refine ⟨by decide, (mutator_follows_turns 8 m [20] calls (by decide) ?_).2.2.2.2.2
    (by decide) (by decide)⟩
  intro call inside
  simp only [calls, List.mem_cons, List.not_mem_nil, or_false] at inside
  rcases inside with rfl | rfl | rfl | rfl | rfl
  · exact nofun
  · trivial
  all_goals exact nofun

/-- The index is left at the number of solvers when the last task is given up. No call
is announced for 2 ^ 31 tasks and two solvers, nor for an input that is not traced, and
a call with a large input does not count. -/
theorem mutator_index_and_count :
    let one := aflCustomFuzzCount ⟨1, [], none, 0, .invalid⟩ (some [10])
    let many := aflCustomFuzzCount ⟨2, [], none, 0, .invalid⟩ (some (List.replicate (2 ^ 31) 10))
    let left := aflCustomFuzzCount ⟨1, [10], none, 0, .invalid⟩ none
    (run 8 1 ⟨one.1, []⟩ [always .timeout, always .timeout]).mutator.curSolverIndex = 1 ∧
    (many.2 = 0 ∧ ¬ Exhausted 8 many.1) ∧ (left.2 = 0 ∧ ¬ Exhausted 8 left.1) ∧
    one.2 = 1 ∧ ¬ Exhausted 8 (run 8 1 ⟨one.1, []⟩ [.fuzz 9 fun _ _ => (.sat, 9)]).mutator := by
  have fresh : ∀ m : Mutator Nat, m.curTask = none → m.tasks ≠ [] → ¬ Exhausted 8 m := by
    intro m idle queued exhausted
    have none := exhausted 0 fun _ _ => (.sat, 0)
    rw [aflCustomFuzz, Mutator.pick_next (.inl idle)] at none
    cases tasks : m.tasks with
    | nil => exact queued tasks
    | cons t rest => simp [tasks] at none
  have announced : ∀ found : List Nat, found.length = 2 ^ 31 →
      let begun := aflCustomFuzzCount ⟨2, [], none, 0, .invalid⟩ (some found)
      begun.2 = 0 ∧ ¬ Exhausted 8 begun.1 := by
    intro found length begun
    have count : begun.2 = found.length * 2 % 2 ^ 32 := rfl
    refine ⟨by omega, fresh _ rfl (List.ne_nil_of_length_pos ?_)⟩
    exact Nat.lt_of_lt_of_eq (by decide) length.symm
  exact ⟨by decide, announced _ List.length_replicate, ⟨rfl, fresh _ rfl nofun⟩, rfl,
    fresh _ rfl nofun⟩

end MutatorSchedule
