import SymSan.Launcher
import SymSan.TraceMonitor

/-!
# What a driver may ask of the launcher

The phases of the launcher as its callers can know them: whether a child has
been started whose end they have not seen, and for each end of the pipe whether
it is held, gone, or closed and still remembered. Phases follow the calls and
the answers to them, not the launcher's variables. Two monitors follow its
system calls: one the children that are not reaped yet, one the descriptors
that `pipe` returned. The runs in which every signal goes to an own child, and
those in which no closed descriptor is used, are exactly the runs that obey the
corresponding rule on calls.
-/

namespace LauncherProtocol

open Launcher TraceMonitor
open Monitor (accepts_append after_append)

variable {c : Config} {s : List Nat} {o : RunOutcome} {size timeout : Nat}

/-! ## Phases -/

/-- One end of the pipe; `stale` is closed and still remembered. -/
inductive Slot where
  | empty | held | stale
  deriving DecidableEq, Repr

def Slot.closed : Slot → Slot
  | held => stale
  | s => s

structure Phase where
  configured : Bool
  running : Bool
  readSlot : Slot
  writeSlot : Slot
  deriving DecidableEq, Repr

/-- What is left after `symsan_run` has passed its checks. -/
def Phase.started (p : Phase) (o : RunOutcome) : Phase :=
  match o.pipe with
  | none => { p with readSlot := p.readSlot.closed, writeSlot := p.writeSlot.closed }
  | some _ =>
    if o.env = false then { p with readSlot := .held, writeSlot := .held }
    else match o.fork with
      | .parent _ _ => { p with running := true, readSlot := .held, writeSlot := .empty }
      | .failed => { p with running := false, readSlot := .stale, writeSlot := .stale }
      | .child => { p with running := false, readSlot := .stale, writeSlot := .held }

def Phase.next (p : Phase) : Call → Phase
  | .run fd o => if fd < 0 ∨ p.configured = false then p else p.started o
  | .readEvent size timeout o =>
    if size = 0 ∨ o.complete size timeout = true then p
    else { p with running := false, readSlot := .empty }
  | .terminate _ =>
    if p.running then { p with running := false, readSlot := p.readSlot.closed } else p
  | .destroy _ => ⟨false, false, .empty, .empty⟩

/-- A configuration that passes the checks of `symsan_run`. -/
def ready (c : Config) : Bool := c.symsanBin && c.labelInfo && c.inputFile && c.argv

def Phase.start (c : Config) : Phase := ⟨ready c, false, .empty, .empty⟩

/-! ## What a run does -/

lemma run_refused {fd : Int} (refused : fd < 0 ∨ ready c = false) :
    step c (.run fd o) = (c, []) := by
  simp only [step, respond, symsanRun]
  split
  · rfl
  split
  · rfl
  split
  · rfl
  split
  · rfl
  · split
    · rfl
    · simp_all [ready]

/-- The part of `symsan_run` behind the checks. -/
def launch (c : Config) (o : RunOutcome) : Config × List Act :=
  match o.pipe with
  | none => (c, [.pipe none])
  | some ends =>
    let c := { c with readFd := ends.readEnd, writeFd := ends.writeEnd }
    if o.env = false then (c, [.pipe (some ends)])
    else match o.fork with
      | .parent pid pos =>
        ({ c with symsanPid := pid, writeFd := -1 },
          [.pipe (some ends), .fork (.parent pid pos), .close ends.writeEnd])
      | .failed =>
        ({ c with symsanPid := -1 },
          [.pipe (some ends), .fork .failed, .close ends.readEnd, .close ends.writeEnd])
      | .child =>
        ({ c with symsanPid := 0 }, [.pipe (some ends), .fork .child, .close ends.readEnd])

lemma run_started {fd : Int} (started : ¬ (fd < 0 ∨ ready c = false)) :
    step c (.run fd o) =
      ((launch c o).1, closeIfSet c.readFd ++ closeIfSet c.writeFd ++ (launch c o).2) := by
  obtain ⟨pos, set⟩ := not_or.mp started
  simp only [ready, Bool.not_eq_false, Bool.and_eq_true] at set
  obtain ⟨⟨⟨bin, shm⟩, input⟩, args⟩ := set
  simp only [step, respond, symsanRun, if_neg pos, bin, shm, input, args, launch]
  cases o.pipe with
  | none => rfl
  | some ends =>
    cases o.env with
    | false => rfl
    | true =>
      cases o.fork with
      | parent pid pos | failed | child => simp

/-! ## What a read does -/

/-- Wait for an event if there is a timeout, then read or give up. -/
def poll (c : Config) (timeout : Nat) (o : ReadOutcome) : List Act :=
  (if timeout = 0 then [] else [.select c.readFd]) ++
    [if timeout = 0 ∨ 0 < o.select then .read c.readFd else .kill c.symsanPid]

lemma readEvent_complete {o : ReadOutcome} (some : size ≠ 0)
    (complete : o.complete size timeout = true) :
    step c (.readEvent size timeout o) = (c, poll c timeout o) := by
  simp [step, respond, symsanReadEvent, if_neg some, complete, poll]

lemma readEvent_incomplete {o : ReadOutcome} (some : size ≠ 0)
    (incomplete : ¬ o.complete size timeout = true) :
    step c (.readEvent size timeout o) = ({ c with symsanPid := -1, readFd := -1 },
      poll c timeout o ++ [.waitpid c.symsanPid o.reaped, .close c.readFd]) := by
  simp only [step, respond, symsanReadEvent, if_neg some, if_neg incomplete, poll]

/-! ## Signals -/

/-- The children that were forked and not reaped, and which signals are in order. -/
def children : Monitor Act (List Nat) where
  update := fun s a => match a with
    | .fork (.parent pid _) => pid :: s
    | .fork .child => []
    | .waitpid _ (some pid) => s.erase pid
    | _ => s
  Ok := fun s a => match a with
    | .kill pid => 0 < pid ∧ pid.toNat ∈ s
    | _ => True

def unreaped (trace : List Act) : List Nat := children.after [] trace

/-- A wait for an event may only run out while a child is running. -/
def TimesOutWhileRunning (p : Phase) : Call → Prop
  | .readEvent size timeout o =>
    size ≠ 0 → timeout ≠ 0 → o.select ≤ 0 → p.running = true
  | _ => True

/-- The stored pid is that of the running child. -/
structure Tracks (c : Config) (p : Phase) (s : List Nat) : Prop where
  same : ready c = p.configured
  child : p.running = true → 0 < c.symsanPid ∧ c.symsanPid.toNat ∈ s
  none : p.running = false → c.symsanPid ≤ 0

lemma children_closeIfSet (s : List Nat) (fd : Int) :
    children.Accepts s (closeIfSet fd) ∧ children.after s (closeIfSet fd) = s := by
  unfold closeIfSet
  split
  · exact ⟨⟨trivial, trivial⟩, rfl⟩
  · exact ⟨trivial, rfl⟩

variable {p : Phase}

lemma launch_tracks (tracks : Tracks c p s) (o : RunOutcome) :
    children.Accepts s (launch c o).2 ∧
      Tracks (launch c o).1 (p.started o) (children.after s (launch c o).2) := by
  obtain ⟨pipe, env, fork⟩ := o
  rcases pipe with _ | ends
  · exact ⟨⟨trivial, trivial⟩, tracks.same, tracks.child, tracks.none⟩
  rcases env with _ | _
  · exact ⟨⟨trivial, trivial⟩, tracks.same, tracks.child, tracks.none⟩
  cases fork with
  | parent pid pos =>
    have child : 0 < (pid : Int) ∧ (pid : Int).toNat ∈ pid :: s := by
      simp [pos]
    exact ⟨⟨trivial, trivial, trivial, trivial⟩, tracks.same, fun _ => child,
      by rintro ⟨⟩⟩
  | failed =>
    have none : (-1 : Int) ≤ 0 := by decide
    exact ⟨⟨trivial, trivial, trivial, trivial, trivial⟩, tracks.same,
      by rintro ⟨⟩, fun _ => none⟩
  | child =>
    exact ⟨⟨trivial, trivial, trivial, trivial⟩, tracks.same, by rintro ⟨⟩,
      fun _ => Int.le_refl 0⟩

lemma run_tracks (tracks : Tracks c p s) (fd : Int) (o : RunOutcome) :
    children.Accepts s (step c (.run fd o)).2 ∧
      Tracks (step c (.run fd o)).1 (p.next (.run fd o))
        (children.after s (step c (.run fd o)).2) := by
  by_cases refused : fd < 0 ∨ ready c = false
  · rw [run_refused refused, Phase.next, if_pos (by rwa [← tracks.same])]
    exact ⟨trivial, tracks⟩
  obtain ⟨first, firstAfter⟩ := children_closeIfSet s c.readFd
  obtain ⟨second, secondAfter⟩ := children_closeIfSet s c.writeFd
  rw [run_started refused, Phase.next, if_neg (by rwa [← tracks.same])]
  simp only [accepts_append, after_append, firstAfter, secondAfter]
  obtain ⟨accepted, tracks'⟩ := launch_tracks tracks o
  exact ⟨⟨⟨first, second⟩, accepted⟩, tracks'⟩

lemma children_poll (s : List Nat) (c : Config) (timeout : Nat) (o : ReadOutcome) :
    (children.Accepts s (poll c timeout o) ↔
      (timeout = 0 ∨ 0 < o.select) ∨ 0 < c.symsanPid ∧ c.symsanPid.toNat ∈ s) ∧
    children.after s (poll c timeout o) = s := by
  unfold poll
  by_cases zero : timeout = 0
  · simp [zero, children]
  · by_cases ready : 0 < o.select
    · simp [zero, ready, children]
    · simp [zero, ready, children]

/-- The signal of a wait that runs out is the only one that can go wrong. -/
lemma readEvent_tracks (tracks : Tracks c p s) (size timeout : Nat) (o : ReadOutcome) :
    (children.Accepts s (step c (.readEvent size timeout o)).2 ↔
      TimesOutWhileRunning p (.readEvent size timeout o)) ∧
    Tracks (step c (.readEvent size timeout o)).1 (p.next (.readEvent size timeout o))
      (children.after s (step c (.readEvent size timeout o)).2) := by
  by_cases zero : size = 0
  · subst zero
    exact ⟨⟨fun _ no => absurd rfl no, fun _ => trivial⟩, tracks⟩
  obtain ⟨accepts, same⟩ := children_poll s c timeout o
  have allowed : children.Accepts s (poll c timeout o) ↔
      TimesOutWhileRunning p (.readEvent size timeout o) := by
    rw [accepts]
    constructor
    · rintro (ready | ⟨pos, _⟩) _ wait out
      · omega
      · by_contra stopped
        have none := tracks.none (Bool.eq_false_iff.mpr stopped)
        omega
    · intro running
      by_cases ready : timeout = 0 ∨ 0 < o.select
      · exact .inl ready
      · obtain ⟨wait, _⟩ := not_or.mp ready
        exact .inr (tracks.child (running zero wait (by omega)))
  by_cases complete : o.complete size timeout = true
  · rw [readEvent_complete zero complete, Phase.next, if_pos (.inr complete), same]
    exact ⟨allowed, tracks⟩
  rw [readEvent_incomplete zero complete, Phase.next, if_neg (by simp [zero, complete]),
    accepts_append]
  refine ⟨?_, tracks.same, by rintro ⟨⟩, fun _ => ?_⟩
  · rw [← allowed]
    exact ⟨And.left, fun accepted => ⟨accepted, trivial, trivial, trivial⟩⟩
  · exact (by decide : (-1 : Int) ≤ 0)

lemma terminate_tracks (tracks : Tracks c p s) (reaped : Option Nat) :
    children.Accepts s (symsanTerminate c reaped).acts ∧
      ready (symsanTerminate c reaped).config = p.configured ∧
      (symsanTerminate c reaped).config.symsanPid ≤ 0 := by
  have ready := tracks.same
  unfold symsanTerminate
  split
  next none =>
    exact ⟨trivial, ready, by rw [none]; decide⟩
  split
  · have running : p.running = true := by
      by_contra stopped
      have none := tracks.none (Bool.eq_false_iff.mpr stopped)
      omega
    exact ⟨⟨tracks.child running, trivial, trivial, trivial⟩, ready, (by decide : (-1 : Int) ≤ 0)⟩
  next none =>
    exact ⟨trivial, ready, Int.not_lt.mp none⟩

lemma children_simulates : Simulates children step Phase.next TimesOutWhileRunning Tracks := by
  constructor
  · intro c p s call tracks
    cases call with
    | run fd o => exact iff_of_true (run_tracks tracks fd o).1 trivial
    | readEvent size timeout o => exact (readEvent_tracks tracks size timeout o).1
    | terminate reaped => exact iff_of_true (terminate_tracks tracks reaped).1 trivial
    | destroy reaped =>
      refine iff_of_true ?_ trivial
      simp only [step, respond, symsanDestroy, accepts_append]
      exact ⟨(terminate_tracks tracks reaped).1, (children_closeIfSet _ _).1,
        (children_closeIfSet _ _).1⟩
  · intro c p s call tracks _
    cases call with
    | run fd o => exact (run_tracks tracks fd o).2
    | readEvent size timeout o => exact (readEvent_tracks tracks size timeout o).2
    | terminate reaped =>
      obtain ⟨_, same, none⟩ := terminate_tracks tracks reaped
      by_cases running : p.running = true
      · rw [Phase.next, if_pos running]
        exact ⟨same, fun yes => absurd yes Bool.false_ne_true, fun _ => none⟩
      · rw [Phase.next, if_neg running]
        exact ⟨same, fun yes => absurd yes running, fun _ => none⟩
    | destroy reaped =>
      obtain ⟨_, _, none⟩ := terminate_tracks tracks reaped
      exact ⟨rfl, fun yes => absurd yes Bool.false_ne_true, fun _ => none⟩

/-- Every signal goes to a child that was forked and not reaped, exactly in the
runs where a wait for an event only runs out while a child is running. -/
theorem kills_own_child_iff (symsanBin labelInfo inputFile argv : Bool) (calls : List Call) :
    (∀ before pid rest,
      traceOf step (.start symsanBin labelInfo inputFile argv) calls =
        before ++ .kill pid :: rest → 0 < pid ∧ pid.toNat ∈ unreaped before) ↔
      Obeys Phase.next TimesOutWhileRunning
        (.start (.start symsanBin labelInfo inputFile argv)) calls := by
  have start : Tracks (.start symsanBin labelInfo inputFile argv)
      (.start (.start symsanBin labelInfo inputFile argv)) [] :=
    ⟨rfl, by rintro ⟨⟩, fun _ => (by decide : (-1 : Int) ≤ 0)⟩
  rw [← children_simulates.accepts_iff start calls, Monitor.accepts_iff]
  constructor
  · intro own before act rest split
    cases act with
    | kill pid => exact own before pid rest split
    | _ => trivial
  · intro own before pid rest split
    exact own before (.kill pid) rest split

/-! Runs of a driver: child 100 gets the pipe 5, 6. -/

def starts (pid : Nat) (pos : 0 < pid) : Call :=
  .run 3 ⟨some ⟨5, 6, by decide⟩, true, .parent pid pos⟩

def readsEvent : Call := .readEvent 40 1000 ⟨1, 40, none⟩

def readsEnd (pid : Nat) : Call := .readEvent 40 1000 ⟨1, 0, some pid⟩

def timesOut (pid : Option Nat) : Call := .readEvent 40 1000 ⟨0, 0, pid⟩

/-- One child that hangs and is killed by the timeout, one that is terminated. -/
theorem kills_own_child_iff_hanging :
    let calls := [starts 100 (by decide), readsEvent, timesOut (some 100),
      starts 101 (by decide), .terminate (some 101)]
    let trace := traceOf step (.start true true true true) calls
    .kill 100 ∈ trace ∧ .kill 101 ∈ trace ∧
      ∀ before pid rest, trace = before ++ .kill pid :: rest →
        0 < pid ∧ pid.toNat ∈ unreaped before := by
  intro calls trace
  refine ⟨by decide, by decide, (kills_own_child_iff true true true true calls).mpr ?_⟩
  exact ⟨trivial, fun _ _ _ => rfl, fun _ _ _ => rfl, trivial, trivial, trivial⟩

/-- After a child has been terminated a wait on its closed pipe fails, and the
signal goes to every process. -/
theorem readEvent_kills_everyone :
    traceOf step (.start true true true true) [starts 100 (by decide), .terminate (some 100),
      .readEvent 40 1000 ⟨-1, 0, none⟩] =
      [.pipe (some ⟨5, 6, by decide⟩), .fork (.parent 100 (by decide)), .close 6, .kill 100,
        .waitpid 100 (some 100), .close 5, .select 5] ++
      .kill (-1) :: [.waitpid (-1) none, .close 5] := by
  decide

/-! ## Descriptors -/

inductive Life where
  | foreign | opened | closed
  deriving DecidableEq, Repr

/-- Where a descriptor is closed that `pipe` returned, it is closed from then on
until `pipe` returns it again. -/
def closing (s : Int → Life) (fd : Int) : Int → Life :=
  fun x => if x = fd ∧ s fd = .opened then .closed else s x

def opening (s : Int → Life) (ends : PipeEnds) : Int → Life :=
  fun x => if x = ends.readEnd ∨ x = ends.writeEnd then .opened else s x

def descriptors : Monitor Act (Int → Life) where
  update := fun s a => match a with
    | .pipe (some ends) => opening s ends
    | .close fd => closing s fd
    | _ => s
  Ok := fun s a => match a with
    | .select fd => s fd ≠ .closed
    | .read fd => s fd ≠ .closed
    | .close fd => s fd ≠ .closed
    | _ => True

def lifeAfter (trace : List Act) : Int → Life := descriptors.after (fun _ => .foreign) trace

def Uses : Act → Int → Prop
  | .select fd, x => x = fd
  | .read fd, x => x = fd
  | .close fd, x => x = fd
  | _, _ => False

/-- A remembered descriptor may not be used once it is closed: not by a run that
gets past its checks, not by a read, not by the end of a running child; and a
driver may not give up the launcher while a child is running, which closes the
read end twice. -/
def UsesNothingStale (p : Phase) : Call → Prop
  | .run fd _ => 0 ≤ fd → p.configured = true → p.readSlot ≠ .stale ∧ p.writeSlot ≠ .stale
  | .readEvent size _ _ => size ≠ 0 → p.readSlot ≠ .stale
  | .terminate _ => p.running = true → p.readSlot ≠ .stale
  | .destroy _ => p.running = false ∧ p.readSlot ≠ .stale ∧ p.writeSlot ≠ .stale

/-- A slot describes a remembered descriptor. -/
def Fits (s : Int → Life) (fd : Int) : Slot → Prop
  | .empty => fd = -1
  | .held => fd ≠ -1 ∧ s fd = .opened
  | .stale => fd ≠ -1 ∧ s fd = .closed

structure Slots (s : Int → Life) (readFd writeFd : Int) (readSlot writeSlot : Slot) : Prop where
  readFits : Fits s readFd readSlot
  writeFits : Fits s writeFd writeSlot
  apart : readSlot ≠ .empty → writeSlot ≠ .empty → readFd ≠ writeFd
  never : s (-1) = .foreign

section Slots

variable {s : Int → Life} {fd r w : Int} {slot a b : Slot}

lemma Fits.ok (fits : Fits s fd slot) (never : s (-1) = .foreign) :
    s fd ≠ .closed ↔ slot ≠ .stale := by
  cases slot with
  | empty =>
    have here : fd = -1 := fits
    simp [here, never]
  | held | stale => simp [fits.2]

lemma Fits.ne (fits : Fits s fd slot) (used : slot ≠ .empty) : fd ≠ -1 := by
  cases slot with
  | empty => exact absurd rfl used
  | held | stale => exact fits.1

lemma closing_foreign (never : s (-1) = .foreign) (fd : Int) : closing s fd (-1) = .foreign := by
  by_cases here : -1 = fd
  · simp [closing, ← here, never]
  · simp [closing, here, never]

lemma Fits.close (fits : Fits s fd slot) : Fits (closing s fd) fd slot.closed := by
  cases slot with
  | empty => exact fits
  | held | stale => exact ⟨fits.1, by simp [closing, fits.2]⟩

lemma Fits.close_other (fits : Fits s w slot) (apart : slot ≠ .empty → w ≠ r) :
    Fits (closing s r) w slot := by
  cases slot with
  | empty => exact fits
  | held => exact ⟨fits.1, by simp [closing, apart (by decide), fits.2]⟩
  | stale => exact ⟨fits.1, by simp [closing, fits.2]⟩

lemma Slot.closed_ne_empty (used : a ≠ .empty) : a.closed ≠ .empty := by
  cases a with
  | empty => exact absurd rfl used
  | held | stale => decide

lemma Slot.ne_empty_of_closed (used : a.closed ≠ .empty) : a ≠ .empty := by
  rintro rfl
  exact used rfl

section

variable (slots : Slots s r w a b)

include slots

lemma Slots.swap : Slots s w r b a :=
  ⟨slots.writeFits, slots.readFits, fun used used' => (slots.apart used' used).symm, slots.never⟩

lemma Slots.closeRead : Slots (closing s r) r w a.closed b := by
  constructor
  · exact slots.readFits.close
  · refine slots.writeFits.close_other ?_
    intro used same
    have set := slots.writeFits.ne used
    cases a with
    | empty => exact set (same.trans slots.readFits)
    | held | stale => exact slots.apart (by decide) used same.symm
  · intro used
    exact slots.apart (Slot.ne_empty_of_closed used)
  · exact closing_foreign slots.never r

lemma Slots.closeWrite : Slots (closing s w) r w a b.closed :=
  slots.swap.closeRead.swap

lemma Slots.forgetRead : Slots s (-1) w .empty b :=
  ⟨rfl, slots.writeFits, fun used => absurd rfl used, slots.never⟩

lemma Slots.forgetWrite : Slots s r (-1) a .empty :=
  slots.swap.forgetRead.swap

end

lemma Slots.opened (never : s (-1) = .foreign) (ends : PipeEnds) :
    Slots (opening s ends) ends.readEnd ends.writeEnd .held .held := by
  have distinct := ends.distinct
  constructor
  · exact ⟨by omega, by simp [opening]⟩
  · exact ⟨by omega, by simp [opening]⟩
  · omega
  · simp [opening, never]

lemma Fits.closeIfSet (fits : Fits s fd slot) (never : s (-1) = .foreign) :
    (descriptors.Accepts s (Launcher.closeIfSet fd) ↔ slot ≠ .stale) ∧
      descriptors.after s (Launcher.closeIfSet fd) = closing s fd := by
  by_cases none : fd = -1
  · subst none
    have same : closing s (-1) = s := by
      funext x
      simp [closing, never]
    rw [same, ← fits.ok never]
    exact ⟨iff_of_true trivial (by rw [never]; decide), rfl⟩
  · have here : Launcher.closeIfSet fd = [.close fd] := if_pos none
    rw [here, ← fits.ok never]
    exact ⟨⟨And.left, fun ok => ⟨ok, trivial⟩⟩, rfl⟩

/-- The closes at the start of a run and at the end of `symsan_destroy`. -/
lemma Slots.closeBoth (slots : Slots s r w a b) :
    (descriptors.Accepts s (closeIfSet r ++ closeIfSet w) ↔ a ≠ .stale ∧ b ≠ .stale) ∧
      Slots (descriptors.after s (closeIfSet r ++ closeIfSet w)) r w a.closed b.closed := by
  obtain ⟨first, firstAfter⟩ := slots.readFits.closeIfSet slots.never
  have slots' := slots.closeRead
  obtain ⟨second, secondAfter⟩ := slots'.writeFits.closeIfSet slots'.never
  rw [accepts_append, after_append, firstAfter, secondAfter, first, second]
  exact ⟨.rfl, slots'.closeWrite⟩

end Slots

/-- The launcher's variables in a phase. -/
structure Keeps (c : Config) (p : Phase) (s : Int → Life) : Prop where
  same : ready c = p.configured
  child : p.running = true → 0 < c.symsanPid
  none : p.running = false → c.symsanPid ≤ 0
  slots : Slots s c.readFd c.writeFd p.readSlot p.writeSlot
  used : p.running = true → p.readSlot ≠ .empty

section Calls

variable {c : Config} {p : Phase} {s : Int → Life}

section

variable (keeps : Keeps c p s)

include keeps

lemma Keeps.stopped (none : ¬ 0 < c.symsanPid) : p.running = false := by
  cases running : p.running with
  | false => rfl
  | true => exact absurd (keeps.child running) none

lemma Keeps.running (pos : 0 < c.symsanPid) : p.running = true := by
  cases running : p.running with
  | false =>
    have none := keeps.none running
    omega
  | true => rfl

lemma launch_keeps {s' : Int → Life}
    (slots : Slots s' c.readFd c.writeFd p.readSlot.closed p.writeSlot.closed) (o : RunOutcome) :
    descriptors.Accepts s' (launch c o).2 ∧
      Keeps (launch c o).1 (p.started o) (descriptors.after s' (launch c o).2) := by
  obtain ⟨pipe, env, fork⟩ := o
  have held : Slot.held ≠ .empty := by decide
  cases pipe with
  | none =>
    refine ⟨⟨trivial, trivial⟩, keeps.same, keeps.child, keeps.none, slots, ?_⟩
    intro running
    exact Slot.closed_ne_empty (keeps.used running)
  | some ends =>
    have opened := Slots.opened slots.never ends
    have readOk := (opened.readFits.ok opened.never).mpr (by decide)
    have writeOk := (opened.writeFits.ok opened.never).mpr (by decide)
    cases env with
    | false =>
      exact ⟨⟨trivial, trivial⟩, keeps.same, keeps.child, keeps.none, opened, fun _ => held⟩
    | true =>
      cases fork with
      | parent pid pos =>
        exact ⟨⟨trivial, trivial, writeOk, trivial⟩, keeps.same, fun _ => Int.natCast_pos.mpr pos,
          by rintro ⟨⟩, opened.closeWrite.forgetWrite, fun _ => held⟩
      | failed =>
        have closed := opened.closeRead
        have writeOk' := (closed.writeFits.ok closed.never).mpr (by decide)
        exact ⟨⟨trivial, trivial, readOk, writeOk', trivial⟩, keeps.same,
          by rintro ⟨⟩, fun _ => (by decide : (-1 : Int) ≤ 0), closed.closeWrite,
          by rintro ⟨⟩⟩
      | child =>
        exact ⟨⟨trivial, trivial, readOk, trivial⟩, keeps.same, by rintro ⟨⟩,
          fun _ => Int.le_refl 0, opened.closeRead, by rintro ⟨⟩⟩

lemma run_keeps (fd : Int) (o : RunOutcome) :
    (descriptors.Accepts s (step c (.run fd o)).2 ↔ UsesNothingStale p (.run fd o)) ∧
      Keeps (step c (.run fd o)).1 (p.next (.run fd o))
        (descriptors.after s (step c (.run fd o)).2) := by
  by_cases refused : fd < 0 ∨ ready c = false
  · rw [run_refused refused, Phase.next, if_pos (by rwa [← keeps.same])]
    refine ⟨iff_of_true trivial ?_, keeps⟩
    intro pos set
    rw [keeps.same, set] at refused
    rcases refused with neg | no
    · omega
    · cases no
  · obtain ⟨closes, slots⟩ := keeps.slots.closeBoth
    obtain ⟨launched, keeps'⟩ := launch_keeps keeps slots o
    obtain ⟨_, set⟩ := not_or.mp refused
    rw [keeps.same, Bool.not_eq_false] at set
    rw [run_started refused, Phase.next, if_neg (by rwa [← keeps.same])]
    rw [accepts_append s (closeIfSet c.readFd ++ closeIfSet c.writeFd),
      after_append s (closeIfSet c.readFd ++ closeIfSet c.writeFd), closes]
    refine ⟨?_, keeps'⟩
    constructor
    · intro ok _ _
      exact ok.1
    · intro ok
      exact ⟨ok (by omega) set, launched⟩

end

lemma descriptors_poll (s : Int → Life) (c : Config) (timeout : Nat) (o : ReadOutcome) :
    (descriptors.Accepts s (poll c timeout o) ↔ s c.readFd ≠ .closed) ∧
      descriptors.after s (poll c timeout o) = s := by
  unfold poll
  by_cases zero : timeout = 0
  · simp [zero, descriptors]
  · by_cases ready : 0 < o.select
    all_goals simp [zero, ready, descriptors]

lemma readEvent_keeps (keeps : Keeps c p s) (size timeout : Nat) (o : ReadOutcome) :
    (descriptors.Accepts s (step c (.readEvent size timeout o)).2 ↔
      UsesNothingStale p (.readEvent size timeout o)) ∧
    Keeps (step c (.readEvent size timeout o)).1 (p.next (.readEvent size timeout o))
      (descriptors.after s (step c (.readEvent size timeout o)).2) := by
  by_cases zero : size = 0
  · subst zero
    exact ⟨iff_of_true trivial fun no => absurd rfl no, keeps⟩
  obtain ⟨accepts, same⟩ := descriptors_poll s c timeout o
  have allowed : s c.readFd ≠ .closed ↔ UsesNothingStale p (.readEvent size timeout o) := by
    rw [keeps.slots.readFits.ok keeps.slots.never]
    exact ⟨fun ok _ => ok, fun ok => ok zero⟩
  by_cases complete : o.complete size timeout = true
  · rw [readEvent_complete zero complete, Phase.next, if_pos (.inr complete), same, accepts]
    exact ⟨allowed, keeps⟩
  rw [readEvent_incomplete zero complete, Phase.next, if_neg (by simp [zero, complete]),
    accepts_append, after_append, same, accepts]
  constructor
  · rw [← allowed]
    exact ⟨And.left, fun ok => ⟨ok, trivial, ok, trivial⟩⟩
  · exact ⟨keeps.same, by rintro ⟨⟩,
      fun _ => (by decide : (-1 : Int) ≤ 0), keeps.slots.closeRead.forgetRead,
      by rintro ⟨⟩⟩

lemma terminate_keeps (keeps : Keeps c p s) (reaped : Option Nat) :
    (descriptors.Accepts s (symsanTerminate c reaped).acts ↔
      UsesNothingStale p (.terminate reaped)) ∧
    Keeps (symsanTerminate c reaped).config (p.next (.terminate reaped))
      (descriptors.after s (symsanTerminate c reaped).acts) := by
  by_cases pos : 0 < c.symsanPid
  · have running := keeps.running pos
    have ended : symsanTerminate c reaped = ⟨{ c with symsanPid := -1 },
        [.kill c.symsanPid, .waitpid c.symsanPid reaped, .close c.readFd], 0⟩ := by
      simp only [symsanTerminate, if_pos pos, if_neg (show c.symsanPid ≠ -1 by omega)]
    rw [ended, Phase.next, if_pos running]
    constructor
    · rw [UsesNothingStale, ← keeps.slots.readFits.ok keeps.slots.never]
      exact ⟨fun ok _ => ok.2.2.1, fun ok => ⟨trivial, trivial, ok running, trivial⟩⟩
    · exact ⟨keeps.same, by rintro ⟨⟩,
        fun _ => (by decide : (-1 : Int) ≤ 0), keeps.slots.closeRead,
        by rintro ⟨⟩⟩
  · have stopped := keeps.stopped pos
    have nothing : (symsanTerminate c reaped).config = c ∧
        (symsanTerminate c reaped).acts = [] := by
      simp only [symsanTerminate]
      split
      · exact ⟨rfl, rfl⟩
      · exact ⟨rfl, rfl⟩
    rw [nothing.1, nothing.2, Phase.next, if_neg (by rw [stopped]; decide)]
    refine ⟨iff_of_true trivial fun running => ?_, keeps⟩
    exact absurd (stopped.symm.trans running) (by decide)

lemma terminated_stopped (p : Phase) (reaped : Option Nat) :
    (p.next (.terminate reaped)).running = false := by
  by_cases running : p.running = true
  · simp only [Phase.next, if_pos running]
  · simp only [Phase.next, if_neg running]
    exact Bool.eq_false_iff.mpr running

lemma destroy_keeps (keeps : Keeps c p s) (reaped : Option Nat) :
    (descriptors.Accepts s (step c (.destroy reaped)).2 ↔ UsesNothingStale p (.destroy reaped)) ∧
    Keeps (step c (.destroy reaped)).1 (p.next (.destroy reaped))
      (descriptors.after s (step c (.destroy reaped)).2) := by
  obtain ⟨terminates, keeps'⟩ := terminate_keeps keeps reaped
  obtain ⟨closes, slots⟩ := keeps'.slots.closeBoth
  simp only [step, respond, symsanDestroy]
  rw [accepts_append s (symsanTerminate c reaped).acts,
    after_append s (symsanTerminate c reaped).acts, terminates, closes]
  constructor
  · cases running : p.running with
    | true =>
      -- a held read end has just been closed and is closed again
      have used := keeps.used running
      rw [Phase.next, if_pos running]
      refine iff_of_false ?_ ?_
      · rintro ⟨_, fresh, _⟩
        cases slot : p.readSlot with
        | empty => exact used slot
        | held | stale => exact fresh (by rw [slot]; rfl)
      · rintro ⟨stopped, _⟩
        rw [running] at stopped
        cases stopped
    | false =>
      rw [Phase.next, if_neg (by rw [running]; decide)]
      constructor
      · rintro ⟨_, fresh⟩
        exact ⟨running, fresh⟩
      · rintro ⟨_, fresh⟩
        exact ⟨fun _ => fresh.1, fresh⟩
  · refine ⟨rfl, by rintro ⟨⟩, fun _ => ?_, slots.forgetRead.forgetWrite,
      by rintro ⟨⟩⟩
    exact keeps'.none (terminated_stopped p reaped)

end Calls

lemma descriptors_simulates : Simulates descriptors step Phase.next UsesNothingStale Keeps := by
  constructor
  · intro c p s call keeps
    cases call with
    | run fd o => exact (run_keeps keeps fd o).1
    | readEvent size timeout o => exact (readEvent_keeps keeps size timeout o).1
    | terminate reaped => exact (terminate_keeps keeps reaped).1
    | destroy reaped => exact (destroy_keeps keeps reaped).1
  · intro c p s call keeps _
    cases call with
    | run fd o => exact (run_keeps keeps fd o).2
    | readEvent size timeout o => exact (readEvent_keeps keeps size timeout o).2
    | terminate reaped => exact (terminate_keeps keeps reaped).2
    | destroy reaped => exact (destroy_keeps keeps reaped).2

/-- No descriptor that `pipe` returned is closed twice, or waited for or read after
it was closed, exactly in the runs that use no stale descriptor. -/
theorem descriptors_closed_once_iff (symsanBin labelInfo inputFile argv : Bool)
    (calls : List Call) :
    (∀ before act rest,
      traceOf step (.start symsanBin labelInfo inputFile argv) calls = before ++ act :: rest →
        ∀ fd, Uses act fd → lifeAfter before fd ≠ .closed) ↔
      Obeys Phase.next UsesNothingStale
        (.start (.start symsanBin labelInfo inputFile argv)) calls := by
  have start : Keeps (.start symsanBin labelInfo inputFile argv)
      (.start (.start symsanBin labelInfo inputFile argv)) fun _ => .foreign :=
    ⟨rfl, by rintro ⟨⟩, fun _ => (by decide : (-1 : Int) ≤ 0),
      ⟨rfl, rfl, fun used => absurd rfl used, rfl⟩, by rintro ⟨⟩⟩
  rw [← descriptors_simulates.accepts_iff start calls, Monitor.accepts_iff]
  constructor
  · intro unused before act rest split
    have here := unused before act rest split
    cases act with
    | select fd | read fd | close fd => exact here fd rfl
    | _ => trivial
  · intro ok before act rest split fd uses
    have here := ok before act rest split
    cases act with
    | select fd' | read fd' | close fd' => rw [show fd = fd' from uses]; exact here
    | _ => exact absurd uses id

/-- Two children that are read to the end, and the launcher is given up. -/
theorem descriptors_closed_once_iff_read_out :
    let calls := [starts 100 (by decide), readsEvent, readsEnd 100, starts 101 (by decide),
      readsEnd 101, .destroy none]
    let trace := traceOf step (.start true true true true) calls
    .read 5 ∈ trace ∧ .close 5 ∈ trace ∧
      ∀ before act rest, trace = before ++ act :: rest →
        ∀ fd, Uses act fd → lifeAfter before fd ≠ .closed := by
  intro calls trace
  refine ⟨by decide, by decide, (descriptors_closed_once_iff true true true true calls).mpr ?_⟩
  exact ⟨fun _ _ => by decide, fun _ => by decide, fun _ => by decide, fun _ _ => by decide,
    fun _ => by decide, ⟨rfl, by decide, by decide⟩, trivial⟩

/-- A child is terminated and another one is started: the read end is closed by
`symsan_terminate` and again by `symsan_run`. -/
theorem terminate_run_close_twice :
    let before : List Act := [.pipe (some ⟨5, 6, by decide⟩), .fork (.parent 100 (by decide)),
      .close 6, .kill 100, .waitpid 100 (some 100), .close 5]
    traceOf step (.start true true true true)
      [starts 100 (by decide), .terminate (some 100), starts 101 (by decide)] =
      before ++ .close 5 :: [.pipe (some ⟨5, 6, by decide⟩), .fork (.parent 101 (by decide)),
        .close 6] ∧ lifeAfter before 5 = .closed := by
  decide

/-! ## Children -/

/-- The child whose pid is stored. -/
def child (c : Config) : List Nat := if 0 < c.symsanPid then [c.symsanPid.toNat] else []

/-- `symsan_run` comes to its `fork`. -/
def Forks (c : Config) (fd : Int) (o : RunOutcome) : Prop :=
  0 ≤ fd ∧ ready c = true ∧ o.pipe.isSome = true ∧ o.env = true

/-- A call that forks finds no child, and one that waits for a child gets it. -/
def Alone (c : Config) : Call → Prop
  | .run fd o => Forks c fd o → child c = []
  | .readEvent size timeout o =>
    size ≠ 0 → ¬ o.complete size timeout = true → ∀ pid ∈ child c, o.reaped = some pid
  | .terminate reaped => ∀ pid ∈ child c, reaped = some pid
  | .destroy reaped => ∀ pid ∈ child c, reaped = some pid

/-- A child is forked where there is none. -/
def single : Monitor Act (List Nat) where
  update := children.update
  Ok s
    | .fork (.parent _ _) => s = []
    | _ => True

section Children

variable {reaped : Option Nat} {acts : List Act}

lemma single_after (s : List Nat) : single.after s acts = children.after s acts := rfl

lemma single_of_quiet (quiet : ∀ outcome, Act.fork outcome ∉ acts) (s : List Nat) :
    single.Accepts s acts := by
  induction acts generalizing s with
  | nil => trivial
  | cons act acts ih =>
    refine ⟨?_, ih (fun outcome later => quiet outcome (List.mem_cons_of_mem _ later)) _⟩
    cases act with
    | fork outcome => exact absurd List.mem_cons_self (quiet outcome)
    | _ => trivial

/-- At every point of a trace in order there is at most one child. -/
lemma single_length {before : List Act} (accepted : single.Accepts s before)
    (le : s.length ≤ 1) : (children.after s before).length ≤ 1 := by
  induction before generalizing s with
  | nil => exact le
  | cons act before ih =>
    obtain ⟨here, rest⟩ := accepted
    apply ih rest
    cases act with
    | fork outcome =>
      cases outcome with
      | parent pid pos => simp [single, children, show s = [] from here]
      | failed => exact le
      | child => exact Nat.zero_le 1
    | waitpid pid reaped =>
      cases reaped with
      | none => exact le
      | some child => exact List.length_erase_le.trans le
    | _ => exact le

lemma closeIfSet_quiet (fd : Int) (outcome : Fork) : Act.fork outcome ∉ closeIfSet fd := by
  unfold closeIfSet
  split
  · simp
  · simp

lemma launch_child (alone : o.pipe.isSome = true → o.env = true → child c = []) :
    single.Accepts (child c) (launch c o).2 ∧
      children.after (child c) (launch c o).2 = child (launch c o).1 := by
  obtain ⟨pipe, env, fork⟩ := o
  cases pipe with
  | none => exact ⟨single_of_quiet (by simp [launch]) _, rfl⟩
  | some ends =>
    cases env with
    | false => exact ⟨single_of_quiet (by simp [launch]) _, rfl⟩
    | true =>
      rw [alone rfl rfl]
      cases fork with
      | parent pid pos =>
        exact ⟨⟨trivial, rfl, trivial, trivial⟩, by simp [launch, children, child, pos]⟩
      | failed => exact ⟨⟨trivial, trivial, trivial, trivial, trivial⟩, rfl⟩
      | child => exact ⟨⟨trivial, trivial, trivial, trivial⟩, rfl⟩

lemma wait_child (gets : ∀ pid ∈ child c, reaped = some pid) (pid fd : Int) :
    children.after (child c) [.waitpid pid reaped, .close fd] = [] := by
  by_cases running : 0 < c.symsanPid
  · simp_all [child, children]
  · cases reaped <;> simp [child, running, children]

lemma terminated_child (c : Config) (reaped : Option Nat) :
    child (symsanTerminate c reaped).config = [] := by
  unfold symsanTerminate
  split
  · next stopped => simp [child, stopped]
  · split
    · rfl
    · next none => exact if_neg none

lemma terminate_child (gets : ∀ pid ∈ child c, reaped = some pid) :
    children.after (child c) (symsanTerminate c reaped).acts =
      child (symsanTerminate c reaped).config := by
  rw [terminated_child, symsanTerminate]
  split
  · next stopped => simp [child, stopped]
  · split
    · exact wait_child gets _ _
    · next none => exact if_neg none

lemma terminate_quiet (c : Config) (reaped : Option Nat) (outcome : Fork) :
    Act.fork outcome ∉ (symsanTerminate c reaped).acts := by
  unfold symsanTerminate
  repeat' split
  all_goals simp

/-- A call forks at most where there is no child, and the stored pid stays that of the only one. -/
lemma step_child {call : Call} (alone : Alone c call) :
    single.Accepts (child c) (step c call).2 ∧
      children.after (child c) (step c call).2 = child (step c call).1 := by
  have closes := fun s fd => (children_closeIfSet s fd).2
  cases call with
  | run fd o =>
    by_cases refused : fd < 0 ∨ ready c = false
    · rw [run_refused refused]
      exact ⟨trivial, rfl⟩
    obtain ⟨accepted, after⟩ := @launch_child c o fun pipe env =>
      alone ⟨by omega, by simpa using (not_or.mp refused).2, pipe, env⟩
    have first := single_of_quiet (closeIfSet_quiet c.readFd) (child c)
    have second := single_of_quiet (closeIfSet_quiet c.writeFd) (child c)
    simp only [run_started refused, accepts_append, single_after, after_append, closes]
    exact ⟨⟨⟨first, second⟩, accepted⟩, after⟩
  | readEvent size timeout o =>
    refine ⟨single_of_quiet (fun outcome => ?_) _, ?_⟩
    · simp only [step, respond, symsanReadEvent]
      repeat' split
      all_goals simp
    by_cases zero : size = 0
    · subst zero
      rfl
    by_cases complete : o.complete size timeout = true
    · rw [readEvent_complete zero complete]
      exact (children_poll _ c timeout o).2
    · rw [readEvent_incomplete zero complete, after_append, (children_poll _ c timeout o).2]
      exact wait_child (alone zero complete) _ _
  | terminate reaped =>
    exact ⟨single_of_quiet (terminate_quiet c reaped) _, terminate_child alone⟩
  | destroy reaped =>
    refine ⟨single_of_quiet (fun outcome => ?_) _, ?_⟩
    · simp [step, respond, symsanDestroy, terminate_quiet, closeIfSet_quiet]
    · simp only [step, respond, symsanDestroy, after_append, closes]
      exact terminate_child alone

lemma run_child (calls : List Call) (obeys : Obeys (fun c call => (step c call).1) Alone c calls) :
    single.Accepts (child c) (traceOf step c calls) ∧
      children.after (child c) (traceOf step c calls) =
        child (calls.foldl (fun c call => (step c call).1) c) := by
  induction calls generalizing c with
  | nil => exact ⟨trivial, rfl⟩
  | cons call calls ih =>
    obtain ⟨accepted, held⟩ := step_child obeys.1
    obtain ⟨rest, last⟩ := ih obeys.2
    simp only [traceOf, accepts_append, after_append, List.foldl_cons, single_after, held]
    exact ⟨⟨accepted, rest⟩, last⟩

end Children

/-- If no `symsan_run` forks while a child is running and no wait for a child fails, there is at no
time a second child, and none is left after `symsan_destroy`. -/
theorem children_reaped (symsanBin labelInfo inputFile argv : Bool) (calls : List Call)
    (reaped : Option Nat) (obeys : Obeys (fun c call => (step c call).1) Alone
      (.start symsanBin labelInfo inputFile argv) (calls ++ [.destroy reaped])) :
    let trace := traceOf step (.start symsanBin labelInfo inputFile argv)
      (calls ++ [.destroy reaped])
    (∀ before rest, trace = before ++ rest → (unreaped before).length ≤ 1) ∧
      unreaped trace = [] := by
  obtain ⟨accepted, held⟩ := run_child _ obeys
  refine ⟨fun before rest split => ?_, ?_⟩
  · rw [split, accepts_append] at accepted
    exact single_length accepted.1 (by simp)
  · rw [List.foldl_append] at held
    exact held.trans (terminated_child _ reaped)

/-- Two children, one read to the end and one ended by `symsan_destroy`. -/
theorem children_reaped_two :
    let calls := [starts 100 (by decide), readsEnd 100, starts 101 (by decide)]
    unreaped (traceOf step (.start true true true true) (calls ++ [.destroy (some 101)])) = [] := by
  intro calls
  exact (children_reaped true true true true calls (some 101) ⟨fun _ => rfl, fun _ _ => by decide,
    fun _ => rfl, (by decide : ∀ pid ∈ [101], some 101 = some pid), trivial⟩).2

/-- A second `symsan_run` overwrites the pid of the first child, which nobody waits for. -/
theorem second_run_loses_child : unreaped (traceOf step (.start true true true true)
    [starts 100 (by decide), starts 101 (by decide), .destroy (some 101)]) = [100] := by
  decide

end LauncherProtocol
