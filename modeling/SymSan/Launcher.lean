import Mathlib.Algebra.Order.Ring.Nat
import Mathlib.Data.List.Basic

/-!
# The launcher

The library that drivers use to start a traced process and to read its events:
`symsan_run`, `symsan_read_event`, `symsan_terminate` and `symsan_destroy` over
the global configuration. What the operating system answers is part of each
call, so every outcome is covered; the system calls that concern children and
pipes are listed in the order in which they are made. The configuration keeps
the fields that these calls test. A driver goes on in the child process when
`execv` fails there; the redirection of the standard streams before that, the
shared memory and the strings of the configuration are left out.
-/

namespace Launcher

/-- The two descriptors that `pipe` returns. -/
structure PipeEnds where
  readEnd : Nat
  writeEnd : Nat
  distinct : readEnd ≠ writeEnd
  deriving DecidableEq

/-- `fork` as its caller sees it; `child` is the return in the child process
when `execv` has failed. -/
inductive Fork where
  | parent (pid : Nat) (pos : 0 < pid)
  | failed
  | child
  deriving DecidableEq

/-- System calls. `waitpid` comes with the child it reaps, if any. -/
inductive Act where
  | pipe (ends : Option PipeEnds)
  | fork (outcome : Fork)
  | kill (pid : Int)
  | waitpid (pid : Int) (reaped : Option Nat)
  | select (fd : Int)
  | read (fd : Int)
  | close (fd : Int)
  deriving DecidableEq

/-- `symsan_config`; the first four fields say whether a pointer is set. -/
structure Config where
  symsanBin : Bool
  labelInfo : Bool
  inputFile : Bool
  argv : Bool
  readFd : Int
  writeFd : Int
  symsanPid : Int
  deriving DecidableEq

/-- After `symsan_init` and whatever setters have been called. -/
def Config.start (symsanBin labelInfo inputFile argv : Bool) : Config :=
  ⟨symsanBin, labelInfo, inputFile, argv, -1, -1, -1⟩

structure Reply where
  config : Config
  acts : List Act
  ret : Int

def closeIfSet (fd : Int) : List Act := if fd ≠ -1 then [.close fd] else []

structure RunOutcome where
  pipe : Option PipeEnds
  env : Bool
  fork : Fork

variable (c : Config)

/-- `symsan_run`. The descriptors of an earlier run are closed and stay in the
configuration until `pipe` overwrites them. -/
def symsanRun (fd : Int) (o : RunOutcome) : Reply :=
  if fd < 0 then ⟨c, [], 1⟩ -- SYMSAN_INVALID_ARGS
  else if c.symsanBin = false then ⟨c, [], 3⟩ -- SYMSAN_MISSING_BIN
  else if c.labelInfo = false then ⟨c, [], 4⟩ -- SYMSAN_MISSING_SHM
  else if c.inputFile = false then ⟨c, [], 5⟩ -- SYMSAN_MISSING_INPUT
  else if c.argv = false then ⟨c, [], 6⟩ -- SYMSAN_MISSING_ARGS
  else
    let closes := closeIfSet c.readFd ++ closeIfSet c.writeFd
    match o.pipe with
    | none => ⟨c, closes ++ [.pipe none], 2⟩ -- SYMSAN_NO_MEMORY
    | some ends =>
      let c := { c with readFd := ends.readEnd, writeFd := ends.writeEnd }
      let acts := closes ++ [.pipe (some ends)]
      if o.env = false then ⟨c, acts, 2⟩
      else match o.fork with
        | .parent pid pos =>
          ⟨{ c with symsanPid := pid, writeFd := -1 },
            acts ++ [.fork (.parent pid pos), .close ends.writeEnd], 0⟩
        | .failed =>
          ⟨{ c with symsanPid := -1 },
            acts ++ [.fork .failed, .close ends.readEnd, .close ends.writeEnd], -1⟩
        | .child => ⟨{ c with symsanPid := 0 }, acts ++ [.fork .child, .close ends.readEnd], -1⟩

structure ReadOutcome where
  select : Int
  read : Int
  reaped : Option Nat

/-- The count that a read of the pipe returns: -1 when the wait for it fails. -/
def ReadOutcome.count (o : ReadOutcome) (timeout : Nat) : Int :=
  if timeout = 0 ∨ 0 < o.select then o.read else -1

/-- `n == size`, in 64 bits -/
def ReadOutcome.complete (o : ReadOutcome) (size timeout : Nat) : Bool :=
  o.count timeout % 2 ^ 64 = size

def symsanReadEvent (size timeout : Nat) (o : ReadOutcome) : Reply :=
  if size = 0 then ⟨c, [], 0⟩
  else
    let waits : List Act := if timeout = 0 then [] else [.select c.readFd]
    let acts := waits ++
      [if timeout = 0 ∨ 0 < o.select then .read c.readFd else .kill c.symsanPid]
    if o.complete size timeout then ⟨c, acts, o.count timeout⟩
    else
      ⟨{ c with symsanPid := -1, readFd := -1 },
        acts ++ [.waitpid c.symsanPid o.reaped, .close c.readFd], o.count timeout⟩

def symsanTerminate (reaped : Option Nat) : Reply :=
  if c.symsanPid = -1 then ⟨c, [], 0⟩
  else if 0 < c.symsanPid then
    ⟨{ c with symsanPid := -1 },
      [.kill c.symsanPid, .waitpid c.symsanPid reaped, .close c.readFd], 0⟩
  else ⟨c, [], -1⟩

/-- `symsan_destroy`, which returns nothing. -/
def symsanDestroy (reaped : Option Nat) : Reply :=
  let ended := symsanTerminate c reaped
  let c := ended.config
  ⟨⟨false, false, false, false, -1, -1, c.symsanPid⟩,
    ended.acts ++ (closeIfSet c.readFd ++ closeIfSet c.writeFd), 0⟩

/-- A call of the driver with the answers of the operating system. -/
inductive Call where
  | run (fd : Int) (o : RunOutcome)
  | readEvent (size timeout : Nat) (o : ReadOutcome)
  | terminate (reaped : Option Nat)
  | destroy (reaped : Option Nat)

def respond : Call → Reply
  | .run fd o => symsanRun c fd o
  | .readEvent size timeout o => symsanReadEvent c size timeout o
  | .terminate reaped => symsanTerminate c reaped
  | .destroy reaped => symsanDestroy c reaped

def step (call : Call) : Config × List Act :=
  ((respond c call).config, (respond c call).acts)

end Launcher
