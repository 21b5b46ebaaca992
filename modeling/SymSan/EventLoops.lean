import SymSan.FramedStream
import SymSan.TraceHooks

/-!
# The receivers of the event pipe

The read loops of the three drivers. All of them take a header and then decide
on their own whether a payload follows: `fgtest` by the flags in the header, the
AFL++ mutator by the record in the shared label table at the time it looks, the
RL driver by the label alone. A read returns the bytes it asks for while the
stream has them; the rest of the stream, if it is shorter, is the end of file.
The log of a loop holds each header it decodes with the bytes it takes as the
payload and what it does with them; buffers are always allocated. The handlers
that the loops call are taken to return: one that hangs or throws is no matter
of the framing.
-/

namespace EventLoops

open LabelTable TableGrowth PipeMessages TraceHooks FramedStream LittleEndian

variable {m : Message} {msg : PipeMsg} {s : Runtime} {sent : List Message}

inductive Handled where
  | cond
  | gep (g : GepMsg)
  | memcmp (label : BitVec 32) (content : List (BitVec 8))
  | noContent
  | invalid
  | failed
  | incorrect
  | ignored
  deriving DecidableEq, Repr

structure Entry where
  msg : PipeMsg
  taken : List (BitVec 8)
  handled : Handled
  deriving DecidableEq, Repr

/-- A message that is dealt with without a further read. -/
def noPayload (msg : PipeMsg) (handled : Handled) (stream : List (BitVec 8)) :
    Entry × List (BitVec 8) :=
  (⟨msg, [], handled⟩, stream)

variable (doubleCheck : Bool)

/-- Read a `gep_msg`; two drivers double check its label. -/
def readGep (msg : PipeMsg) (stream : List (BitVec 8)) : Entry × List (BitVec 8) :=
  let got := stream.take gepMsgSize
  let gmsg := GepMsg.decode got
  (⟨msg, got,
    if got.length ≠ gepMsgSize then .failed
    else if doubleCheck = true ∧ msg.label ≠ gmsg.indexLabel then .incorrect
    else .gep gmsg⟩, stream.drop gepMsgSize)

/-- Read a `memcmp_msg` of the length in the header and record its content. -/
def readMemcmp (msg : PipeMsg) (stream : List (BitVec 8)) : Entry × List (BitVec 8) :=
  let msgSize := (memcmpMsgSize + msg.result.toNat) % 2 ^ 64
  let got := stream.take msgSize
  (⟨msg, got,
    if got.length ≠ msgSize then .failed
    else if doubleCheck = true ∧ msg.label ≠ .ofNat 32 (read 4 got) then .incorrect
    else .memcmp msg.label (got.drop memcmpMsgSize)⟩, stream.drop msgSize)

/-! ## The loops -/

def fgtestHandle (msg : PipeMsg) (stream : List (BitVec 8)) : Entry × List (BitVec 8) :=
  match MsgType.ofCode msg.msgType with
  | some .cond => noPayload msg .cond stream
  | some .gep => readGep true msg stream
  | some .memcmp =>
    -- flags = 0 means both operands are symbolic
    if msg.flags = 0 then noPayload msg .noContent stream else readMemcmp true msg stream
  | _ => noPayload msg .ignored stream

/-- The loop in `main` of `fgtest`, which goes on after a short header. -/
def fgtest : Receiver (BitVec 8) PipeMsg Entry Unit where
  headerSize := pipeMsgSize
  goesOn := fun n => decide (0 < n)
  decode := PipeMsg.decode
  handle := fun _ _ msg stream => ((), fgtestHandle msg stream)
  leaves := fun _ => false

def aflppHandle (table : Runtime) (msg : PipeMsg) (stream : List (BitVec 8)) :
    Entry × List (BitVec 8) :=
  match MsgType.ofCode msg.msgType with
  | some .cond => noPayload msg .cond stream
  | some .gep => readGep true msg stream
  | some .memcmp =>
    if msg.label = 0 ∨ maxLabel ≤ msg.label.toNat then noPayload msg .invalid stream
    else
      let info := table.info msg.label.toNat
      if info.l1 ≠ 0 ∧ info.l2 ≠ 0 then noPayload msg .noContent stream
      else readMemcmp true msg stream
  | _ => noPayload msg .ignored stream

/-- The loop in `afl_custom_fuzz_count`. `views i` is the shared table when message
`i` is handled; `late i` says that the clock has run out by then, which counts
after 8191 messages. -/
def aflpp (views : Nat → Runtime) (late : Nat → Bool) : Receiver (BitVec 8) PipeMsg Entry Unit where
  headerSize := pipeMsgSize
  goesOn := fun n => decide (n = pipeMsgSize)
  decode := PipeMsg.decode
  handle := fun i _ msg stream => ((), aflppHandle (views i) msg stream)
  leaves := fun i => decide (8192 ≤ (i + 1) % 2 ^ 32) && late i

/-- `adds` says whether the parser makes a task of the message, if it is asked. -/
def rlHandle (reportAll adds newCovSinceTask : Bool) (msg : PipeMsg)
    (stream : List (BitVec 8)) : Bool × Entry × List (BitVec 8) :=
  match MsgType.ofCode msg.msgType with
  | some .cond =>
    if newCovSinceTask then (!adds, noPayload msg .cond stream)
    else (newCovSinceTask, noPayload msg .ignored stream)
  | some .gep =>
    let out := readGep false msg stream
    -- without new coverage the payload is only drained
    if newCovSinceTask then (out.1.handled = .failed || !adds, out)
    else (newCovSinceTask, ⟨msg, out.1.taken, .ignored⟩, out.2)
  | some .memcmp =>
    if msg.label = 0 then (newCovSinceTask, noPayload msg .ignored stream)
    else (newCovSinceTask, readMemcmp false msg stream)
  | some .cover => (newCovSinceTask || !reportAll, noPayload msg .ignored stream)
  | _ => (newCovSinceTask, noPayload msg .ignored stream)

/-- The loop in `run_once` of the RL driver. -/
def rl (reportAll : Bool) (adds : Nat → Bool) : Receiver (BitVec 8) PipeMsg Entry Bool where
  headerSize := pipeMsgSize
  goesOn := fun n => decide (n = pipeMsgSize)
  decode := PipeMsg.decode
  handle := fun i newCovSinceTask msg stream =>
    rlHandle reportAll (adds i) newCovSinceTask msg stream
  leaves := fun _ => false

/-- The bytes of the messages, as they are written to the pipe. -/
def onPipe (messages : List Message) : List (BitVec 8) :=
  written (fun m => m.header.bytes) (fun m => m.payload.bytes) messages

/-! ## Messages that are received as they were sent -/

/-- The entry that a driver should log for a message. -/
def entryOf (m : Message) : Entry where
  msg := m.header
  taken := m.payload.bytes
  handled := match m.payload with
    | .gep g => .gep g
    | .memcmp label data => .memcmp label data
    | .none => match MsgType.ofCode m.header.msgType with
      | some .cond => .cond
      | some .memcmp => .noContent
      | _ => .ignored

lemma readGep_sent {g : GepMsg} (same : g.indexLabel = msg.label) (rest : List (BitVec 8)) :
    readGep doubleCheck msg (g.bytes ++ rest) = (⟨msg, g.bytes, .gep g⟩, rest) := by
  simp [readGep, same]

lemma readMemcmp_sent {data : List (BitVec 8)}
    (length : data.length = msg.result.toNat) (small : msg.result.toNat < 2 ^ 16)
    (rest : List (BitVec 8)) :
    readMemcmp doubleCheck msg (Payload.bytes (.memcmp msg.label data) ++ rest) =
      (⟨msg, Payload.bytes (.memcmp msg.label data), .memcmp msg.label data⟩, rest) := by
  have size : (memcmpMsgSize + msg.result.toNat) % 2 ^ 64 =
      (Payload.bytes (.memcmp msg.label data)).length := by
    simp only [Payload.bytes, List.length_append, length_spell, memcmpMsgSize]
    omega
  have label : BitVec.ofNat 32 (read 4 (Payload.bytes (.memcmp msg.label data))) = msg.label :=
    ofNat_read_spell 32 4 (by decide) msg.label data
  have body : (Payload.bytes (.memcmp msg.label data)).drop memcmpMsgSize = data := by
    exact drop_spell _ _ (Nat.le_refl 4)
  simp only [readMemcmp, size, List.take_left, label, body]
  simp

/-- `fgtest` goes by the flags, which the runtime sets from the record. -/
lemma fgtestHandle_sent (w : Written s m) (rest : List (BitVec 8)) :
    fgtestHandle m.header (m.payload.bytes ++ rest) = (entryOf m, rest) := by
  cases w with
  | @plain h t type notGep notMemcmp =>
    cases t <;> simp_all [fgtestHandle, entryOf, noPayload, Payload.bytes]
  | gep type same =>
    simp only [fgtestHandle, type]
    exact readGep_sent true same rest
  | concrete type label flag side length =>
    simp only [fgtestHandle, type, flag]
    exact readMemcmp_sent true length label.small rest
  | symbolic type label flag sides =>
    simp [fgtestHandle, type, entryOf, flag, noPayload, Payload.bytes]

/-- The AFL++ mutator looks the record up again and finds what the runtime found. -/
lemma aflppHandle_sent (w : Written s m) (rest : List (BitVec 8)) :
    aflppHandle s m.header (m.payload.bytes ++ rest) = (entryOf m, rest) := by
  have valid : ∀ {h : PipeMsg}, Traced s h → ¬ (h.label = 0 ∨ maxLabel ≤ h.label.toNat) := by
    rintro h label (zero | large)
    · exact label.ne_zero zero
    · have below := label.below
      omega
  cases w with
  | @plain h t type notGep notMemcmp =>
    cases t <;> simp_all [aflppHandle, entryOf, noPayload, Payload.bytes]
  | gep type same =>
    simp only [aflppHandle, type]
    exact readGep_sent true same rest
  | concrete type label flag side length =>
    simp only [aflppHandle, type, if_neg (valid label), if_neg side]
    exact readMemcmp_sent true length label.small rest
  | symbolic type label flag sides =>
    simp only [aflppHandle, type, entryOf, if_neg (valid label), if_pos sides]
    rfl

/-! ## Both drivers that check read what was sent -/

lemma fgtest_serves (w : Written s m) (i : Nat) :
    fgtest.Serves id (fun m => m.header.bytes) (fun m => m.payload.bytes) entryOf i m := by
  refine ⟨m.header.length_bytes, ?_⟩
  intro state rest
  simp [fgtest, fgtestHandle_sent w]

lemma aflpp_serves {views : Nat → Runtime} {i : Nat} (w : Written (views i) m)
    (late : Nat → Bool) : (aflpp views late).Serves id (fun m => m.header.bytes)
      (fun m => m.payload.bytes) entryOf i m := by
  refine ⟨m.header.length_bytes, ?_⟩
  intro state rest
  simp [aflpp, aflppHandle_sent w]

/-- Both loops read every event of every run in order, with its own payload and
no byte more, up to the end of the stream; the AFL++ loop may stop between two
events when its clock runs out. -/
theorem loops_read_events (opts : Options) (pipeFd : Int) (instanceId : Nat)
    (probeSite : UndefinedCheck → Nat) (actions : List Action) (views : Nat → Runtime)
    (late : Nat → Bool) (msg : PipeMsg)
    (seen : SeenLater views 0 (stages opts (.start pipeFd instanceId probeSite) actions)) :
    let sent := sentBy (stages opts (.start pipeFd instanceId probeSite) actions)
    fgtest.receive msg.bytes () (onPipe sent) = (sent.map entryOf, []) ∧
    ∃ done rest, sent = done ++ rest ∧
      (aflpp views late).receive msg.bytes () (onPipe sent) = (done.map entryOf, onPipe rest) ∧
      (rest ≠ [] → ∃ k, done.length = k + 1 ∧ 8192 ≤ (k + 1) % 2 ^ 32 ∧ late k = true) := by
  intro sent
  have chain := stages_chain opts (start_stocked pipeFd instanceId probeSite) actions
  have fits : ∀ k m, sent[k]? = some m → Written (views (0 + k)) m := chain.seen seen
  constructor
  · obtain ⟨done, rest, split, log, left, early⟩ := receive_written (d := fgtest) rfl rfl
      msg.length_bytes (fun k m found => fgtest_serves (fits k m found) (0 + k)) ()
    have all : rest = [] := by
      by_contra more
      obtain ⟨k, _, leaves⟩ := early more
      cases leaves
    rw [all, List.append_nil] at split
    rw [all] at left
    rw [List.map_id, ← split] at log
    exact Prod.ext log left
  · obtain ⟨done, rest, split, log, left, early⟩ := receive_written (d := aflpp views late)
      rfl rfl msg.length_bytes (fun k m found => aflpp_serves (fits k m found) late) ()
    rw [List.map_id] at log
    refine ⟨done, rest, split, Prod.ext log left, ?_⟩
    intro more
    obtain ⟨k, length, leaves⟩ := early more
    simp only [aflpp, Bool.and_eq_true, decide_eq_true_eq] at leaves
    exact ⟨k, length, leaves⟩

/-! A run with a comparison of two input bytes, one of an input byte with the
constant 65, an indexed access and a branch. -/

def sampleOptions : Options :=
  { solveUb := false, traceBounds := false, exitOnMemerror := false, asserts := true,
    alwaysReportCoverage := false }

def sampleActions : List Action :=
  [ .call ⟨fun _ => 0, .input 8192 0⟩,
    .call ⟨fun _ => 0, .input 12288 1⟩,
    .memcmp (fun _ => 65) ⟨8192, 12288, 32768, 49152, 1⟩ 4096,
    .memcmp (fun _ => 65) ⟨8192, 16384, 32768, 65536, 1⟩ 4100,
    .gep ⟨0, 20480, 1, 3, 16, 4, 0⟩ 7 4104,
    .cond 1 true 0 8 4108 ]

def sampleRun : List Stage := stages sampleOptions (.start 5 0 fun _ => 0) sampleActions

def sampleView (_ : Nat) : Runtime :=
  (sampleRun.getLast?.map Stage.table).getD (tableOf [] 0)

theorem loops_read_events_comparisons :
    ((sentBy sampleRun).map fun m => (m.header.msgType.toNat, m.payload.bytes.length)) =
      [(2, 0), (2, 5), (1, 48), (0, 0)] ∧
    fgtest.receive (PipeMsg.decode []).bytes () (onPipe (sentBy sampleRun)) =
      ((sentBy sampleRun).map entryOf, []) ∧
    ∃ done rest, sentBy sampleRun = done ++ rest ∧
      (aflpp sampleView fun _ => false).receive (PipeMsg.decode []).bytes ()
        (onPipe (sentBy sampleRun)) = (done.map entryOf, onPipe rest) ∧
      (rest ≠ [] → ∃ k, done.length = k + 1 ∧ 8192 ≤ (k + 1) % 2 ^ 32 ∧ false = true) := by
  refine ⟨by decide +kernel, ?_⟩
  have some : sampleRun ≠ [] := by decide +kernel
  refine loops_read_events sampleOptions 5 0 (fun _ => 0) sampleActions sampleView _ _ ?_
  have seen := seenLater_last sampleRun.dropLast (sampleRun.getLast some) 0
  rw [List.dropLast_append_getLast] at seen
  exact seen

/-! ## The driver that does not check -/

/-- A memory comparison of two symbolic sides. -/
def NoContent (m : Message) : Prop :=
  m.header.msgType = MsgType.memcmp.code ∧ m.payload = .none

/-- Nothing is sent after a comparison without content. -/
def NoContentOnlyLast (sent : List Message) : Prop :=
  ∀ before m after, sent = before ++ m :: after → NoContent m → after = []

lemma noContentOnlyLast_nil : NoContentOnlyLast [] := by
  intro before m after split
  simp at split

lemma noContentOnlyLast_cons :
    NoContentOnlyLast (m :: sent) ↔ (NoContent m → sent = []) ∧ NoContentOnlyLast sent := by
  constructor
  · intro only
    refine ⟨only [] m sent rfl, ?_⟩
    intro before m' after split
    exact only (m :: before) m' after (by rw [split]; rfl)
  rintro ⟨here, only⟩ before m' after split without
  cases before with
  | nil =>
    obtain ⟨rfl, rfl⟩ := List.cons.inj split
    exact here without
  | cons first before =>
    obtain ⟨_, rest⟩ := List.cons.inj split
    exact only before m' after rest without

lemma length_le_onPipe (sent : List Message) : sent.length ≤ (onPipe sent).length := by
  refine length_le_written _ ?_
  simp [pipeMsgSize]

/-- What the log says about the framing. -/
def received (e : Entry) : PipeMsg × List (BitVec 8) := (e.msg, e.taken)

def asSent (m : Message) : PipeMsg × List (BitVec 8) := (m.header, m.payload.bytes)

section RL

variable (reportAll : Bool) (adds : Nat → Bool)

lemma rl_serves (w : Written s m) (content : ¬ NoContent m) (i : Nat) :
    (rl reportAll adds).Serves received (fun m => m.header.bytes)
      (fun m => m.payload.bytes) asSent i m := by
  refine ⟨m.header.length_bytes, ?_⟩
  intro new rest
  simp only [rl, PipeMsg.decode_bytes]
  cases w with
  | @plain h t type notGep notMemcmp =>
    all_goals cases t <;> cases new <;>
      simp_all [rlHandle, noPayload, Payload.bytes, received, asSent]
  | gep type same =>
    simp only [rlHandle, type, MsgType.ofCode_code]
    split
    · exact ⟨_, _, rfl, rfl⟩
    · exact ⟨_, _, rfl, rfl⟩
  | @concrete h data type label flag side length =>
    have nonzero : h.label ≠ 0 := label.ne_zero
    simp only [rlHandle, type, if_neg nonzero, readMemcmp_sent false length label.small]
    exact ⟨_, _, rfl, rfl⟩
  | symbolic type label flag sides => exact absurd ⟨type, rfl⟩ content

/-- The payload of a comparison without content is taken from what follows it. -/
lemma rlHandle_noContent (w : Written s m) (without : NoContent m) (adds new : Bool)
    (rest : List (BitVec 8)) :
    ∃ size handled, 4 ≤ size ∧ rlHandle reportAll adds new m.header rest =
      (new, ⟨m.header, rest.take size, handled⟩, rest.drop size) := by
  cases w with
  | @plain h t type notGep notMemcmp =>
    have same : t.code = MsgType.memcmp.code := type.symm.trans without.1
    have code := congrArg MsgType.ofCode same
    rw [MsgType.ofCode_code, MsgType.ofCode_code, Option.some.injEq] at code
    exact absurd code notMemcmp
  | gep type same | concrete type label flag side length => cases without.2
  | symbolic type label flag sides =>
    have small := label.small
    simp only [rlHandle, type, if_neg label.ne_zero]
    refine ⟨_, _, ?_, rfl⟩
    simp only [memcmpMsgSize]
    omega

/-- The loop is in step exactly as long as nothing follows a comparison without
content: the induction is on the messages, a message with its payload in place
passes the question on to the rest. -/
lemma rl_loop_iff (fits : ∀ m ∈ sent, ∃ s, Written s m) (fuel : Nat) (enough : sent.length ≤ fuel)
    {buffer : List (BitVec 8)} (full : buffer.length = pipeMsgSize) (i : Nat) (new : Bool) :
    (((rl reportAll adds).loop fuel i buffer new (onPipe sent)).1.map received =
        sent.map asSent ∧ ((rl reportAll adds).loop fuel i buffer new (onPipe sent)).2 = []) ↔
      NoContentOnlyLast sent := by
  induction sent generalizing fuel i buffer new with
  | nil =>
    have ended := loop_nil (d := rl reportAll adds) rfl fuel i buffer new
    refine iff_of_true ?_ noContentOnlyLast_nil
    simp [onPipe, written, ended]
  | cons m sent ih =>
    obtain ⟨fuel, rfl⟩ : ∃ k, fuel = k + 1 := ⟨fuel - 1, by simp at enough; omega⟩
    obtain ⟨s, w⟩ := fits m List.mem_cons_self
    have rest := fun new' => ih (fun m' mem => fits m' (List.mem_cons_of_mem _ mem)) fuel
      (by simpa using enough) m.header.length_bytes (i + 1) new'
    rw [noContentOnlyLast_cons]
    by_cases without : NoContent m
    · obtain ⟨size, handled, _, handle⟩ :=
        rlHandle_noContent reportAll w without (adds i) new (onPipe sent)
      have decoded : (rl reportAll adds).handle i new
          ((rl reportAll adds).decode m.header.bytes) (onPipe sent) =
          (new, ⟨m.header, (onPipe sent).take size, handled⟩, (onPipe sent).drop size) := by
        simp [rl, handle]
      have here := loop_header (d := rl reportAll adds) rfl full m.header.length_bytes fuel i new
        (onPipe sent)
      rw [decoded] at here
      rw [show onPipe (m :: sent) = m.header.bytes ++ onPipe sent by
        simp [onPipe, without.2, Payload.bytes], here]
      constructor
      · rintro ⟨log, _⟩
        have taken : (onPipe sent).take size = [] := by
          have first := (List.cons.inj log).1
          rw [asSent, without.2] at first
          exact (Prod.mk.inj first).2
        have nothing : onPipe sent = [] := by
          rcases List.take_eq_nil_iff.mp taken with none | nothing
          · omega
          · exact nothing
        have le := length_le_onPipe sent
        rw [nothing, List.length_nil, Nat.le_zero, List.length_eq_zero_iff] at le
        subst le
        exact ⟨fun _ => rfl, noContentOnlyLast_nil⟩
      · rintro ⟨last, _⟩
        have ended := loop_nil (d := rl reportAll adds) rfl fuel (i + 1) m.header.bytes new
        rw [last without]
        have nothing : onPipe [] = [] := rfl
        simp only [nothing, List.take_nil, List.drop_nil, ended]
        constructor
        · simp [received, asSent, without.2, Payload.bytes]
        · simp
    · obtain ⟨new', e, seen, step⟩ := loop_step (d := rl reportAll adds) rfl full
        (rl_serves reportAll adds w without i) fuel new (onPipe sent)
      rw [show (rl reportAll adds).loop (fuel + 1) i buffer new (onPipe (m :: sent)) = _ from step,
        if_neg (show ¬ (rl reportAll adds).leaves i = true from Bool.false_ne_true), ← rest new']
      simp only [List.map_cons, seen, List.cons.injEq, true_and]
      constructor
      · intro same
        exact ⟨fun no => absurd no without, same⟩
      · intro same
        exact same.2

/-- The RL driver takes exactly the bytes of each message if and only if no event
follows a comparison of two symbolic sides. -/
theorem rl_reads_events_iff (opts : Options) (pipeFd : Int) (instanceId : Nat)
    (probeSite : UndefinedCheck → Nat) (actions : List Action) (msg : PipeMsg) :
    let sent := sentBy (stages opts (.start pipeFd instanceId probeSite) actions)
    let out := (rl reportAll adds).receive msg.bytes true (onPipe sent)
    (out.1.map received = sent.map asSent ∧ out.2 = []) ↔ NoContentOnlyLast sent := by
  intro sent out
  have chain := stages_chain opts (start_stocked pipeFd instanceId probeSite) actions
  have enough : sent.length ≤ (onPipe sent).length + 1 := Nat.le_succ_of_le (length_le_onPipe sent)
  exact rl_loop_iff reportAll adds chain.fits _ enough msg.length_bytes 0 true

end RL

/-- The comparison with a constant and the branch come first, the comparison of two
input bytes last. -/
theorem rl_reads_events_iff_last :
    let sent := sentBy (stages sampleOptions (.start 5 0 fun _ => 0)
      [.call ⟨fun _ => 0, .input 8192 0⟩, .call ⟨fun _ => 0, .input 12288 1⟩,
        .memcmp (fun _ => 65) ⟨8192, 16384, 32768, 65536, 1⟩ 4100, .cond 1 true 0 8 4108,
        .memcmp (fun _ => 65) ⟨8192, 12288, 32768, 49152, 1⟩ 4096])
    let out := (rl false fun _ => false).receive (PipeMsg.decode []).bytes true (onPipe sent)
    (sent.map fun m => (m.header.msgType.toNat, m.payload.bytes.length)) =
      [(2, 5), (0, 0), (2, 0)] ∧
      (out.1.map received = sent.map asSent ∧ out.2 = []) ∧ NoContentOnlyLast sent := by
  intro sent out
  have inStep : out.1.map received = sent.map asSent ∧ out.2 = [] := by decide +kernel
  refine ⟨by decide +kernel, inStep, ?_⟩
  exact (rl_reads_events_iff false (fun _ => false) sampleOptions 5 0 (fun _ => 0) _ _).mp inStep

/-- A comparison of two input bytes followed by a branch: the driver takes five
bytes of the branch's header for content and never sees the branch. -/
theorem rl_swallows_header :
    let sent := sentBy (stages sampleOptions (.start 5 0 fun _ => 0)
      [.call ⟨fun _ => 0, .input 8192 0⟩, .call ⟨fun _ => 0, .input 12288 1⟩,
        .memcmp (fun _ => 65) ⟨8192, 12288, 32768, 49152, 1⟩ 4096, .cond 1 true 0 8 4108])
    let out := (rl false fun _ => false).receive (PipeMsg.decode []).bytes true (onPipe sent)
    (sent.map fun m => (m.header.msgType.toNat, m.payload.bytes.length)) = [(2, 0), (0, 0)] ∧
      (out.1.map fun e => (e.msg.msgType.toNat, e.taken.length)) = [(2, 5)] ∧
      out.1.map received ≠ sent.map asSent := by
  decide +kernel

end EventLoops
