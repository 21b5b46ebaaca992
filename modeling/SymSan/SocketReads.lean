import SymSan.InputLabels

/-!
# Bytes from the network

The wrappers of `recv`, `recvfrom`, `recvmsg` and `recvmmsg` label the bytes from the
tainted socket with the offset that the runtime has counted so far. Whether a descriptor
is tainted is decided by `taint_get_socket`, which lets every descriptor pass under
`force_stdin`; the offset is advanced by `taint_update_socket_offset`, which does not. As
long as the tainted descriptor is the connected one, the delivered bytes are numbered
from 0 without a gap.

The comparison of addresses in `taint_set_socket` is part of a call of `connect`, and so is
the length of the string that `recv` finds in the buffer afterwards. Checks of bounds come
before the reads and are other steps of the runtime.
-/

namespace SocketReads

open LabelTable TableGrowth RuntimeOps InputLabels
open List (append_nil length_append length_range' map_congr_left map_map)

/-! ## The socket -/

/-- `struct taint_socket` without the address. -/
structure TaintSocket where
  fd : Int
  offset : Nat

/-- `taint_set_socket`, given whether the address is that of the option. -/
def taintSetSocket (s : TaintSocket) (isTaintHost : Bool) (fd : Int) : TaintSocket :=
  if isTaintHost then { s with fd := fd } else s

variable (forceStdin : Bool)

/-- `taint_get_socket`; -1 is none. -/
def taintGetSocket (s : TaintSocket) (fd : Int) : Option Nat :=
  if s.fd = fd then some s.offset
  else if forceStdin then some s.offset
  else none

def taintUpdateSocketOffset (s : TaintSocket) (fd : Int) (size : Nat) : TaintSocket :=
  if s.fd = fd then { s with offset := s.offset + size } else s

structure Range where
  addr : Nat
  size : Nat

structure State where
  machine : Machine
  socket : TaintSocket

/-- Memory that the call writes without input bytes. -/
def State.clear (st : State) (r : Range) : State :=
  ⟨Machine.setLabel st.machine 0 r.addr r.size, st.socket⟩

def State.clearAll (st : State) (r : Option Range) : State := (r.map st.clear).getD st

/-! ## The wrappers -/

/-- Label the bytes of one buffer, or clear their labels; the labels and the state. -/
def deliver (st : State) (fd : Int) (offset : Option Nat) (buf : Range) :
    Option (List Nat × State) :=
  match offset with
  | some offset => (createLabels st.machine offset buf.addr buf.size).map fun r =>
      (r.1, ⟨r.2, taintUpdateSocketOffset st.socket fd buf.size⟩)
  | none => some ([], st.clear buf)

/-- The result of `recv`, or the length of the string in the buffer if the result is 0. -/
def readed (ret : Option Nat) (text : Nat) : Option Nat :=
  if ret = some 0 ∧ 0 < text then some text else ret

def dfswRecv (st : State) (fd : Int) (buf : Nat) (ret : Option Nat)
    (text : Nat) : Option (List Nat × State) :=
  match readed ret text with
  | none | some 0 => some ([], st)
  | some n => deliver st fd (taintGetSocket forceStdin st.socket fd) ⟨buf, n⟩

def dfswRecvfrom (st : State) (fd : Int) (buf : Nat) (ret : Option Nat)
    (text : Nat) (srcAddr : Option Range) : Option (List Nat × State) :=
  (dfswRecv forceStdin st fd buf ret text).map fun r => (r.1, r.2.clearAll srcAddr)

/-- `struct msghdr` -/
structure Message where
  name : Option Range
  control : Option Range
  iov : List Range

/-- The loop of `taint_handle_msg` over the buffers. The assertion fails if there are more
bytes than the buffers hold. -/
def handleIov (fd : Int) (offset : Option Nat) : List Range → Nat → State →
    Option (List Nat × State)
  | [], remaining, st => if remaining = 0 then some ([], st) else none
  | v :: iov, remaining, st =>
    if remaining = 0 then some ([], st)
    else
      let written := min remaining v.size
      (deliver st fd offset ⟨v.addr, written⟩).bind fun r =>
      (handleIov fd (offset.map (· + written)) iov (remaining - written) r.2).map fun rest =>
        (r.1 ++ rest.1, rest.2)

def taintHandleMsg (st : State) (fd : Int) (msg : Message) (len : Nat) :
    Option (List Nat × State) :=
  handleIov fd (taintGetSocket forceStdin st.socket fd) msg.iov len
    ((st.clearAll msg.name).clearAll msg.control)

def dfswRecvmsg (st : State) (fd : Int) (msg : Message)
    (ret : Option Nat) : Option (List Nat × State) :=
  match ret with
  | none => some ([], st)
  | some len => taintHandleMsg forceStdin st fd msg len

/-- A message of `recvmmsg`: its header, the length and where the length is written. -/
structure Received where
  msg : Message
  len : Nat
  lenField : Range

def dfswRecvmmsg (forceStdin : Bool) (fd : Int) : State → List Received → Option (List Nat × State)
  | st, [] => some ([], st)
  | st, r :: received =>
    (taintHandleMsg forceStdin (st.clear r.lenField) fd r.msg r.len).bind fun first =>
    (dfswRecvmmsg forceStdin fd first.2 received).map fun rest =>
      (first.1 ++ rest.1, rest.2)

/-! ## Calls -/

inductive Call where
  | recv (fd : Int) (buf : Range) (ret : Option Nat) (text : Nat)
  | recvfrom (fd : Int) (buf : Range) (ret : Option Nat) (text : Nat) (srcAddr : Option Range)
  | recvmsg (fd : Int) (msg : Message) (ret : Option Nat)
  | recvmmsg (fd : Int) (received : List Received)

def Call.fd : Call → Int
  | .recv fd _ _ _ => fd
  | .recvfrom fd _ _ _ _ => fd
  | .recvmsg fd _ _ => fd
  | .recvmmsg fd _ => fd

/-- The labels that the wrapper gives in the order of the bytes, and the state. -/
def Call.exec (st : State) : Call → Option (List Nat × State)
  | .recv fd buf ret text => dfswRecv forceStdin st fd buf.addr ret text
  | .recvfrom fd buf ret text srcAddr =>
    dfswRecvfrom forceStdin st fd buf.addr ret text srcAddr
  | .recvmsg fd msg ret => dfswRecvmsg forceStdin st fd msg ret
  | .recvmmsg fd received => dfswRecvmmsg forceStdin fd st received

/-- The bytes that the call delivers. A datagram that does not fit can be reported with its
full length. -/
def Call.delivered : Call → Nat
  | .recv _ buf ret _ => min (ret.getD 0) buf.size
  | .recvfrom _ buf ret _ _ => min (ret.getD 0) buf.size
  | .recvmsg _ _ ret => ret.getD 0
  | .recvmmsg _ received => (received.map (·.len)).sum

/-- The result is the number of delivered bytes, and no string is taken for input. -/
def Exact (buf : Range) (ret : Option Nat) (text : Nat) : Prop :=
  ret.getD 0 ≤ buf.size ∧ (ret = some 0 → text = 0)

def Call.Exact : Call → Prop
  | .recv _ buf ret text => SocketReads.Exact buf ret text
  | .recvfrom _ buf ret text _ => SocketReads.Exact buf ret text
  | .recvmsg _ _ _ => True
  | .recvmmsg _ _ => True

/-- Runs from the start of the runtime, with the labels of the bytes that tainted sockets
have delivered. Every call satisfies `P` in its state. -/
inductive Run (forceStdin : Bool) (P : State → Call → Prop) : State → List Nat → Prop where
  | start (m : Machine) (top : m.table.stackTop ≤ kInitializingLabel)
      (room : m.table.last < m.table.stackTop) : Run forceStdin P ⟨m, ⟨-1, 0⟩⟩ []
  | connect {st : State} {labels : List Nat} (before : Run forceStdin P st labels)
      (fd : Int) (isTaintHost : Bool) :
      Run forceStdin P ⟨st.machine, taintSetSocket st.socket isTaintHost fd⟩ labels
  | other {st : State} {labels : List Nat} (before : Run forceStdin P st labels) (m : Machine)
      (grows : Extends st.machine.table m.table)
      (room : m.table.last < m.table.stackTop) :
      Run forceStdin P ⟨m, st.socket⟩ labels
  | call {st st' : State} {labels new : List Nat} (before : Run forceStdin P st labels)
      (c : Call) (holds : P st c) (h : c.exec forceStdin st = some (new, st')) :
      Run forceStdin P st' (labels ++ new.take c.delivered)

/-- The descriptor that is treated as tainted is the one whose offset is counted. -/
def Counted (st : State) (c : Call) : Prop :=
  forceStdin = false ∨ st.socket.fd = c.fd

/-! ## The numbering -/

/-- The delivered bytes are numbered from 0, and the next number is the offset. -/
structure Numbered (st : State) (labels : List Nat) : Prop where
  offset : st.socket.offset = labels.length
  known : ∀ l, l ∈ labels → l ≤ st.machine.table.last
  records : labels.map st.machine.table.info = (List.range labels.length).map inputRecord
  count : labels.length ≤ st.machine.table.last
  top : st.machine.table.stackTop ≤ kInitializingLabel
  room : st.machine.table.last < st.machine.table.stackTop

section Numbering

variable {st st' : State} {labels new : List Nat} {fd : Int} {iov : List Range} {remaining : Nat}

section

variable (numbered : Numbered st labels)

include numbered

lemma Numbered.grow {m : Machine} {s : TaintSocket} (grows : Extends st.machine.table m.table)
    (room : m.table.last < m.table.stackTop) (same : s.offset = st.socket.offset) :
    Numbered ⟨m, s⟩ labels := by
  have last := grows.last
  have top := grows.stackTop
  refine ⟨same.trans numbered.offset, ?_, ?_, ?_, ?_, room⟩
  · intro l inside
    have known := numbered.known l inside
    dsimp only
    omega
  · rw [← numbered.records]
    apply map_congr_left
    intro l inside
    exact grows.same l (.inl (numbered.known l inside))
  · have count := numbered.count
    dsimp only
    omega
  · have bound := numbered.top
    dsimp only
    omega

lemma Numbered.clear (r : Range) : Numbered (st.clear r) labels :=
  ⟨numbered.offset, numbered.known, numbered.records, numbered.count, numbered.top, numbered.room⟩

lemma Numbered.clearAll (r : Option Range) : Numbered (st.clearAll r) labels := by
  cases r with
  | none => exact numbered
  | some r => exact numbered.clear r

lemma deliver_numbered {n buf : Nat} (same : st.socket.fd = fd)
    (h : deliver st fd (some st.socket.offset) ⟨buf, n⟩ = some (new, st')) :
    Numbered st' (labels ++ new) ∧ new.length = n ∧ st'.socket.fd = fd ∧
      st'.socket.offset = st.socket.offset + n := by
  obtain ⟨⟨_, m⟩, create, equal⟩ := Option.map_eq_some_iff.mp h
  obtain ⟨rfl, rfl⟩ := equal
  dsimp only at create
  obtain ⟨rfl, created⟩ := createLabels_created create
  have offset := numbered.offset
  have last := created.table.last
  have update : taintUpdateSocketOffset st.socket fd n =
      ⟨st.socket.fd, st.socket.offset + n⟩ := by
    rw [taintUpdateSocketOffset, if_pos same]
  rw [update]
  have top := created.table.extends_.stackTop
  have bound := numbered.top
  have room := numbered.room
  refine ⟨⟨?_, ?_, ?_, ?_, ?_, ?_⟩, length_range', same, rfl⟩
  · simp only [length_append, length_range']
    omega
  · intro l inside
    dsimp only
    rcases List.mem_append.mp inside with old | fresh
    · have known := numbered.known l old
      omega
    · have range := List.mem_range'_1.mp fresh
      omega
  · have old : labels.map m.table.info = labels.map st.machine.table.info := by
      apply map_congr_left
      intro l inside
      exact created.table.extends_.same l (.inl (numbered.known l inside))
    have fresh : (List.range' (st.machine.table.last + 1) n).map m.table.info =
        (List.range' labels.length n).map inputRecord := by
      rw [List.range'_eq_map_range, List.range'_eq_map_range, map_map, map_map]
      apply map_congr_left
      intro i inside
      have record := created.table.records i (List.mem_range.mp inside)
      rw [offset] at record
      exact record
    rw [List.map_append, old, fresh, numbered.records, length_append, length_range',
      List.range_add, List.map_append, List.range'_eq_map_range]
  · simp only [length_append, length_range']
    have count := numbered.count
    omega
  · dsimp only
    omega
  · dsimp only
    by_cases some : 0 < n
    · exact created.table.room some
    · omega

lemma handleIov_numbered (same : st.socket.fd = fd)
    (h : handleIov fd (some st.socket.offset) iov remaining st = some (new, st')) :
    Numbered st' (labels ++ new) ∧ new.length = remaining ∧ st'.socket.fd = fd := by
  induction iov generalizing st labels new remaining with
  | nil =>
    obtain ⟨zero, h⟩ := Option.ite_none_right_eq_some.mp h
    cases h
    rw [append_nil]
    exact ⟨numbered, zero.symm, same⟩
  | cons v iov ih =>
    simp only [handleIov] at h
    split at h
    next zero =>
      cases h
      rw [append_nil]
      exact ⟨numbered, zero.symm, same⟩
    · obtain ⟨⟨_, _⟩, delivered, h⟩ := Option.bind_eq_some_iff.mp h
      obtain ⟨⟨_, _⟩, later, equal⟩ := Option.map_eq_some_iff.mp h
      simp only [Prod.mk.injEq] at equal
      obtain ⟨rfl, rfl⟩ := equal
      obtain ⟨next, _, same1, offset⟩ := deliver_numbered numbered same delivered
      simp only [Option.map_some, ← offset] at later
      obtain ⟨last, _, same2⟩ := ih next same1 later
      rw [← List.append_assoc]
      refine ⟨last, ?_, same2⟩
      rw [length_append]
      omega

lemma handleIov_other (h : handleIov fd none iov remaining st = some (new, st')) :
    Numbered st' labels ∧ new = [] ∧ st'.socket = st.socket := by
  induction iov generalizing st new remaining with
  | nil =>
    obtain ⟨-, h⟩ := Option.ite_none_right_eq_some.mp h
    cases h
    exact ⟨numbered, rfl, rfl⟩
  | cons v iov ih =>
    simp only [handleIov] at h
    split at h
    · cases h
      exact ⟨numbered, rfl, rfl⟩
    · obtain ⟨⟨_, _⟩, later, equal⟩ := Option.map_eq_some_iff.mp h
      obtain ⟨rfl, rfl⟩ := equal
      obtain ⟨last, rfl, same⟩ := ih (numbered.clear _) later
      exact ⟨last, rfl, same⟩

end

/-- The labels of a wrapper continue the numbering: there is one for each of `n` bytes of
the tainted socket, and none for another descriptor. -/
structure Continues (fd : Int) (st st' : State) (labels new : List Nat) (n : Nat) : Prop where
  numbered : Numbered st' (labels ++ new)
  length : new.length = if st.socket.fd = fd then n else 0
  fd : st'.socket.fd = st.socket.fd

lemma Numbered.idle (numbered : Numbered st labels) : Continues fd st st labels [] 0 := by
  refine ⟨?_, ?_, rfl⟩
  · rw [append_nil]
    exact numbered
  · rw [ite_self]
    rfl

variable {forceStdin : Bool}

lemma taintGetSocket_counted (counted : forceStdin = false ∨ st.socket.fd = fd) :
    (st.socket.fd = fd ∧ taintGetSocket forceStdin st.socket fd = some st.socket.offset) ∨
      (st.socket.fd ≠ fd ∧ taintGetSocket forceStdin st.socket fd = none) := by
  by_cases same : st.socket.fd = fd
  · exact .inl ⟨same, if_pos same⟩
  · have off : forceStdin = false := counted.resolve_right same
    refine .inr ⟨same, ?_⟩
    rw [taintGetSocket, if_neg same, off]
    rfl

lemma clearAll_socket (st : State) (r : Option Range) : (st.clearAll r).socket = st.socket := by
  cases r <;> rfl

section

variable (numbered : Numbered st labels) (counted : forceStdin = false ∨ st.socket.fd = fd)

include numbered counted

lemma dfswRecv_continues {buf : Range} {ret : Option Nat} {text : Nat}
    (exact : Exact buf ret text)
    (h : dfswRecv forceStdin st fd buf.addr ret text = some (new, st')) :
    Continues fd st st' labels new (min (ret.getD 0) buf.size) := by
  obtain ⟨fits, quiet⟩ := exact
  have same : readed ret text = ret := by
    rw [readed, if_neg]
    rintro ⟨zero, some⟩
    have none := quiet zero
    omega
  simp only [dfswRecv, same] at h
  split at h
  · cases h
    exact numbered.idle
  · cases h
    exact numbered.idle
  rw [Option.getD_some] at fits ⊢
  rw [Nat.min_eq_left fits]
  rcases taintGetSocket_counted counted with ⟨tainted, offset⟩ | ⟨other, clean⟩
  · rw [offset] at h
    obtain ⟨next, length, after, -⟩ := deliver_numbered numbered tainted h
    exact ⟨next, by rw [length, if_pos tainted], after.trans tainted.symm⟩
  rw [clean] at h
  cases h
  refine ⟨?_, by rw [if_neg other]; rfl, rfl⟩
  rw [append_nil]
  exact numbered.clear _

lemma taintHandleMsg_continues {msg : Message} {len : Nat}
    (h : taintHandleMsg forceStdin st fd msg len = some (new, st')) :
    Continues fd st st' labels new len := by
  have cleared := (numbered.clearAll msg.name).clearAll msg.control
  have socket : ((st.clearAll msg.name).clearAll msg.control).socket = st.socket := by
    rw [clearAll_socket, clearAll_socket]
  simp only [taintHandleMsg] at h
  rcases taintGetSocket_counted counted with ⟨tainted, offset⟩ | ⟨other, clean⟩
  · rw [offset, ← socket] at h
    obtain ⟨next, length, after⟩ := handleIov_numbered cleared (by rw [socket, tainted]) h
    exact ⟨next, by rw [length, if_pos tainted], after.trans tainted.symm⟩
  rw [clean] at h
  obtain ⟨next, rfl, after⟩ := handleIov_other cleared h
  refine ⟨?_, by rw [if_neg other]; rfl, by rw [after, socket]⟩
  rw [append_nil]
  exact next

lemma dfswRecvmmsg_continues {received : List Received}
    (h : dfswRecvmmsg forceStdin fd st received = some (new, st')) :
    Continues fd st st' labels new (received.map (·.len)).sum := by
  induction received generalizing st labels new with
  | nil =>
    cases h
    exact numbered.idle
  | cons r received ih =>
    obtain ⟨⟨first, st1⟩, handled, h⟩ := Option.bind_eq_some_iff.mp h
    obtain ⟨⟨_, _⟩, later, equal⟩ := Option.map_eq_some_iff.mp h
    obtain ⟨rfl, rfl⟩ := equal
    have here := taintHandleMsg_continues (numbered.clear r.lenField) counted handled
    have same : st1.socket.fd = st.socket.fd := here.fd
    have next := ih here.numbered (by rw [same]; exact counted) later
    have length : first.length = if st.socket.fd = fd then r.len else 0 := here.length
    have length' := next.length
    refine ⟨?_, ?_, next.fd.trans same⟩
    · rw [← List.append_assoc]
      exact next.numbered
    · rw [length_append, length, length', same, List.map_cons, List.sum_cons]
      by_cases tainted : st.socket.fd = fd
      · simp only [if_pos tainted]
      · simp only [if_neg tainted]

end

lemma Call.exec_continues {c : Call} (numbered : Numbered st labels)
    (counted : Counted forceStdin st c) (exact : c.Exact)
    (h : c.exec forceStdin st = some (new, st')) :
    Continues c.fd st st' labels new c.delivered := by
  cases c with
  | recv fd buf ret text => exact dfswRecv_continues numbered counted exact h
  | recvfrom fd buf ret text srcAddr =>
    obtain ⟨⟨_, _⟩, received, equal⟩ := Option.map_eq_some_iff.mp h
    obtain ⟨rfl, rfl⟩ := equal
    obtain ⟨next, length, same⟩ := dfswRecv_continues numbered counted exact received
    exact ⟨next.clearAll srcAddr, length, by rw [clearAll_socket, same]⟩
  | recvmsg fd msg ret =>
    cases ret with
    | none =>
      cases h
      exact numbered.idle
    | some len => exact taintHandleMsg_continues numbered counted h
  | recvmmsg fd received => exact dfswRecvmmsg_continues numbered counted h

/-- Every step of a run keeps the numbering. -/
lemma Run.numbered
    (run : Run forceStdin (fun st c => Counted forceStdin st c ∧ c.Exact) st labels) :
    Numbered st labels := by
  induction run with
  | start m top room => exact ⟨rfl, nofun, rfl, Nat.zero_le _, top, room⟩
  | @connect st labels before fd isTaintHost ih =>
    refine ih.grow (.refl _) ih.room ?_
    simp only [taintSetSocket]
    split
    · rfl
    · rfl
  | other before m grows room ih => exact ih.grow grows room rfl
  | @call st st' labels new before c holds h ih =>
    obtain ⟨next, length, -⟩ := c.exec_continues ih holds.1 holds.2 h
    have whole : new.take c.delivered = new := by
      apply List.take_of_length_le
      rw [length]
      split
      · exact Nat.le_refl _
      · exact Nat.zero_le _
    rw [whole]
    exact next

end Numbering

/-- When a buffer has been labelled, the cell of every byte holds the label of the byte. -/
lemma deliver_cells {st st' : State} {fd : Int} {offset : Nat} {buf : Range} {new : List Nat}
    (h : deliver st fd (some offset) buf = some (new, st')) (mapped : buf.addr ≠ 0) :
    ∀ i < buf.size, new[i]? = some (st'.machine.shadow (buf.addr + i)) := by
  intro i lt
  obtain ⟨⟨_, m⟩, create, equal⟩ := Option.map_eq_some_iff.mp h
  obtain ⟨rfl, rfl⟩ := equal
  obtain ⟨rfl, created⟩ := createLabels_created create
  rw [created.inside mapped i lt, List.getElem?_range' lt, Nat.one_mul]

/-- In a run whose calls are on the connected tainted socket, or without forced tainting,
and return what they deliver, the delivered bytes carry the offsets 0, 1, 2 and so on. Each call
gives a label to every byte that it delivers from the tainted socket, and writes it to the cell of
the byte. -/
theorem offsets_never_repeat (forceStdin : Bool) (st : State) (labels : List Nat)
    (run : Run forceStdin (fun st c => Counted forceStdin st c ∧ c.Exact) st labels) :
    (∀ l, l ∈ labels → (st.machine.table.info l).op = .input) ∧
      labels.map (fun l => (st.machine.table.info l).op1) = List.range labels.length ∧
      (∀ c new st', Counted forceStdin st c → c.Exact → c.exec forceStdin st = some (new, st') →
        new.length = if st.socket.fd = c.fd then c.delivered else 0) ∧
      ∀ fd offset buf new st', deliver st fd (some offset) buf = some (new, st') →
        buf.addr ≠ 0 → ∀ i < buf.size, new[i]? = some (st'.machine.shadow (buf.addr + i)) := by
  have numbered := run.numbered
  have records := numbered.records
  refine ⟨?_, ?_,
    fun c new st' counted exact h => (c.exec_continues numbered counted exact h).length,
    fun fd offset buf new st' => deliver_cells⟩
  · intro l inside
    have record : st.machine.table.info l ∈ (List.range labels.length).map inputRecord := by
      rw [← records]
      exact List.mem_map_of_mem inside
    obtain ⟨i, -, same⟩ := List.mem_map.mp record
    rw [← same]
    rfl
  · have offsets : labels.map (fun l => (st.machine.table.info l).op1) =
        (labels.map st.machine.table.info).map (·.op1) := by
      rw [map_map]
      rfl
    rw [offsets, records, map_map]
    -- there are fewer labels than 64-bit offsets
    have small : ∀ i ∈ List.range labels.length, ((·.op1) ∘ inputRecord) i = i := by
      intro i inside
      have lt := List.mem_range.mp inside
      have count := numbered.count
      have room := numbered.room
      have top := numbered.top
      have bound : kInitializingLabel < 2 ^ 64 := by decide
      exact Nat.mod_eq_of_lt (by omega)
    rw [map_congr_left small]
    exact List.map_id _

/-- Two bytes with `recv`, and three in two buffers with `recvmsg`. -/
theorem offsets_never_repeat_buffers :
    ∃ st labels, Run true (fun st c => Counted true st c ∧ c.Exact) st labels ∧
      labels.length = 5 ∧
      labels.map (fun l => (st.machine.table.info l).op1) = [0, 1, 2, 3, 4] := by
  let first : Call := .recv 5 ⟨100, 8⟩ (some 2) 2
  let second : Call := .recvmsg 5 ⟨none, none, [⟨200, 2⟩, ⟨300, 4⟩]⟩ (some 3)
  have connected : Run true (fun st c => Counted true st c ∧ c.Exact) ⟨fresh, ⟨5, 0⟩⟩ [] :=
    .connect (.start fresh (by decide) (by decide)) 5 true
  have one : ∃ st, first.exec true ⟨fresh, ⟨5, 0⟩⟩ = some ([1, 2], st) ∧ st.socket.fd = 5 := by
    refine ⟨_, rfl, rfl⟩
  obtain ⟨st1, exec1, fd1⟩ := one
  have run1 := Run.call connected first ⟨.inr rfl, by decide, nofun⟩ exec1
  have two : ∃ st, second.exec true st1 = some ([3, 4, 5], st) := by
    cases exec1
    exact ⟨_, rfl⟩
  obtain ⟨_, exec2⟩ := two
  have run2 := Run.call run1 second ⟨.inr fd1, trivial⟩ exec2
  obtain ⟨-, offsets, -⟩ := offsets_never_repeat true _ _ run2
  exact ⟨_, _, run2, rfl, offsets⟩

/-- Tainting is forced and no socket has been connected: both bytes have the offset 0. -/
theorem forced_offset_repeats :
    ∃ st labels, Run true (fun _ c => c.Exact) st labels ∧
      labels.map (fun l => (st.machine.table.info l).op1) = [0, 0] := by
  let c : Call := .recv 5 ⟨100, 1⟩ (some 1) 1
  have start : Run true (fun _ c => c.Exact) ⟨fresh, ⟨-1, 0⟩⟩ [] :=
    .start fresh (by decide) (by decide)
  have one : ∃ st, c.exec true ⟨fresh, ⟨-1, 0⟩⟩ = some ([1], st) := ⟨_, rfl⟩
  obtain ⟨st1, exec1⟩ := one
  have run1 := Run.call start c ⟨by decide, nofun⟩ exec1
  have two : ∃ st, c.exec true st1 = some ([2], st) ∧
      [1, 2].map (fun l => (st.machine.table.info l).op1) = [0, 0] := by
    cases exec1
    exact ⟨_, rfl, by decide⟩
  obtain ⟨_, exec2, repeated⟩ := two
  exact ⟨_, _, .call run1 c ⟨by decide, nofun⟩ exec2, repeated⟩

end SocketReads
