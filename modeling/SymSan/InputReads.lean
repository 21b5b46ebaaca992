import Mathlib.Data.List.TakeWhile
import SymSan.InputLabels
import SymSan.TaintSources

/-!
# Bytes from the taint file and from standard input

The wrappers of `read`, `pread`, `fread`, `fgets`, `gets`, `getline` and `getdelim` label the
bytes that the library delivers. A regular file has a label for each of its bytes from the
start, and the label follows from the file position before the call. Standard input has
none: every labelled byte takes the next value of a counter.

A source is one descriptor with its stream. Bytes that the stream has read from the
descriptor and not handed out are kept as their positions, and `ftell` is the position of
the first of them. What the library returns is part of a call, with the number of bytes
that the stream reads from the descriptor meanwhile. Reads from other descriptors and all
other operations of the runtime only add labels here.

The string functions find the delivered length only if the input has no NUL byte, `gets`
labels one byte more than the string has, and `getline` and `getdelim` clear the label of
the byte before the buffer at the end of the file.
-/

namespace InputReads

open LabelTable TableGrowth TaintUnion RuntimeOps InputLabels TaintSources
open Denotation (den inputByte)
open List (length_range' range')

/-! ## The source -/

structure Source where
  options : Options
  /-- The descriptor in the record of the taint file. -/
  recorded : Int
  fd : Nat
  content : Nat → UInt8

variable (src : Source)

def Source.tainted : TaintFile :=
  { initializeTaintFile src.options.taintFile with fd := src.recorded }

/-- The condition on `taint_get_file` in the wrappers. -/
def Source.isTaint : Bool :=
  decide (taintGetFile src.options src.tainted src.fd ≠ 0)

/-- The condition of `get_label_for`: the label hasn't been pre-allocated. -/
def Source.counted : Bool :=
  src.tainted.isStdin || (decide (src.fd = 0) && src.options.forceStdin)

/-- The labels that `InitializeTaintFile` creates. -/
def initializeLabels (flag : TaintFlag) (s : Runtime) : Option Runtime :=
  let tainted := initializeTaintFile flag
  if tainted.fd ≠ -1 ∧ tainted.isStdin = false then createAll s 0 tainted.size else some s

/-- `counter` is `current_stdin_offset`, `raw` the offset of the descriptor. -/
structure Reader where
  machine : Machine
  counter : Nat
  raw : Nat
  buffered : List Nat

def Reader.ftell (st : Reader) : Nat := st.raw - st.buffered.length

def Reader.setLabel (st : Reader) (label addr size : Nat) : Reader :=
  { st with machine := Machine.setLabel st.machine label addr size }

/-- The bytes that a stream hands out, and those it reads from the descriptor for it. -/
structure Got where
  count : Nat
  ahead : Nat

/-- The positions of the bytes that are handed out, and the stream. -/
def Reader.take (st : Reader) (got : Got) : List Nat × Reader :=
  let held := st.buffered ++ range' st.raw got.ahead
  (held.take got.count, { st with raw := st.raw + got.ahead, buffered := held.drop got.count })

/-! ## The wrappers -/

def getLabelFor (st : Reader) (offset : Nat) : Option (Nat × Reader) :=
  if src.counted then
    (createLabel st.machine.table st.counter).map fun r =>
      (r.1, { st with machine := ⟨r.2, st.machine.shadow⟩, counter := st.counter + 1 })
  else some ((offset + 1) % 2 ^ 32, st)

/-- The loop of the wrappers over the bytes of a buffer. -/
def labelBytes (src : Source) (st : Reader) (offset addr : Nat) : Nat → Option Reader
  | 0 => some st
  | n + 1 =>
    (getLabelFor src st offset).bind fun r =>
      labelBytes src (r.2.setLabel r.1 addr 1) (offset + 1) (addr + 1) n

def dfswRead (st : Reader) (buf : Nat) : Option Nat → Option Reader
  | none => some st
  | some n =>
    let after := { st with raw := st.raw + n }
    if src.isTaint then labelBytes src after st.raw buf n else some (after.setLabel 0 buf n)

def dfswPread (st : Reader) (buf offset : Nat) : Option Nat → Option Reader
  | none => some st
  | some n =>
    if src.isTaint then labelBytes src st offset buf n else some (st.setLabel 0 buf n)

/-- `__dfsw_fread`; the result counts whole items. -/
def dfswFread (st : Reader) (ptr size : Nat) (got : Got) : Option Reader :=
  let after := (st.take got).2
  let ret := got.count / size
  if ret = 0 then some after
  else if src.isTaint then labelBytes src after st.ftell ptr (ret * size)
  else some (after.setLabel 0 ptr (ret * size))

/-- The length of the string at the start of a buffer with these bytes of the input and a
terminator. -/
def strlen (positions : List Nat) : Nat :=
  ((positions.map src.content).takeWhile (· ≠ 0)).length

def dfswFgets (st : Reader) (s : Nat) : Option Got → Option Reader
  | none => some st
  | some got =>
    let after := (st.take got).2
    let length := strlen src (st.take got).1
    if src.isTaint then
      (labelBytes src after st.ftell s length).map (·.setLabel 0 (s + length) 1)
    else some (after.setLabel 0 s (length + 1))

def dfswGets (st : Reader) (str : Nat) : Option Got → Option Reader
  | none => some st
  | some got =>
    let after := (st.take got).2
    if src.isTaint then labelBytes src after st.ftell str (strlen src (st.take got).1 + 1)
    else some after

/-- `__dfsw_getdelim`. At the end of the file the result is -1, which is not 0 either. -/
def dfswGetdelim (st : Reader) (line : Nat) : Option Got → Option Reader
  | none =>
    if src.isTaint then some (st.setLabel 0 (line - 1) 1) else some (st.setLabel 0 line 0)
  | some got =>
    let after := (st.take got).2
    if got.count = 0 then some after
    else if src.isTaint then
      (labelBytes src after st.ftell line got.count).map (·.setLabel 0 (line + got.count) 1)
    else some (after.setLabel 0 line (got.count + 1))

/-- `__dfsw_getline`, with the same body. -/
def dfswGetline (st : Reader) (line : Nat) (got : Option Got) : Option Reader :=
  dfswGetdelim src st line got

/-! ## Calls -/

/-- A call with its buffer and what the library returns. -/
inductive Call where
  | read (buf : Nat) (ret : Option Nat)
  | pread (buf offset : Nat) (ret : Option Nat)
  | fread (ptr size : Nat) (got : Got)
  | fgets (s : Nat) (got : Option Got)
  | gets (str : Nat) (got : Option Got)
  | getline (line : Nat) (got : Option Got)
  | getdelim (line : Nat) (got : Option Got)

def Call.exec (st : Reader) : Call → Option Reader
  | .read buf ret => dfswRead src st buf ret
  | .pread buf offset ret => dfswPread src st buf offset ret
  | .fread ptr size got => dfswFread src st ptr size got
  | .fgets s got => dfswFgets src st s got
  | .gets str got => dfswGets src st str got
  | .getline line got => dfswGetline src st line got
  | .getdelim line got => dfswGetdelim src st line got

def Call.buf : Call → Nat
  | .read buf _ => buf
  | .pread buf _ _ => buf
  | .fread ptr _ _ => ptr
  | .fgets s _ => s
  | .gets str _ => str
  | .getline line _ => line
  | .getdelim line _ => line

def handed (st : Reader) : Option Got → List Nat
  | some got => (st.take got).1
  | none => []

/-- The positions in the input of the bytes that the call puts into the buffer. -/
def Call.positions (st : Reader) : Call → List Nat
  | .read _ ret => range' st.raw (ret.getD 0)
  | .pread _ offset ret => range' offset (ret.getD 0)
  | .fread _ _ got => (st.take got).1
  | .fgets _ got => handed st got
  | .gets _ got => handed st got
  | .getline _ got => handed st got
  | .getdelim _ got => handed st got

/-- Whether the library adds a terminating NUL. -/
def Call.terminated : Call → Bool
  | .read _ _ => false
  | .pread _ _ _ => false
  | .fread _ _ _ => false
  | .fgets _ got => got.isSome
  | .gets _ got => got.isSome
  | .getline _ got => got.isSome
  | .getdelim _ got => got.isSome

/-- A stream hands out only what it has. -/
def Served (st : Reader) (got : Got) : Prop := got.count ≤ st.buffered.length + got.ahead

instance (st : Reader) (got : Got) : Decidable (Served st got) :=
  inferInstanceAs (Decidable (_ ≤ _))

/-- What the library does: buffers are not null, `gets` reads from standard input, and a
line is not empty. -/
def Call.Possible (st : Reader) : Call → Prop
  | .read buf _ => buf ≠ 0
  | .pread buf _ _ => buf ≠ 0
  | .fread ptr _ got => ptr ≠ 0 ∧ Served st got
  | .fgets s got => s ≠ 0 ∧ ∀ g, got = some g → Served st g
  | .gets str got => str ≠ 0 ∧ src.fd = 0 ∧ ∀ g, got = some g → Served st g
  | .getline line got => line ≠ 0 ∧ ∀ g, got = some g → 0 < g.count ∧ Served st g
  | .getdelim line got => line ≠ 0 ∧ ∀ g, got = some g → 0 < g.count ∧ Served st g

/-- A byte with the label of its own position. -/
structure Carries (m : Machine) (a position : Nat) : Prop where
  label : 1 ≤ m.shadow a ∧ m.shadow a ≤ m.table.last
  op : (m.table.info (m.shadow a)).op = .input
  offset : (m.table.info (m.shadow a)).op1 = position

/-- What a call should do to the labels of the bytes in memory. -/
structure Faithful (before after : Machine) (buf : Nat) (positions : List Nat)
    (terminated : Bool) : Prop where
  delivered : ∀ i position, positions[i]? = some position → Carries after (buf + i) position
  terminator : terminated = true → after.shadow (buf + positions.length) = 0
  others : ∀ a, a < buf ∨ buf + positions.length + terminated.toNat ≤ a →
    after.shadow a = before.shadow a

/-- Runs of the target from the start, seen from the source. Every call satisfies `P` in its
state. Only a file can be positioned. -/
inductive Run (src : Source) (P : Reader → Call → Prop) : Reader → Prop where
  | start (m : Machine) (table : Runtime) (empty : m.table.last = 0)
      (top : m.table.stackTop ≤ kInitializingLabel) (room : 0 < m.table.stackTop)
      (labels : initializeLabels src.options.taintFile m.table = some table) :
      Run src P ⟨⟨table, m.shadow⟩, 0, 0, []⟩
  | other {st : Reader} (before : Run src P st) (m : Machine)
      (grows : Extends st.machine.table m.table) (room : m.table.last < m.table.stackTop) :
      Run src P { st with machine := m }
  | seek {st : Reader} (before : Run src P st) (file : src.counted = false) (position : Nat) :
      Run src P { st with raw := position, buffered := [] }
  | call {st st' : Reader} (before : Run src P st) (c : Call) (possible : c.Possible src st)
      (holds : P st c) (h : c.exec src st = some st') : Run src P st'

/-! ## When it works -/

/-- A file has labels only for the bytes that it had at the start. -/
def Call.Within (st : Reader) (c : Call) : Prop :=
  src.counted = false → ∀ position ∈ c.positions st, position < src.tainted.size

def EndsQuietly (st : Reader) (line : Nat) (got : Option Got) : Prop :=
  got = none → st.machine.shadow (line - 1) = 0

/-- A stream holds the bytes right before the offset of the descriptor. -/
structure Contiguous (raw : Nat) (buffered : List Nat) : Prop where
  count : buffered.length ≤ raw
  held : buffered = range' (raw - buffered.length) buffered.length

/-- No bytes of the file have been read past the stream. -/
def InStep (st : Reader) : Prop := src.counted = false → Contiguous st.raw st.buffered

/-- No counted bytes are read past the stream or out of order and streams are in step. Only whole
items are read, no string has a NUL byte, `gets` returns nothing, and at the end of the file there
is no label before the line. -/
def Call.Tame (st : Reader) : Call → Prop
  | .read _ ret => src.counted = true → 0 < ret.getD 0 → st.buffered = []
  | .pread _ _ ret => src.counted = true → ret.getD 0 = 0
  | .fread _ size got => size ∣ got.count ∧ InStep src st
  | .fgets _ got => (∀ position ∈ handed st got, src.content position ≠ 0) ∧ InStep src st
  | .gets _ got => got = none
  | .getline line got => EndsQuietly st line got ∧ InStep src st
  | .getdelim line got => EndsQuietly st line got ∧ InStep src st

/-- The labels that the next bytes get: the counter is at their position, or their labels
exist. -/
structure Prepared (m : Machine) (counter position : Nat) : Prop where
  top : m.table.stackTop ≤ kInitializingLabel
  room : m.table.last < m.table.stackTop
  counts : src.counted = true → counter = position ∧ counter ≤ m.table.last
  known : src.counted = false → src.tainted.size ≤ m.table.last ∧
    ∀ i, i < src.tainted.size → m.table.info (i + 1) = inputRecord i

structure Ready (st : Reader) : Prop where
  prepared : Prepared src st.machine st.counter st.ftell
  contiguous : src.counted = true → Contiguous st.raw st.buffered

/-! ## Streams -/

section Streams

variable {st : Reader} {got : Got}

lemma take_positions (contiguous : Contiguous st.raw st.buffered) (served : Served st got) :
    (st.take got).1 = range' st.ftell got.count ∧
      (st.take got).2.ftell = st.ftell + got.count ∧
      Contiguous (st.take got).2.raw (st.take got).2.buffered := by
  obtain ⟨count, held⟩ := contiguous
  simp only [Served] at served
  have before : st.raw = st.ftell + st.buffered.length := by
    simp only [Reader.ftell]
    omega
  let rest := st.buffered.length + got.ahead - got.count
  have all : st.buffered ++ range' st.raw got.ahead =
      range' st.ftell got.count ++ range' (st.ftell + got.count) rest := by
    rw [List.range'_append_1, before]
    calc st.buffered ++ range' (st.ftell + st.buffered.length) got.ahead
        = range' st.ftell st.buffered.length ++
            range' (st.ftell + st.buffered.length) got.ahead := congrArg (· ++ _) held
      _ = range' st.ftell (st.buffered.length + got.ahead) := List.range'_append_1
      _ = range' st.ftell (got.count + rest) := by
        congr 1
        omega
  have given : (st.take got).1 = range' st.ftell got.count := by
    simp only [Reader.take, all]
    exact List.take_left' length_range'
  have left : (st.take got).2.buffered = range' (st.ftell + got.count) rest := by
    simp only [Reader.take, all]
    exact List.drop_left' length_range'
  have length : (st.take got).2.buffered.length = rest := by
    rw [left, length_range']
  have raw : (st.take got).2.raw = st.raw + got.ahead := rfl
  have told : (st.take got).2.ftell = st.ftell + got.count := by
    simp only [Reader.ftell]
    omega
  refine ⟨given, told, by omega, ?_⟩
  rw [← Reader.ftell, told, length]
  exact left

end Streams

/-! ## The loop over a buffer -/

section Loop

variable {src : Source} {st st' : Reader} {offset addr n : Nat}

lemma labelBytes_counted (counted : src.counted = true) :
    labelBytes src st offset addr n =
      (createLabels st.machine st.counter addr n).map fun r =>
        { st with machine := r.2, counter := st.counter + n } := by
  induction n generalizing st offset addr with
  | zero => rfl
  | succ n ih =>
    rw [labelBytes, createLabels, getLabelFor, if_pos counted]
    cases createLabel st.machine.table st.counter with
    | none => rfl
    | some r =>
      simp only [Option.map_some, Option.bind_some]
      rw [ih, Option.map_map]
      simp only [Reader.setLabel, Machine.setLabel, Function.comp_def]
      rw [show st.counter + 1 + n = st.counter + (n + 1) by omega]

lemma labelBytes_file (file : src.counted = false)
    (h : labelBytes src st offset addr n = some st') :
    st' = { st with machine := ⟨st.machine.table, st'.machine.shadow⟩ } ∧
      (addr ≠ 0 → ∀ i < n, st'.machine.shadow (addr + i) = (offset + i + 1) % 2 ^ 32) ∧
      ∀ a, a < addr ∨ addr + n ≤ a → st'.machine.shadow a = st.machine.shadow a := by
  induction n generalizing st offset addr with
  | zero =>
    cases h
    exact ⟨rfl, nofun, fun _ _ => rfl⟩
  | succ n ih =>
    have go : ¬ src.counted = true := by simp [file]
    rw [labelBytes, getLabelFor, if_neg go] at h
    obtain ⟨same, inside, outside⟩ := ih h
    refine ⟨same, fun ne i lt => ?_, fun a away => ?_⟩
    · cases i with
      | zero =>
        rw [Nat.add_zero, outside addr (.inl (by omega))]
        exact setLabel_inside _ _ _ _ _ ne (by omega)
      | succ i =>
        rw [show addr + (i + 1) = addr + 1 + i by omega, inside (by omega) i (by omega),
          show offset + 1 + i + 1 = offset + (i + 1) + 1 by omega]
    · rw [outside a (by omega)]
      exact setLabel_outside _ _ _ _ _ (by omega)

end Loop

/-! ## One delivery -/

section Delivery

variable {src : Source} {m before after : Machine} {st st' : Reader}
  {offset position counter buf n : Nat}

lemma carries_of_record (small : offset < 2 ^ 64)
    (label : 1 ≤ m.shadow buf ∧ m.shadow buf ≤ m.table.last)
    (record : m.table.info (m.shadow buf) = inputRecord offset) : Carries m buf offset := by
  refine ⟨label, ?_, ?_⟩
  · rw [record]
    rfl
  · rw [record]
    exact Nat.mod_eq_of_lt small

lemma Faithful.ofRange (inside : ∀ i < n, Carries after (buf + i) (offset + i))
    (outside : ∀ a, a < buf ∨ buf + n ≤ a → after.shadow a = before.shadow a) :
    Faithful before after buf (range' offset n) false := by
  refine ⟨?_, nofun, ?_⟩
  · intro i position h
    have lt := (List.getElem?_eq_some_iff.mp h).1
    rw [length_range'] at lt
    rw [List.getElem?_range' lt, Nat.one_mul] at h
    cases h
    exact inside i lt
  · intro a away
    rw [length_range'] at away
    exact outside a away

lemma Faithful.none (buf : Nat) : Faithful before before buf [] false :=
  ⟨nofun, nofun, fun _ _ => rfl⟩

lemma Carries.setLabel {a addr size : Nat} (carries : Carries m a position)
    (away : a < addr ∨ addr + size ≤ a) (label : Nat) :
    Carries (Machine.setLabel m label addr size) a position := by
  have same : (Machine.setLabel m label addr size).shadow a = m.shadow a :=
    setLabel_outside _ _ _ _ _ away
  constructor
  · rw [same]
    exact carries.label
  · rw [same]
    exact carries.op
  · rw [same]
    exact carries.offset

/-- The terminator is cleared after the bytes have been labelled. -/
lemma Faithful.terminate {positions : List Nat}
    (faithful : Faithful before after buf positions false) (ne : buf ≠ 0) :
    Faithful before (Machine.setLabel after 0 (buf + positions.length) 1) buf positions true := by
  refine ⟨?_, ?_, ?_⟩
  · intro i position h
    have lt := (List.getElem?_eq_some_iff.mp h).1
    exact (faithful.delivered i position h).setLabel (.inl (by omega)) 0
  · intro _
    exact setLabel_inside _ _ _ _ _ (by omega) (by omega)
  · intro a away
    simp only [Bool.toNat_true] at away
    have other := faithful.others a (by simp only [Bool.toNat_false]; omega)
    rw [← other]
    exact setLabel_outside _ _ _ _ _ (by omega)

lemma Prepared.file (prepared : Prepared src m counter position) (file : src.counted = false)
    (counter' position' : Nat) : Prepared src m counter' position' :=
  ⟨prepared.top, prepared.room, fun counted => absurd (file.symm.trans counted) nofun,
    prepared.known⟩

lemma Prepared.grow (prepared : Prepared src m counter position)
    (grows : Extends m.table after.table) (room : after.table.last < after.table.stackTop) :
    Prepared src after counter position := by
  have last := grows.last
  have top := grows.stackTop
  have bound := prepared.top
  refine ⟨by omega, room, fun counted => ?_, fun file => ?_⟩
  · obtain ⟨same, _⟩ := prepared.counts counted
    exact ⟨same, by omega⟩
  · obtain ⟨_, records⟩ := prepared.known file
    refine ⟨by omega, fun i lt => ?_⟩
    rw [grows.same (i + 1) (.inl (by omega))]
    exact records i lt

lemma Prepared.sameTable (prepared : Prepared src m counter position)
    (same : after.table = m.table) : Prepared src after counter position :=
  prepared.grow (by rw [same]; exact .refl _) (by rw [same]; exact prepared.room)

lemma Prepared.carries (prepared : Prepared src m counter position) (file : src.counted = false)
    (within : offset < src.tainted.size) (label : m.shadow buf = (offset + 1) % 2 ^ 32) :
    Carries m buf offset := by
  obtain ⟨_, records⟩ := prepared.known file
  have bound := prepared.top
  have room := prepared.room
  have full : kInitializingLabel < 2 ^ 32 := by decide
  rw [Nat.mod_eq_of_lt (by omega)] at label
  apply carries_of_record
  · omega
  · rw [label]
    omega
  · rw [label]
    exact records _ within

structure Delivered (src : Source) (st st' : Reader) (offset buf n : Nat) : Prop where
  faithful : Faithful st.machine st'.machine buf (range' offset n) false
  prepared : Prepared src st'.machine st'.counter (offset + n)
  raw : st'.raw = st.raw
  buffered : st'.buffered = st.buffered

variable (prepared : Prepared src st.machine st.counter offset)

include prepared

lemma labelBytes_faithful_counted (counted : src.counted = true) (ne : buf ≠ 0)
    (h : labelBytes src st offset buf n = some st') :
    Delivered src st st' offset buf n := by
  rw [labelBytes_counted counted] at h
  obtain ⟨⟨_, m⟩, create, rfl⟩ := Option.map_eq_some_iff.mp h
  obtain ⟨-, created⟩ := createLabels_created create
  obtain ⟨same, _⟩ := prepared.counts counted
  have bound := prepared.top
  have full : kInitializingLabel < 2 ^ 64 := by decide
  obtain ⟨grows, last, records, room⟩ := created.table
  have top := grows.stackTop
  have fits : m.table.last < m.table.stackTop := by
    by_cases some : 0 < n
    · exact room some
    · have := prepared.room
      omega
  refine ⟨.ofRange (fun i lt => ?_) created.outside, ⟨?_, fits, ?_, ?_⟩, rfl, rfl⟩
  · have label := created.inside ne i lt
    have record := records i lt
    apply carries_of_record
    · omega
    · dsimp only
      omega
    · dsimp only
      rw [label, record, same]
  · dsimp only
    omega
  · dsimp only
    omega
  · intro file
    exact absurd (file.symm.trans counted) nofun

lemma labelBytes_faithful_file (file : src.counted = false) (ne : buf ≠ 0)
    (within : ∀ i < n, offset + i < src.tainted.size)
    (h : labelBytes src st offset buf n = some st') :
    Delivered src st st' offset buf n := by
  obtain ⟨same, inside, outside⟩ := labelBytes_file file h
  have grown : Prepared src st'.machine st.counter offset := prepared.sameTable (by rw [same])
  refine ⟨.ofRange (fun i lt => ?_) outside, ?_, by rw [same], by rw [same]⟩
  · exact grown.carries file (within i lt) (inside ne i lt)
  · exact grown.file file _ _

lemma labelBytes_faithful (ne : buf ≠ 0)
    (within : src.counted = false → ∀ position ∈ range' offset n, position < src.tainted.size)
    (h : labelBytes src st offset buf n = some st') :
    Delivered src st st' offset buf n := by
  cases kind : src.counted with
  | true => exact labelBytes_faithful_counted prepared kind ne h
  | false =>
    refine labelBytes_faithful_file prepared kind ne (fun i lt => ?_) h
    exact within kind _ (List.mem_range'_1.mpr (by omega))

end Delivery

/-! ## The calls -/

section Calls

variable {src : Source} {st st' : Reader} {buf line : Nat} {got : Got} {ret : Option Nat}

lemma Ready.inStep (ready : Ready src st) (inStep : InStep src st) :
    Contiguous st.raw st.buffered := by
  cases kind : src.counted with
  | true => exact ready.contiguous kind
  | false => exact inStep kind

section

variable (ready : Ready src st) (ne : buf ≠ 0) (served : Served st got) (inStep : InStep src st)
  (within : src.counted = false → ∀ position ∈ (st.take got).1, position < src.tainted.size)

include ready ne served inStep within

lemma stream_faithful (h : labelBytes src (st.take got).2 st.ftell buf got.count = some st') :
    Faithful st.machine st'.machine buf (st.take got).1 false ∧ Ready src st' := by
  obtain ⟨given, told, contiguous⟩ := take_positions (ready.inStep inStep) served
  rw [given] at within ⊢
  have start : Prepared src (st.take got).2.machine (st.take got).2.counter st.ftell :=
    ready.prepared
  obtain ⟨faithful, prepared, raw, buffered⟩ := labelBytes_faithful start ne within h
  have ftell : st'.ftell = st.ftell + got.count := by
    rw [← told, Reader.ftell, raw, buffered]
    rfl
  constructor
  · exact faithful
  · refine ⟨ftell ▸ prepared, ?_⟩
    rw [raw, buffered]
    exact fun _ => contiguous

lemma string_faithful
    (h : (labelBytes src (st.take got).2 st.ftell buf got.count).map (·.setLabel 0 (buf + got.count)
      1) = some st') :
    Faithful st.machine st'.machine buf (st.take got).1 true ∧ Ready src st' := by
  obtain ⟨_, label, rfl⟩ := Option.map_eq_some_iff.mp h
  obtain ⟨faithful, ready1⟩ := stream_faithful ready ne served inStep within label
  have length : (st.take got).1.length = got.count := by
    rw [(take_positions (ready.inStep inStep) served).1, length_range']
  have terminated := faithful.terminate ne
  rw [length] at terminated
  exact ⟨terminated, ⟨ready1.prepared.grow (.refl _) ready1.prepared.room, ready1.contiguous⟩⟩

end

lemma strlen_positions {positions : List Nat}
    (noNul : ∀ position ∈ positions, src.content position ≠ 0) :
    strlen src positions = positions.length := by
  have whole : (positions.map src.content).takeWhile (· ≠ 0) = positions.map src.content := by
    apply List.takeWhile_eq_self_iff.mpr
    intro byte inside
    obtain ⟨position, here, rfl⟩ := List.mem_map.mp inside
    exact decide_eq_true (noNul position here)
  rw [strlen, whole, List.length_map]

/-- What is to be shown of a call. -/
def Call.Good (src : Source) (st st' : Reader) (c : Call) : Prop :=
  Faithful st.machine st'.machine c.buf (c.positions st) c.terminated ∧ Ready src st'

section

variable (ready : Ready src st) (tainted : src.isTaint = true)

include ready tainted

lemma read_good (ne : buf ≠ 0) (within : (Call.read buf ret).Within src st)
    (tame : (Call.read buf ret).Tame src st) (h : dfswRead src st buf ret = some st') :
    (Call.read buf ret).Good src st st' := by
  cases ret with
  | none =>
    cases h
    exact ⟨.none buf, ready⟩
  | some n =>
    rw [dfswRead, if_pos tainted] at h
    by_cases none : n = 0
    · subst none
      cases h
      exact ⟨.none buf, ready⟩
    let after := { st with raw := st.raw + n }
    cases kind : src.counted with
    | false =>
      have start : Prepared src after.machine after.counter st.raw :=
        ready.prepared.file kind _ _
      obtain ⟨faithful, prepared, -, -⟩ := labelBytes_faithful start ne within h
      exact ⟨faithful, prepared.file kind _ _,
        fun counted => absurd (kind.symm.trans counted) nofun⟩
    | true =>
      have empty : st.buffered = [] := tame kind (Nat.pos_of_ne_zero none)
      have told : st.ftell = st.raw := by
        rw [Reader.ftell, empty]
        rfl
      have start : Prepared src after.machine after.counter st.raw := told ▸ ready.prepared
      obtain ⟨faithful, prepared, raw, buffered⟩ := labelBytes_faithful start ne within h
      have left : st'.buffered = [] := buffered.trans empty
      have ftell : st'.ftell = st.raw + n := by
        rw [Reader.ftell, raw, left]
        rfl
      refine ⟨faithful, ftell ▸ prepared, fun _ => ?_⟩
      rw [left]
      exact ⟨Nat.zero_le _, rfl⟩

lemma pread_good {offset : Nat} (ne : buf ≠ 0)
    (within : (Call.pread buf offset ret).Within src st)
    (tame : (Call.pread buf offset ret).Tame src st)
    (h : dfswPread src st buf offset ret = some st') :
    (Call.pread buf offset ret).Good src st st' := by
  cases ret with
  | none =>
    cases h
    exact ⟨.none buf, ready⟩
  | some n =>
    rw [dfswPread, if_pos tainted] at h
    cases kind : src.counted with
    | true =>
      have none : n = 0 := tame kind
      subst none
      cases h
      exact ⟨.none buf, ready⟩
    | false =>
      have start := ready.prepared.file kind st.counter offset
      obtain ⟨faithful, prepared, raw, buffered⟩ := labelBytes_faithful start ne within h
      constructor
      · exact faithful
      · refine ⟨prepared.file kind _ _, ?_⟩
        rw [raw, buffered]
        exact ready.contiguous

lemma fread_good {ptr size : Nat} (ne : ptr ≠ 0) (served : Served st got)
    (within : (Call.fread ptr size got).Within src st)
    (tame : (Call.fread ptr size got).Tame src st)
    (h : dfswFread src st ptr size got = some st') :
    (Call.fread ptr size got).Good src st st' := by
  have items : got.count / size * size = got.count := Nat.div_mul_cancel tame.1
  rw [dfswFread, items] at h
  apply stream_faithful ready ne served tame.2 within
  split at h
  next zero =>
    rw [zero, Nat.zero_mul] at items
    rw [← items]
    exact h
  · exact h

lemma fgets_good {s : Nat} {got : Option Got} (ne : s ≠ 0)
    (served : ∀ g, got = some g → Served st g) (within : (Call.fgets s got).Within src st)
    (tame : (Call.fgets s got).Tame src st)
    (h : dfswFgets src st s got = some st') : (Call.fgets s got).Good src st st' := by
  cases got with
  | none =>
    cases h
    exact ⟨.none s, ready⟩
  | some got =>
    have noNul : ∀ position ∈ (st.take got).1, src.content position ≠ 0 := tame.1
    have length : strlen src (st.take got).1 = got.count := by
      rw [strlen_positions noNul, (take_positions (ready.inStep tame.2) (served got rfl)).1,
        length_range']
    rw [dfswFgets, if_pos tainted, length] at h
    exact string_faithful ready ne (served got rfl) tame.2 within h

end

/-- At the end of the file the byte before the line has no label to lose. -/
lemma end_faithful (ready : Ready src st) (quiet : EndsQuietly st line none) :
    Faithful st.machine (st.setLabel 0 (line - 1) 1).machine line [] false ∧
      Ready src (st.setLabel 0 (line - 1) 1) := by
  have same : (st.setLabel 0 (line - 1) 1).machine.shadow = st.machine.shadow := by
    funext a
    simp only [Reader.setLabel, Machine.setLabel, InputLabels.setLabel]
    split
    · rfl
    dsimp only
    split
    · rw [show a = line - 1 by omega]
      exact (quiet rfl).symm
    · rfl
  constructor
  · refine ⟨by simp, by simp, ?_⟩
    intro a _
    rw [same]
  · exact ⟨ready.prepared.grow (.refl _) ready.prepared.room, ready.contiguous⟩

lemma getdelim_good {got : Option Got} (ready : Ready src st) (tainted : src.isTaint = true)
    (ne : line ≠ 0) (served : ∀ g, got = some g → 0 < g.count ∧ Served st g)
    (within : (Call.getdelim line got).Within src st)
    (tame : (Call.getdelim line got).Tame src st)
    (h : dfswGetdelim src st line got = some st') : (Call.getdelim line got).Good src st st' := by
  cases got with
  | none =>
    rw [dfswGetdelim, if_pos tainted] at h
    cases h
    exact end_faithful ready tame.1
  | some got =>
    obtain ⟨some, fits⟩ := served got rfl
    rw [dfswGetdelim, if_pos tainted, if_neg (Nat.pos_iff_ne_zero.mp some)] at h
    exact string_faithful ready ne fits tame.2 within h

lemma Call.exec_good (c : Call) (ready : Ready src st) (tainted : src.isTaint = true)
    (possible : c.Possible src st) (within : c.Within src st) (tame : c.Tame src st)
    (h : c.exec src st = some st') : c.Good src st st' := by
  cases c with
  | read buf ret => exact read_good ready tainted possible within tame h
  | pread buf offset ret => exact pread_good ready tainted possible within tame h
  | fread ptr size got => exact fread_good ready tainted possible.1 possible.2 within tame h
  | fgets s got => exact fgets_good ready tainted possible.1 possible.2 within tame h
  | gets str got =>
    obtain rfl : got = none := tame
    cases h
    exact ⟨.none str, ready⟩
  | getline line got | getdelim line got =>
    exact getdelim_good ready tainted possible.1 possible.2 within tame h

end Calls

/-! ## Runs -/

section Runs

variable {src : Source} {st : Reader}

lemma unlabelled_size {flag : TaintFlag} (file : (initializeTaintFile flag).isStdin = false)
    (unlabelled : ¬ ((initializeTaintFile flag).fd ≠ -1 ∧
      (initializeTaintFile flag).isStdin = false)) : (initializeTaintFile flag).size = 0 := by
  have zero : (0 : Int) ≠ -1 := by decide
  cases flag with
  | stdin regular =>
    cases regular with
    | none => cases file
    | some size => exact absurd ⟨zero, rfl⟩ unlabelled
  | empty => rfl
  | path real size => exact absurd ⟨zero, rfl⟩ unlabelled
  | unresolved left => rfl

lemma initializeLabels_prepared {m : Machine} {table : Runtime} (empty : m.table.last = 0)
    (top : m.table.stackTop ≤ kInitializingLabel) (room : 0 < m.table.stackTop)
    (labels : initializeLabels src.options.taintFile m.table = some table) :
    Prepared src ⟨table, m.shadow⟩ 0 0 := by
  have sized : src.tainted.size = (initializeTaintFile src.options.taintFile).size := rfl
  simp only [initializeLabels] at labels
  split at labels
  · obtain ⟨grows, last, records, fits⟩ := createAll_appended labels
    have same := grows.stackTop
    rw [empty] at last records
    refine ⟨by dsimp only; omega, ?_, fun _ => ⟨rfl, Nat.zero_le _⟩, fun _ => ⟨?_, ?_⟩⟩
    · dsimp only
      by_cases some : 0 < (initializeTaintFile src.options.taintFile).size
      · exact fits some
      · omega
    · dsimp only
      omega
    · intro i lt
      have record := records i (sized ▸ lt)
      rw [Nat.zero_add, Nat.zero_add, Nat.add_comm] at record
      exact record
  next unlabelled =>
    cases labels
    refine ⟨top, by dsimp only; omega, fun _ => ⟨rfl, Nat.zero_le _⟩, fun file => ?_⟩
    have regular : src.tainted.isStdin = false := (Bool.or_eq_false_iff.mp file).1
    rw [sized, unlabelled_size regular unlabelled]
    exact ⟨Nat.zero_le _, nofun⟩

lemma Run.ready (tainted : src.isTaint = true)
    (run : Run src (fun st c => c.Within src st ∧ c.Tame src st) st) : Ready src st := by
  induction run with
  | start m table empty top room labels =>
    exact ⟨initializeLabels_prepared empty top room labels, fun _ => ⟨Nat.le_refl _, rfl⟩⟩
  | other before m grows room ih =>
    exact ⟨ih.prepared.grow grows room, ih.contiguous⟩
  | seek before file position ih =>
    exact ⟨ih.prepared.file file _ _, fun _ => ⟨Nat.zero_le _, rfl⟩⟩
  | call before c possible holds h ih =>
    exact (c.exec_good ih tainted possible holds.1 holds.2 h).2

/-- Every delivered byte gets the label of its position, the terminator none, and no other
byte changes. -/
theorem reads_label_own_offsets (src : Source) (tainted : src.isTaint = true) (st st' : Reader)
    (c : Call) (run : Run src (fun st c => c.Within src st ∧ c.Tame src st) st)
    (possible : c.Possible src st) (within : c.Within src st) (tame : c.Tame src st)
    (h : c.exec src st = some st') :
    Faithful st.machine st'.machine c.buf (c.positions st) c.terminated := by
  have ready := run.ready tainted
  exact (c.exec_good ready tainted possible within tame h).1

end Runs

/-- Standard input that is not a regular file. -/
def pipe (content : Nat → UInt8) : Source := ⟨⟨.stdin none, false⟩, 0, 0, content⟩

lemma pipe_start (content : Nat → UInt8) (P : Reader → Call → Prop) :
    Run (pipe content) P ⟨fresh, 0, 0, []⟩ :=
  .start fresh fresh.table rfl (by decide) (by decide) rfl

/-- Three bytes with `fgets`, and five that the stream has read ahead with `getline`. -/
theorem reads_label_own_offsets_ahead :
    ∃ st st', Run (pipe fun _ => 97)
        (fun st c => c.Within (pipe fun _ => 97) st ∧ c.Tame (pipe fun _ => 97) st) st ∧
      (Call.getline 200 (some ⟨5, 0⟩)).exec (pipe fun _ => 97) st = some st' ∧
      Faithful st.machine st'.machine 200 [3, 4, 5, 6, 7] true := by
  let src := pipe fun _ => 97
  let first : Call := .fgets 100 (some ⟨3, 8⟩)
  let second : Call := .getline 200 (some ⟨5, 0⟩)
  have one : ∃ st, first.exec src ⟨fresh, 0, 0, []⟩ = some st ∧ st.buffered = [3, 4, 5, 6, 7] := by
    refine ⟨_, rfl, rfl⟩
  obtain ⟨st1, exec1, held⟩ := one
  have run1 : Run src (fun st c => c.Within src st ∧ c.Tame src st) st1 := by
    refine .call (pipe_start _ _) first ⟨by decide, ?_⟩ ⟨nofun, ?_⟩ exec1
    · rintro g ⟨⟩
      decide
    · have letter : (97 : UInt8) ≠ 0 := by decide
      exact ⟨fun _ _ => letter, nofun⟩
  have two : ∃ st, second.exec src st1 = some st := by
    cases exec1
    exact ⟨_, rfl⟩
  obtain ⟨st2, exec2⟩ := two
  have possible : second.Possible src st1 := by
    refine ⟨by decide, ?_⟩
    rintro g ⟨⟩
    rw [Served, held]
    decide
  have positions : second.positions st1 = [3, 4, 5, 6, 7] := by
    cases exec1
    rfl
  have faithful :=
    reads_label_own_offsets src (by decide) st1 st2 second run1 possible nofun
      ⟨nofun, nofun⟩ exec2
  rw [positions] at faithful
  exact ⟨st1, st2, run1, exec2, faithful⟩

/-- A run after which the call leaves wrong labels. -/
def Mislabels (src : Source) (c : Call) : Prop :=
  ∃ st st', Run src (fun _ _ => True) st ∧ c.Possible src st ∧ c.exec src st = some st' ∧
    ¬ Faithful st.machine st'.machine c.buf (c.positions st) c.terminated

/-- `fgets` with a NUL byte in the input, `gets` of one byte, and `getline` at the end of
the file after a labelled byte. -/
theorem strings_mislabelled :
    (pipe fun i => if i = 1 then 0 else 97).isTaint = true ∧
      Mislabels (pipe fun i => if i = 1 then 0 else 97) (.fgets 100 (some ⟨3, 3⟩)) ∧
      Mislabels (pipe fun _ => 10) (.gets 100 (some ⟨1, 1⟩)) ∧
      Mislabels (pipe fun _ => 97) (.getline 100 none) := by
  refine ⟨by decide, ?_, ?_, ?_⟩
  · refine ⟨_, _, pipe_start _ _, ⟨by decide, ?_⟩, rfl, ?_⟩
    · rintro g ⟨⟩
      decide
    · intro faithful
      have label := (faithful.delivered 2 2 rfl).label.1
      exact absurd label (by decide)
  · refine ⟨_, _, pipe_start _ _, ⟨by decide, rfl, ?_⟩, rfl, ?_⟩
    · rintro g ⟨⟩
      decide
    · intro faithful
      have unlabelled := faithful.terminator rfl
      exact absurd unlabelled (by decide)
  · refine ⟨_, _, .call (pipe_start _ _) (.read 99 (some 1)) (Nat.succ_ne_zero 98) trivial rfl,
      ⟨by decide, nofun⟩, rfl, ?_⟩
    intro faithful
    have same := faithful.others 99 (.inl (by decide))
    exact absurd same (by decide)

/-! ## Characters -/

/-- `taint_getc`; `ret` is -1 for EOF. The label of the extended byte is made and dropped. -/
def taintGetc (fl : Flags) (mem : Nat → Nat) (src : Source) (st : Reader) (offset : Nat)
    (ret : Int) : Option (Nat × Reader) :=
  if ret ≠ -1 ∧ src.isTaint then
    (getLabelFor src st offset).bind fun r =>
      (taintUnion fl mem r.2.machine.table .zext 32 ⟨r.1, 0, 0, 0⟩).map fun made =>
        (0, { r.2 with machine := ⟨made.2, r.2.machine.shadow⟩ })
  else some (0, st)

/-- `__dfsw_fgetc`, `__dfsw_getc`, `__dfsw_getchar` and their variants, which differ in the library
function that returns `ret`. -/
def dfswGetc (fl : Flags) (mem : Nat → Nat) (src : Source) (st : Reader) (ahead : Nat)
    (ret : Int) : Option (Nat × Reader) :=
  taintGetc fl mem src (if ret = -1 then st else (st.take ⟨1, ahead⟩).2) st.ftell ret

lemma taintGetc_label {fl : Flags} {mem : Nat → Nat} {src : Source} {st st' : Reader}
    {offset label : Nat} {ret : Int} (h : taintGetc fl mem src st offset ret = some (label, st')) :
    label = 0 := by
  unfold taintGetc at h
  split at h
  · obtain ⟨r, -, h⟩ := Option.bind_eq_some_iff.mp h
    obtain ⟨_, -, ⟨⟩⟩ := Option.map_eq_some_iff.mp h
    rfl
  · cases h
    rfl

/-- In every state, and so after every sequence of reads, a character has the label of its byte
exactly when there is no byte to label. -/
theorem getc_labelled_iff (fl : Flags) (mem : Nat → Nat) (src : Source) (st st' : Reader)
    (ahead label : Nat) (ret : Int) (h : dfswGetc fl mem src st ahead ret = some (label, st')) :
    (src.isTaint = true → ret ≠ -1 →
      ∀ inp, den st'.machine.table.info inp label = inputByte inp 0 st.ftell) ↔
      (src.isTaint = true → ret = -1) := by
  constructor
  · intro labelled tainted
    by_contra byte
    have value := labelled tainted byte ⟨fun _ _ => 1, fun _ => 0⟩
    rw [taintGetc_label h] at value
    cases value
  · intro ended tainted byte
    exact absurd (ended tainted) byte

theorem getc_labelled_iff_end :
    ∃ st', dfswGetc ⟨true, true, false, true⟩ (fun _ => 0) (pipe fun _ => 97) ⟨fresh, 0, 0, []⟩ 0
        (-1) = some (0, st') ∧
      ((pipe fun _ => 97).isTaint = true → (-1 : Int) ≠ -1 →
        ∀ inp, den st'.machine.table.info inp 0 = inputByte inp 0 0) :=
  ⟨_, rfl, (getc_labelled_iff ⟨true, true, false, true⟩ (fun _ => 0) _ _ _ 0 _ _ rfl).mpr
    fun _ => rfl⟩

/-- The first character of a pipe. -/
theorem getc_unlabelled : let inp : Denotation.Input := ⟨fun _ _ => 97, fun _ => 0⟩
    (pipe fun _ => 97).isTaint = true ∧ inputByte inp 0 0 = 97 ∧
      (dfswGetc ⟨true, true, false, true⟩ (fun _ => 0) (pipe fun _ => 97) ⟨fresh, 0, 0, []⟩ 1
        97).map (fun r => den r.2.machine.table.info inp r.1) = some 0 := by
  decide +kernel

/-! ## Mappings -/

/-- `__dfsw_mmap` once `mmap` has returned `ret`. The comparison and the labelled length are
unsigned. -/
def dfswMmap (src : Source) (st : Reader) (ret length offset : Nat) : Option Reader :=
  let fsize := taintGetFile src.options src.tainted src.fd
  if fsize ≠ 0 then
    let taintedLength :=
      if fsize < (offset + length) % 2 ^ 64 then (2 ^ 64 + fsize - offset) % 2 ^ 64 else length
    -- the byte behind the application's memory has no shadow, and a loop that gets there faults
    if 2 ^ 47 < ret + taintedLength then none
    else (labelBytes src st offset ret taintedLength).map
      (·.setLabel kInitializingLabel (ret + taintedLength) (length - taintedLength))
  else some (st.setLabel 0 ret length)

lemma labelBytes_returns {src : Source} (st : Reader) (offset addr n : Nat)
    (top : st.machine.table.stackTop ≤ kInitializingLabel)
    (room : src.counted = true → st.machine.table.last + n < st.machine.table.stackTop) :
    ∃ st', labelBytes src st offset addr n = some st' := by
  induction n generalizing st offset addr with
  | zero => exact ⟨st, rfl⟩
  | succ n ih =>
    rw [labelBytes, getLabelFor]
    cases kind : src.counted with
    | false => exact ih _ _ _ top (by simp [kind])
    | true =>
      have room := room kind
      have fresh : st.machine.table.checkLabel (st.machine.table.last + 1) = true := by
        simp only [Runtime.checkLabel, Bool.and_eq_true, decide_eq_true_eq]
        omega
      simp only [if_true, createLabel, if_pos fresh, Option.map_some, Option.bind_some]
      exact ih _ _ _ top fun _ => by simp [Reader.setLabel, Machine.setLabel]; omega

/-- The bytes of the file have their labels. The bytes behind them are marked as not initialised, or
have no label if the file is empty. -/
structure Mapped (src : Source) (st st' : Reader) (ret length offset : Nat) : Prop where
  bytes : ∀ i < length, offset + i < src.tainted.size →
    Carries st'.machine (ret + i) (offset + i)
  behind : ∀ i < length, src.tainted.size ≤ offset + i → st'.machine.shadow (ret + i) =
    if src.tainted.size = 0 then 0 else kInitializingLabel
  others : ∀ a, a < ret ∨ ret + length ≤ a → st'.machine.shadow a = st.machine.shadow a

section Mappings

variable {src : Source} {st : Reader} {ret length offset : Nat}

lemma dfswMmap_eq (fd : src.tainted.fd = src.fd) (small : offset + length < 2 ^ 63)
    (fits : src.tainted.size < 2 ^ 63) (memory : ret + length ≤ 2 ^ 47)
    (ne : src.tainted.size ≠ 0) : dfswMmap src st ret length offset =
      if offset ≤ src.tainted.size then
        (labelBytes src st offset ret (min length (src.tainted.size - offset))).map
          (·.setLabel kInitializingLabel (ret + min length (src.tainted.size - offset))
            (length - min length (src.tainted.size - offset)))
      else none := by
  have size : taintGetFile src.options src.tainted src.fd = src.tainted.size := if_pos fd
  have all : (offset + length) % 2 ^ 64 = offset + length := Nat.mod_eq_of_lt (by omega)
  simp only [dfswMmap, size, if_pos ne, all]
  by_cases starts : offset ≤ src.tainted.size
  · have mapped : (if src.tainted.size < offset + length
        then (2 ^ 64 + src.tainted.size - offset) % 2 ^ 64 else length) =
        min length (src.tainted.size - offset) := by
      split
      · rw [Nat.add_sub_assoc starts, Nat.add_mod_left, Nat.mod_eq_of_lt (by omega)]
        omega
      · omega
    rw [mapped, if_neg (by omega), if_pos starts]
  · rw [if_pos (show src.tainted.size < offset + length by omega),
      Nat.mod_eq_of_lt (by omega), if_pos (by omega), if_neg starts]

/-- The bytes behind the labelled ones are marked after them. -/
lemma Faithful.mapped {st' : Reader} {n : Nat} (ne : ret ≠ 0) (tainted : src.tainted.size ≠ 0)
    (stop : n = min length (src.tainted.size - offset))
    (faithful : Faithful st.machine st'.machine ret (range' offset n) false) :
    Mapped src st (st'.setLabel kInitializingLabel (ret + n) (length - n)) ret length offset := by
  obtain ⟨delivered, -, others⟩ := faithful
  refine ⟨fun i lt inside => ?_, fun i lt behind => ?_, fun a away => ?_⟩
  · have carries := delivered i (offset + i) (by rw [List.getElem?_range' (by omega), Nat.one_mul])
    exact carries.setLabel (.inl (by omega)) kInitializingLabel
  · rw [if_neg tainted]
    exact setLabel_inside _ _ _ _ _ (by omega) (by omega)
  · rw [length_range', Bool.toNat_false] at others
    exact (setLabel_outside _ _ _ _ _ (by omega)).trans (others a (by omega))

end Mappings

/-- The bytes of a mapping have the right labels exactly if it starts inside the file or at its end
and, where the bytes are counted, at the counter. Behind the end the call does not return. -/
theorem mapping_labelled_iff (src : Source) (st : Reader) (ret length offset : Nat)
    (fd : src.tainted.fd = src.fd) (prepared : Prepared src st.machine st.counter st.counter)
    (room : src.counted = true → st.machine.table.last + length < st.machine.table.stackTop)
    (nonempty : 0 < length) (ne : ret ≠ 0) (memory : ret + length ≤ 2 ^ 47)
    (small : offset + length < 2 ^ 63) (fits : src.tainted.size < 2 ^ 63) :
    (∃ st', dfswMmap src st ret length offset = some st' ∧ Mapped src st st' ret length offset) ↔
      (src.tainted.size ≠ 0 → offset ≤ src.tainted.size ∧
        (src.counted = true → offset < src.tainted.size → st.counter = offset)) := by
  by_cases tainted : src.tainted.size = 0
  · have size : taintGetFile src.options src.tainted src.fd = 0 := (if_pos fd).trans tainted
    simp only [dfswMmap, size, tainted, ne_eq, not_true, if_false, false_implies, iff_true]
    refine ⟨_, rfl, fun i _ inside => by omega, fun i lt _ => ?_, setLabel_outside _ _ _ _⟩
    rw [if_pos tainted]
    exact setLabel_inside _ _ _ _ _ ne (by omega)
  rw [dfswMmap_eq fd small fits memory tainted]
  by_cases starts : offset ≤ src.tainted.size
  case neg => simp [starts, tainted]
  obtain ⟨n, stop⟩ : ∃ n, n = min length (src.tainted.size - offset) := ⟨_, rfl⟩
  obtain ⟨st', labelled⟩ := labelBytes_returns st offset ret n prepared.top
    fun counted => by have := room counted; omega
  rw [if_pos starts, ← stop, labelled]
  simp only [Option.map_some, Option.some.injEq, exists_eq_left', starts, true_and, ne_eq, tainted,
    not_false_eq_true, true_implies]
  constructor
  · intro mapped counted inside
    -- the counter, and not the offset, is in the label of the first byte
    rw [labelBytes_counted counted, ← @labelBytes_counted src st st.counter ret n counted]
      at labelled
    have delivered := (labelBytes_faithful_counted prepared counted ne labelled).faithful.delivered
    have counter := delivered 0 st.counter (by rw [List.getElem?_range' (by omega)]; rfl)
    have first : Carries (st'.setLabel kInitializingLabel (ret + n) (length - n)).machine ret
        st.counter := counter.setLabel (.inl (by omega)) kInitializingLabel
    exact first.offset.symm.trans (mapped.bytes 0 nonempty inside).offset
  · intro agree
    apply Faithful.mapped ne tainted stop
    by_cases none : n = 0
    · subst none
      obtain rfl := Option.some.inj labelled
      exact .none ret
    have start : Prepared src st.machine st.counter offset := by
      refine ⟨prepared.top, prepared.room, fun counted => ?_, prepared.known⟩
      exact ⟨agree counted (by omega), (prepared.counts counted).2⟩
    refine (labelBytes_faithful start ne (fun _ position inside => ?_) labelled).faithful
    have := List.mem_range'_1.mp inside
    omega

/-- A file of one byte. -/
def oneByte : Source := ⟨⟨.path "in" 1, false⟩, 3, 3, fun _ => 0⟩

/-- The state of a run at its start. -/
def opened : Reader := ⟨⟨fresh.table.push (inputRecord 0), fun _ => 0⟩, 0, 0, []⟩

lemma opened_prepared : Prepared oneByte opened.machine opened.counter 0 :=
  initializeLabels_prepared (m := fresh) rfl (by decide) (by decide) rfl

theorem mapping_labelled_iff_page :
    ∃ st', dfswMmap oneByte opened 0x700000041000 4096 0 = some st' ∧
      Carries st'.machine 0x700000041000 0 ∧
      st'.machine.shadow 0x700000041001 = kInitializingLabel := by
  obtain ⟨st', mapped, bytes, behind, -⟩ := (mapping_labelled_iff oneByte opened 0x700000041000 4096
    0 rfl (opened_prepared.file (by decide) _ _) (by decide) (by decide) (by decide) (by decide)
    (by decide) (by decide)).mpr (by decide)
  exact ⟨st', mapped, bytes 0 (by decide) (by decide), behind 1 (by decide) (by decide)⟩

/-- A byte behind the end of the file is mapped. The loop labels the byte after it, which is outside
of the mapping, and the call never returns. -/
theorem mapping_behind_end :
    oneByte.tainted.fd = oneByte.fd ∧ Prepared oneByte opened.machine opened.counter 4096 ∧
      (labelBytes oneByte opened 4096 0x700000041000 2).map
        (·.machine.shadow 0x700000041001) = some 4098 ∧
      dfswMmap oneByte opened 0x700000041000 1 4096 = none :=
  ⟨rfl, opened_prepared.file (by decide) _ _, by decide, by decide⟩

end InputReads
