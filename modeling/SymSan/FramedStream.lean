import Mathlib.Data.List.Basic

/-!
# Message loops over a byte stream

A receiver takes a header of fixed size from a stream, decodes it and hands it
to a handler that takes what it believes to be the rest of the message. A read
returns the bytes it asks for while the stream has them and all that is left
otherwise. Headers are read into one buffer, so a short read leaves old bytes
behind it. If the handler takes exactly the body of each message, the loop
meets the headers where they were written; this is proved one message at a
time and then along the stream.
-/

namespace FramedStream

/-- `goesOn` looks at the number of header bytes read, `leaves` at the number of
messages handled so far. -/
structure Receiver (β μ ε σ : Type) where
  headerSize : Nat
  goesOn : Nat → Bool
  decode : List β → μ
  handle : Nat → σ → μ → List β → σ × ε × List β
  leaves : Nat → Bool

def overwrite {β : Type} (buffer got : List β) : List β := got ++ buffer.drop got.length

variable {β μ ε σ γ M : Type}

namespace Receiver

/-- The log of the loop and the part of the stream it has not read. -/
def loop (d : Receiver β μ ε σ) : Nat → Nat → List β → σ → List β → List ε × List β
  | 0, _, _, _, stream => ([], stream)
  | fuel + 1, i, buffer, state, stream =>
    let got := stream.take d.headerSize
    if d.goesOn got.length then
      let buffer := overwrite buffer got
      let out := d.handle i state (d.decode buffer) (stream.drop d.headerSize)
      if d.leaves i then ([out.2.1], out.2.2)
      else
        let rest := d.loop fuel (i + 1) buffer out.1 out.2.2
        (out.2.1 :: rest.1, rest.2)
    else ([], stream.drop d.headerSize)

variable (d : Receiver β μ ε σ)

/-- Every round takes at least one byte, so the length of the stream bounds the
number of rounds. -/
def receive (buffer : List β) (state : σ) (stream : List β) : List ε × List β :=
  d.loop (stream.length + 1) 0 buffer state stream

/-- The handler takes the body of a message and logs an entry in which `see`
finds what it should. -/
structure Serves (see : ε → γ) (head body : M → List β) (entry : M → γ)
    (i : Nat) (m : M) : Prop where
  header : (head m).length = d.headerSize
  served : ∀ state rest, ∃ state' e,
    d.handle i state (d.decode (head m)) (body m ++ rest) = (state', e, rest) ∧ see e = entry m

/-- A run of messages, the first of them with number `i`. -/
def ServesAll (see : ε → γ) (head body : M → List β) (entry : M → γ)
    (i : Nat) (messages : List M) : Prop :=
  ∀ k m, messages[k]? = some m → d.Serves see head body entry (i + k) m

end Receiver

def written (head body : M → List β) (messages : List M) : List β :=
  messages.flatMap fun m => head m ++ body m

section Framing

variable {d : Receiver β μ ε σ} {see : ε → γ} {head body : M → List β} {entry : M → γ}
  {messages : List M} {buffer : List β} {i : Nat} {m : M}

open Receiver

lemma Receiver.ServesAll.first (all : d.ServesAll see head body entry i (m :: messages)) :
    d.Serves see head body entry i m := all 0 m rfl

lemma Receiver.ServesAll.rest (all : d.ServesAll see head body entry i (m :: messages)) :
    d.ServesAll see head body entry (i + 1) messages := by
  intro k m' found
  have serves := all (k + 1) m' (by simpa using found)
  rwa [show i + (k + 1) = i + 1 + k by omega] at serves

@[simp] lemma written_cons (m : M) (messages : List M) :
    written head body (m :: messages) = head m ++ (body m ++ written head body messages) := by
  simp [written]

section

variable (goes : d.goesOn d.headerSize = true) (full : buffer.length = d.headerSize)

include goes full

lemma loop_header {header : List β} (length : header.length = d.headerSize) (fuel i : Nat)
    (state : σ) (rest : List β) :
    d.loop (fuel + 1) i buffer state (header ++ rest) =
      let out := d.handle i state (d.decode header) rest
      if d.leaves i then ([out.2.1], out.2.2)
      else (out.2.1 :: (d.loop fuel (i + 1) header out.1 out.2.2).1,
        (d.loop fuel (i + 1) header out.1 out.2.2).2) := by
  simp [loop, length, goes, overwrite, List.drop_of_length_le (Nat.le_of_eq full)]

lemma loop_step (serves : d.Serves see head body entry i m) (fuel : Nat) (state : σ)
    (rest : List β) :
    ∃ state' e, see e = entry m ∧
      d.loop (fuel + 1) i buffer state (head m ++ (body m ++ rest)) =
        if d.leaves i then ([e], rest)
        else (e :: (d.loop fuel (i + 1) (head m) state' rest).1,
          (d.loop fuel (i + 1) (head m) state' rest).2) := by
  obtain ⟨state', e, served, seen⟩ := serves.served state rest
  refine ⟨state', e, seen, ?_⟩
  rw [loop_header goes full serves.header, served]

end

lemma loop_nil (stops : d.goesOn 0 = false) (fuel i : Nat) (buffer : List β) (state : σ) :
    d.loop fuel i buffer state [] = ([], []) := by
  cases fuel with
  | zero => rfl
  | succ fuel => simp [loop, stops]

/-- The loop logs the messages in order and stops between two of them: at the
end of the stream, or where it leaves on its own. -/
lemma loop_written (goes : d.goesOn d.headerSize = true) (stops : d.goesOn 0 = false) (fuel : Nat)
    (enough : messages.length ≤ fuel) (full : buffer.length = d.headerSize)
    (serves : d.ServesAll see head body entry i messages) (state : σ) :
    ∃ done rest, messages = done ++ rest ∧
      (d.loop fuel i buffer state (written head body messages)).1.map see = done.map entry ∧
      (d.loop fuel i buffer state (written head body messages)).2 = written head body rest ∧
      (rest ≠ [] → ∃ k, done.length = k + 1 ∧ d.leaves (i + k) = true) := by
  induction messages generalizing i fuel buffer state with
  | nil =>
    have ended := loop_nil stops fuel i buffer state
    refine ⟨[], [], rfl, ?_, ?_, fun no => absurd rfl no⟩
    · simp [written, ended]
    · simp [written, ended]
  | cons m messages ih =>
    obtain ⟨fuel, rfl⟩ : ∃ k, fuel = k + 1 := ⟨fuel - 1, by simp at enough; omega⟩
    have first := serves.first
    obtain ⟨state1, e, seen, step⟩ := loop_step goes full first fuel state
      (written head body messages)
    rw [written_cons, step]
    by_cases leave : d.leaves i = true
    · refine ⟨[m], messages, rfl, ?_, ?_, fun _ => ⟨0, rfl, leave⟩⟩
      · simp [leave, seen]
      · simp [leave]
    obtain ⟨done, rest, split, log, left, early⟩ :=
      ih fuel (by simpa using enough) first.header serves.rest state1
    refine ⟨m :: done, rest, by rw [split]; rfl, ?_, ?_, ?_⟩
    · simp [leave, seen, log]
    · simp [leave, left]
    · intro more
      obtain ⟨k, length, _⟩ := early more
      refine ⟨k + 1, by rw [List.length_cons, length], ?_⟩
      rwa [show i + (k + 1) = i + 1 + k by omega]

lemma length_le_written (body : M → List β) (headed : ∀ m ∈ messages, 1 ≤ (head m).length) :
    messages.length ≤ (written head body messages).length := by
  induction messages with
  | nil => simp
  | cons m messages ih =>
    have here := headed m List.mem_cons_self
    have rest := ih fun m' mem => headed m' (List.mem_cons_of_mem _ mem)
    rw [written_cons, List.length_cons, List.length_append, List.length_append]
    omega

lemma receive_written (goes : d.goesOn d.headerSize = true) (stops : d.goesOn 0 = false)
    (full : buffer.length = d.headerSize) (serves : d.ServesAll see head body entry 0 messages)
    (state : σ) :
    ∃ done rest, messages = done ++ rest ∧
      (d.receive buffer state (written head body messages)).1.map see = done.map entry ∧
      (d.receive buffer state (written head body messages)).2 = written head body rest ∧
      (rest ≠ [] → ∃ k, done.length = k + 1 ∧ d.leaves k = true) := by
  have headed : ∀ m ∈ messages, 1 ≤ (head m).length := by
    intro m mem
    obtain ⟨k, found⟩ := List.mem_iff_getElem?.mp mem
    rw [(serves k m found).header]
    by_contra none
    rw [show d.headerSize = 0 by omega, stops] at goes
    cases goes
  have enough := length_le_written body headed
  have run := loop_written goes stops ((written head body messages).length + 1) (by omega) full
    serves state
  simpa only [Nat.zero_add, receive] using run

end Framing

end FramedStream
