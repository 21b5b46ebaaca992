import SymSan.LittleEndian

/-!
# Messages on the event pipe

The records that the runtime writes to its pipe, byte by byte as the packed
structures of the source lay them out. Every event starts with a `pipe_msg`;
a GEP event is followed by a `gep_msg`, and a memory comparison with a concrete
side by a `memcmp_msg` whose content has the length in the header.
-/

namespace PipeMessages

open LittleEndian

/-- `pipe_msg_type` -/
inductive MsgType where
  | cond | gep | memcmp | fsize | memerr | cover
  deriving DecidableEq, Repr

def MsgType.code : MsgType → BitVec 16
  | cond => 0 | gep => 1 | memcmp => 2 | fsize => 3 | memerr => 4 | cover => 5

/-- The case of a `switch` over the type that a value selects, if any. -/
def MsgType.ofCode (code : BitVec 16) : Option MsgType :=
  [cond, gep, memcmp, fsize, memerr, cover].find? fun t => t.code = code

@[simp] lemma MsgType.ofCode_code (t : MsgType) : ofCode t.code = some t := by
  cases t <;> decide

structure PipeMsg where
  msgType : BitVec 16
  flags : BitVec 16
  instanceId : BitVec 32
  addr : BitVec 64
  context : BitVec 32
  id : BitVec 64
  label : BitVec 32
  result : BitVec 64
  deriving DecidableEq, Repr

/-- `gep_msg`; the signed fields are kept as words. -/
structure GepMsg where
  ptrLabel : BitVec 32
  indexLabel : BitVec 32
  ptr : BitVec 64
  index : BitVec 64
  numElems : BitVec 64
  elemSize : BitVec 64
  currentOffset : BitVec 64
  deriving DecidableEq, Repr

def pipeMsgSize : Nat := 40

def gepMsgSize : Nat := 48

/-- `sizeof(memcmp_msg)`, the content not counted -/
def memcmpMsgSize : Nat := 4

def PipeMsg.bytes (m : PipeMsg) : List (BitVec 8) :=
  spell 2 m.msgType.toNat ++ (spell 2 m.flags.toNat ++ (spell 4 m.instanceId.toNat ++
    (spell 8 m.addr.toNat ++ (spell 4 m.context.toNat ++ (spell 8 m.id.toNat ++
      (spell 4 m.label.toNat ++ (spell 8 m.result.toNat ++ [])))))))

def PipeMsg.decode (bytes : List (BitVec 8)) : PipeMsg where
  msgType := .ofNat 16 (read 2 bytes)
  flags := .ofNat 16 (read 2 (bytes.drop 2))
  instanceId := .ofNat 32 (read 4 (bytes.drop 4))
  addr := .ofNat 64 (read 8 (bytes.drop 8))
  context := .ofNat 32 (read 4 (bytes.drop 16))
  id := .ofNat 64 (read 8 (bytes.drop 20))
  label := .ofNat 32 (read 4 (bytes.drop 28))
  result := .ofNat 64 (read 8 (bytes.drop 32))

def GepMsg.bytes (g : GepMsg) : List (BitVec 8) :=
  spell 4 g.ptrLabel.toNat ++ (spell 4 g.indexLabel.toNat ++ (spell 8 g.ptr.toNat ++
    (spell 8 g.index.toNat ++ (spell 8 g.numElems.toNat ++ (spell 8 g.elemSize.toNat ++
      (spell 8 g.currentOffset.toNat ++ []))))))

def GepMsg.decode (bytes : List (BitVec 8)) : GepMsg where
  ptrLabel := .ofNat 32 (read 4 bytes)
  indexLabel := .ofNat 32 (read 4 (bytes.drop 4))
  ptr := .ofNat 64 (read 8 (bytes.drop 8))
  index := .ofNat 64 (read 8 (bytes.drop 16))
  numElems := .ofNat 64 (read 8 (bytes.drop 24))
  elemSize := .ofNat 64 (read 8 (bytes.drop 32))
  currentOffset := .ofNat 64 (read 8 (bytes.drop 40))

/-- What follows a header. -/
inductive Payload where
  | none
  | gep (g : GepMsg)
  | memcmp (label : BitVec 32) (content : List (BitVec 8))
  deriving DecidableEq, Repr

def Payload.bytes : Payload → List (BitVec 8)
  | none => []
  | gep g => g.bytes
  | memcmp label content => spell 4 label.toNat ++ content

structure Message where
  header : PipeMsg
  payload : Payload
  deriving DecidableEq, Repr

/-! ## What is written can be read back -/

lemma ofNat_read_spell (w n : Nat) (fits : 2 ^ w = 256 ^ n) (v : BitVec w)
    (rest : List (BitVec 8)) : BitVec.ofNat w (read n (spell n v.toNat ++ rest)) = v := by
  have small : v.toNat < 256 ^ n := fits ▸ v.isLt
  rw [read_spell, Nat.mod_eq_of_lt small, BitVec.ofNat_toNat, BitVec.setWidth_eq]

@[simp] lemma PipeMsg.length_bytes (m : PipeMsg) : m.bytes.length = pipeMsgSize := by
  simp [PipeMsg.bytes, pipeMsgSize]

@[simp] lemma GepMsg.length_bytes (g : GepMsg) : g.bytes.length = gepMsgSize := by
  simp [GepMsg.bytes, gepMsgSize]

@[simp] lemma PipeMsg.decode_bytes (m : PipeMsg) : PipeMsg.decode m.bytes = m := by
  simp only [PipeMsg.decode, PipeMsg.bytes, drop_spell, Nat.reduceLeDiff, Nat.reduceSub,
    List.drop_zero, ofNat_read_spell 16 2 (by decide), ofNat_read_spell 32 4 (by decide),
    ofNat_read_spell 64 8 (by decide)]

@[simp] lemma GepMsg.decode_bytes (g : GepMsg) : GepMsg.decode g.bytes = g := by
  simp only [GepMsg.decode, GepMsg.bytes, drop_spell, Nat.reduceLeDiff, Nat.reduceSub,
    List.drop_zero, ofNat_read_spell 32 4 (by decide), ofNat_read_spell 64 8 (by decide)]

end PipeMessages
