import Miasma.Data.Reader

namespace Miasma.Chat

open Data

/-! Records inside a sealed envelope and the answers of a receiver
(`chat/proto.rs`). -/

def maxTextBytes : Nat := 4096

inductive AckStatus where
  | stored
  | duplicate
  | noSession
  | notAllowed
  | tooBig
  | rate
  | busy
  | badRequest
  | unsupported
  | failed
  | unknown
deriving DecidableEq

def AckStatus.isDelivered : AckStatus → Bool
  | .stored => true
  | .duplicate => true
  | _ => false

inductive ProtoError where
  | malformed (what : String)
deriving DecidableEq

namespace Proto

def kindText : UInt8 := 1
def kindRead : UInt8 := 2

def maxSyncItems : Nat := 64

def need (what : String) (read : Reader α) : StateT Bytes (Except ProtoError) α := fun bytes =>
    match read bytes with
    | some found => .ok found
    | none => .error (.malformed what)

def refuse (what : String) : StateT Bytes (Except ProtoError) α := fun _ => .error (.malformed what)

structure Message where
  id : B16
  /-- The sender's counter for this contact; starts at 1. -/
  seq : UInt64
  sentMs : UInt64
  text : String
deriving DecidableEq

namespace Message

def encode (m : Message) : Except ProtoError Bytes :=
  if m.text.utf8ByteSize = 0 ∨ maxTextBytes < m.text.utf8ByteSize then
    .error (.malformed "text length")
  else
    .ok (putU8 kindText ++ m.id.toList ++ putU64 m.seq ++ putU64 m.sentMs ++ putText16 m.text)

/-- Bytes after the text are fields a newer build appended: ignored. -/
def decode (bytes : Bytes) : Except ProtoError Message := do
  let (m, _) ← read bytes
  return m
where
  read : StateT Bytes (Except ProtoError) Message := do
    let kind ← need "message" Reader.u8
    if kind ≠ kindText then refuse "message kind"
    let id ← need "message" (Reader.arr 16)
    let seq ← need "message" Reader.u64
    let sentMs ← need "message" Reader.u64
    let length ← need "message" Reader.u16
    if length = 0 ∨ maxTextBytes < length.toNat then refuse "text length"
    let bytes ← need "message" (Reader.bytes length.toNat)
    let text ← need "text encoding" (Reader.lift (ofUtf8? bytes))
    if seq = 0 then refuse "message"
    return { id, seq, sentMs, text }

end Message

/-- "I have read your messages up to number `upToSeq`." -/
structure ReadReceipt where
  id : B16
  upToSeq : UInt64
deriving DecidableEq

namespace ReadReceipt

def encode (r : ReadReceipt) : Except ProtoError Bytes := if r.upToSeq = 0 then .error (.malformed "receipt")
  else .ok (putU8 kindRead ++ r.id.toList ++ putU64 r.upToSeq)

def decode (bytes : Bytes) : Except ProtoError ReadReceipt := do
  let (r, _) ← read bytes
  return r
where
  read : StateT Bytes (Except ProtoError) ReadReceipt := do
    let kind ← need "receipt" Reader.u8
    if kind ≠ kindRead then refuse "receipt kind"
    let id ← need "receipt" (Reader.arr 16)
    let upToSeq ← need "receipt" Reader.u64
    if upToSeq = 0 then refuse "receipt"
    return { id, upToSeq }

end ReadReceipt

inductive Record where
  | text (m : Message)
  | read (r : ReadReceipt)
  /-- A record kind a newer build added. -/
  | unknown (kind : UInt8)
deriving DecidableEq

def Record.decode (bytes : Bytes) : Except ProtoError Record := match bytes with
  | [] => .error (.malformed "record kind")
  | kind :: _ =>
    if kind = kindText then .text <$> Message.decode bytes
    else if kind = kindRead then .read <$> ReadReceipt.decode bytes
    else if kind ≠ 0 then .ok (.unknown kind)
    else .error (.malformed "record kind")

structure SyncItem where
  id : B16
  seq : UInt64
  /-- Length of the text in bytes. -/
  len : UInt16

end Proto

end Miasma.Chat
