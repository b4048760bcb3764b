import Miasma.Chat.Group.Membership
import Miasma.Chat.Proto

namespace Miasma.Chat.Group

open Data Reader

/-! What travels inside the sealed envelopes of group delivery (`chat/group/record.rs`). -/

def kindText : UInt8 := 0x10
def kindDescs : UInt8 := 0x11
def kindSync : UInt8 := 0x12
def kindHistOffer : UInt8 := 0x13
def maxDescsBytes : Nat := 15000

inductive RecordError where
  | malformed
  | unknownKind (kind : UInt8)

structure GroupText where
  gid : B16
  epoch : UInt32
  counter : UInt64
  id : B16
  sentMs : UInt64
  text : String
deriving DecidableEq

/-- A past message that one member offers to a newly added member. -/
structure HistOffer where
  gid : B16
  originEpoch : UInt32
  originalSender : B32
  originalCounter : UInt64
  originalId : B16
  originalSentMs : UInt64
  text : String

inductive Record where
  | text (t : GroupText)
  | descs (ds : List Descriptor)
  | sync (gid : B16) (haveEpoch : UInt32)
  | histOffer (o : HistOffer)

def GroupText.encode (t : GroupText) : Except RecordError Bytes :=
  if t.text.utf8ByteSize = 0 ∨ t.text.utf8ByteSize > maxTextBytes ∨ t.counter = 0 then .error .malformed
  else .ok (putU8 kindText ++ t.gid.toList ++ putU32 t.epoch ++ putU64 t.counter ++ t.id.toList ++
    putU64 t.sentMs ++ putText16 t.text)

def HistOffer.encode (o : HistOffer) : Except RecordError Bytes :=
  if o.text.utf8ByteSize = 0 ∨ o.text.utf8ByteSize > maxTextBytes ∨ o.originalCounter = 0 then
    .error .malformed
  else .ok (putU8 kindHistOffer ++ o.gid.toList ++ putU32 o.originEpoch ++ o.originalSender.toList ++
    putU64 o.originalCounter ++ o.originalId.toList ++ putU64 o.originalSentMs ++ putText16 o.text)

def Descriptor.encodeItem (d : Descriptor) : Bytes := putU16 (UInt16.ofNat d.encode.length) ++ d.encode

def Descriptor.readItem (P : Primitives) : Reader Descriptor := do
  let length ← u16
  let raw ← bytes length.toNat
  lift (Descriptor.decode P raw).toOption

def encodeDescs (ds : List Descriptor) : Except RecordError Bytes :=
  if ds.isEmpty ∨ ds.length > 255 then .error .malformed
  else
    let bytes := putU8 kindDescs ++ putList8 Descriptor.encodeItem ds
    if bytes.length > maxDescsBytes then .error .malformed else .ok bytes

def encodeSync (gid : B16) (haveEpoch : UInt32) : Bytes :=
  putU8 kindSync ++ gid.toList ++ putU32 haveEpoch

def histGid (plain : Bytes) : Option B16 :=
  if plain.length < 17 ∨ plain.head? ≠ some kindHistOffer then none
  else ByteVec.ofList? 16 ((plain.drop 1).take 16)

/-- How many of the newest descriptors fit; `rest` is newest first. -/
def countThatFit (size : Nat) : List Descriptor → Nat
  | [] => 0
  | d :: rest =>
    let n := 2 + d.encode.length
    if size + n > maxDescsBytes then 0 else countThatFit (size + n) rest + 1

/-- The newest descriptors of `items` (oldest first) that fit in one record. -/
def newestThatFit (items : List Descriptor) : List Descriptor :=
  items.drop (items.length - countThatFit 2 items.reverse)

def GroupText.read : Reader GroupText := do
  let gid ← arr 16
  let epoch ← u32
  let counter ← u64
  let id ← arr 16
  let sentMs ← u64
  check (counter ≠ 0)
  let text ← text16 1 maxTextBytes
  return { gid, epoch, counter, id, sentMs, text }

def HistOffer.read : Reader HistOffer := do
  let gid ← arr 16
  let originEpoch ← u32
  let originalSender ← arr 32
  let originalCounter ← u64
  let originalId ← arr 16
  let originalSentMs ← u64
  check (originalCounter ≠ 0)
  let text ← text16 1 maxTextBytes
  return { gid, originEpoch, originalSender, originalCounter, originalId, originalSentMs, text }

def readSync : Reader (B16 × UInt32) := do
  let gid ← arr 16
  let haveEpoch ← u32
  return (gid, haveEpoch)

def parsed (value : Option α) : Except RecordError α := match value with
  | some value => .ok value
  | none => .error .malformed

def Record.decode (P : Primitives) (bytes : Bytes) : Except RecordError Record := match u8 bytes with
  | none => .error .malformed
  | some (kind, body) =>
    if kind = kindText then (parsed (GroupText.read.complete body)).map .text
    else if kind = kindDescs then
      (parsed ((list8 1 255 (Descriptor.readItem P)).complete body)).map .descs
    else if kind = kindSync then
      (parsed (readSync.complete body)).map (fun pair => .sync pair.1 pair.2)
    else if kind = kindHistOffer then (parsed (HistOffer.read.complete body)).map .histOffer
    else .error (.unknownKind kind)

end Miasma.Chat.Group
