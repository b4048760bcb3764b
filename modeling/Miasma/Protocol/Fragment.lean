import Miasma.Data.Reader

namespace Miasma.Protocol

open Data

/-! Handshake fragment framing and bounded reassembly (`protocol/fragment.rs`). -/

def fragmentVersion : UInt8 := 1
def absMaxTotalLen : Nat := 1048576
def absMaxFragments : Nat := 1024

inductive FragmentError where
  | truncated
  | unsupportedVersion (version : UInt8)
  | zeroCount
  | indexOutOfRange (index count : UInt16)
  | badTotalLen
  | badPayloadLen
  | tooManyFragments
  | trailingBytes
  | conflict
  | tooManyHandshakes
  | overflow
  | lengthMismatch

structure HandshakeFragment where
  version : UInt8
  handshakeId : UInt64
  suite : UInt16
  fragmentIndex : UInt16
  fragmentCount : UInt16
  totalLen : UInt32
  payload : Bytes

namespace HandshakeFragment

def encode (f : HandshakeFragment) : Bytes :=
  putU8 f.version ++ putU64 f.handshakeId ++ putU16 f.suite ++ putU16 f.fragmentIndex ++
    putU16 f.fragmentCount ++ putU32 f.totalLen ++ putU32 (UInt32.ofNat f.payload.length) ++
    f.payload

/-- The fixed part; the number is the declared length of the payload. -/
def readHeader : Reader (HandshakeFragment × Nat) := do
  let version ← Reader.u8
  let handshakeId ← Reader.u64
  let suite ← Reader.u16
  let fragmentIndex ← Reader.u16
  let fragmentCount ← Reader.u16
  let totalLen ← Reader.u32
  let payloadLen ← Reader.u32
  return ({ version, handshakeId, suite, fragmentIndex, fragmentCount, totalLen, payload := [] }, payloadLen.toNat)

def decode (buf : Bytes) : Except FragmentError HandshakeFragment := match readHeader buf with
  | none => .error .truncated
  | some ((f, payloadLen), body) =>
    if f.version ≠ fragmentVersion then .error (.unsupportedVersion f.version)
    else if f.fragmentCount = 0 then .error .zeroCount
    else if absMaxFragments < f.fragmentCount.toNat then .error .tooManyFragments
    else if f.fragmentCount ≤ f.fragmentIndex then
      .error (.indexOutOfRange f.fragmentIndex f.fragmentCount)
    else if f.totalLen = 0 ∨ absMaxTotalLen < f.totalLen.toNat then .error .badTotalLen
    else if payloadLen = 0 ∨ f.totalLen.toNat < payloadLen then .error .badPayloadLen
    else if f.totalLen.toNat < f.fragmentCount.toNat then .error .badTotalLen
    else if body.length < payloadLen then .error .truncated
    else if payloadLen < body.length then .error .trailingBytes
    else .ok { f with payload := body }

end HandshakeFragment

/-- `data.chunks(size)`, for as many chunks as there are. -/
def chunks (size : Nat) : Nat → Bytes → List Bytes
  | 0, _ => []
  | count + 1, data => data.take size :: chunks size count (data.drop size)

def fragment (handshakeId : UInt64) (suite : UInt16) (data : Bytes) (maxPayload : Nat) :
    Except FragmentError (List HandshakeFragment) :=
  if data = [] ∨ absMaxTotalLen < data.length then .error .badTotalLen
  else if maxPayload = 0 then .error .badPayloadLen
  else
    let count := (data.length + maxPayload - 1) / maxPayload
    if absMaxFragments < count then .error .tooManyFragments
    else .ok ((chunks maxPayload count data).mapIdx fun i payload => {
      version := fragmentVersion
      handshakeId := handshakeId
      suite := suite
      fragmentIndex := UInt16.ofNat i
      fragmentCount := UInt16.ofNat count
      totalLen := UInt32.ofNat data.length
      payload := payload })

structure ReassemblyLimits where
  maxTotalLen : Nat
  maxFragments : Nat
  maxConcurrent : Nat
  timeoutMs : UInt64

inductive PushOutcome where
  | pending
  | duplicate
  | complete (handshakeId : UInt64) (suite : UInt16) (data : Bytes)

structure Entry where
  suite : UInt16
  count : UInt16
  totalLen : UInt32
  startedMs : UInt64
  received : Nat
  receivedBytes : Nat
  slots : List (Option Bytes)

structure Reassembler where
  limits : ReassemblyLimits
  /-- By handshake id, each at most once. -/
  entries : List (UInt64 × Entry)

namespace Reassembler

def new (limits : ReassemblyLimits) : Reassembler := ⟨limits, []⟩

variable (r : Reassembler)

def expire (now : UInt64) : Reassembler := { r with entries := r.entries.filter (fun entry =>
      saturatingSub now entry.2.startedMs < r.limits.timeoutMs) }

def discard (handshakeId : UInt64) : Reassembler :=
  { r with entries := r.entries.filter (·.1 ≠ handshakeId) }

def put (handshakeId : UInt64) (entry : Entry) : Reassembler :=
  { r with entries := (handshakeId, entry) :: (r.discard handshakeId).entries }

def refusal (f : HandshakeFragment) : Option FragmentError := if f.fragmentCount = 0 then some .zeroCount
  else if f.fragmentCount ≤ f.fragmentIndex then
    some (.indexOutOfRange f.fragmentIndex f.fragmentCount)
  else if min r.limits.maxFragments absMaxFragments < f.fragmentCount.toNat then
    some .tooManyFragments
  else if f.totalLen = 0 ∨ min r.limits.maxTotalLen absMaxTotalLen < f.totalLen.toNat ∨
      f.totalLen.toNat < f.fragmentCount.toNat then some .badTotalLen
  else if f.payload = [] ∨ f.totalLen.toNat < f.payload.length then some .badPayloadLen
  else none

/-- The handshake `f` belongs to is there, or there is room for it. -/
def enter (f : HandshakeFragment) (now : UInt64) : Reassembler × Except FragmentError Entry :=
  match r.entries.lookup f.handshakeId with
  | some entry => (r, .ok entry)
  | none =>
    let r := if r.limits.maxConcurrent ≤ r.entries.length then r.expire now else r
    if r.limits.maxConcurrent ≤ r.entries.length then (r, .error .tooManyHandshakes)
    else
      let entry : Entry := {
        suite := f.suite
        count := f.fragmentCount
        totalLen := f.totalLen
        startedMs := now
        received := 0
        receivedBytes := 0
        slots := List.replicate f.fragmentCount.toNat none }
      (r.put f.handshakeId entry, .ok entry)

def push (f : HandshakeFragment) (now : UInt64) : Reassembler × Except FragmentError PushOutcome :=
  match r.refusal f with
  | some e => (r, .error e)
  | none =>
    match r.enter f now with
    | (r, .error e) => (r, .error e)
    | (r, .ok entry) =>
      if entry.suite ≠ f.suite ∨ entry.count ≠ f.fragmentCount ∨
          entry.totalLen ≠ f.totalLen then (r, .error .conflict)
      else match (entry.slots[f.fragmentIndex.toNat]?).join with
        | some existing =>
          if existing = f.payload then (r, .ok .duplicate) else (r, .error .conflict)
        | none =>
          if entry.totalLen.toNat < entry.receivedBytes + f.payload.length then
            (r, .error .overflow)
          else
            let entry := { entry with
              receivedBytes := entry.receivedBytes + f.payload.length
              received := entry.received + 1
              slots := entry.slots.set f.fragmentIndex.toNat (some f.payload) }
            if entry.received < entry.count.toNat then
              (r.put f.handshakeId entry, .ok .pending)
            else
              let r := r.discard f.handshakeId
              if entry.receivedBytes ≠ entry.totalLen.toNat then (r, .error .lengthMismatch)
              else
                (r, .ok (.complete f.handshakeId entry.suite (entry.slots.filterMap id).flatten))

end Reassembler

end Miasma.Protocol
