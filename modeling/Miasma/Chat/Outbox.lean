import Miasma.Chat.Crypto
import Miasma.Chat.Proto

namespace Miasma.Chat

open Data

/-! Messages accepted from the user and not yet delivered or failed for good
(`chat/outbox.rs`). -/

/-- What becomes of a write to disk.  A `torn` one is on disk although the writer
is told that it failed, or ended before it was told anything. -/
inductive Write where
  | done
  | lost
  | torn
deriving DecidableEq

def Write.onDisk : Write → Bool
  | .done => true
  | .lost => false
  | .torn => true

inductive StoreError where
  | outboxFull
  | disk

structure StoreSettings where
  outboxMax : Nat
  outboxMaxPerContact : Nat
  outboxBytes : Nat
  outboxExpiryDays : UInt64
  receiptExpiryMs : UInt64

inductive OutKind where
  /-- A message the person wrote. -/
  | text
  /-- A read receipt; `seq` holds the number it reports up to. -/
  | read
deriving DecidableEq

structure OutEntry where
  id : B16
  kind : OutKind
  peer : B32
  seq : UInt64
  sentMs : UInt64
  createdMs : UInt64
  text : String
  /-- The sealed envelope of this message, kept for retries. -/
  sealed : Option Bytes
deriving DecidableEq

inductive LogRecord where
  | put (entry : OutEntry)
  | done (id : B16)
  | sealed (id : B16) (bytes : Bytes)
  | unsealed (id : B16)

def sealedBudget : Nat := 2097152

/-- `MAX_FRAME_BODY`. -/
def maxSealed : Nat := 1 + maxHeaderBytes + 4 + maxCiphertext

structure Outbox where
  settings : StoreSettings
  entries : List OutEntry
  textBytes : Nat
  sealedBytes : Nat
  /-- Records in the log that no longer matter. -/
  garbage : Nat
  log : List LogRecord

namespace OutEntry

def newEntry (id : B16) (peer : B32) (seq sentMs : UInt64) (text : String) :
    OutEntry := ⟨id, .text, peer, seq, sentMs, sentMs, text, none⟩

def newReceipt (id : B16) (peer : B32) (upToSeq now : UInt64) : OutEntry :=
  ⟨id, .read, peer, upToSeq, now, now, "", none⟩

/-- The entry `parse_put` or `parse_put_read` makes of the record of this one. -/
def parsed (e : OutEntry) : Option OutEntry := match e.kind with
  | .text =>
    if e.text.utf8ByteSize = 0 ∨ maxTextBytes < e.text.utf8ByteSize then none
    else some { e with sealed := none }
  | .read => if e.seq = 0 then none else some { e with text := "", sealed := none }

def sealedLen (e : OutEntry) : Nat := e.sealed.elim 0 List.length

end OutEntry

def updateEntry (id : B16) (f : OutEntry → OutEntry) : List OutEntry → List OutEntry
  | [] => []
  | e :: rest => if e.id = id then f e :: rest else e :: updateEntry id f rest

namespace Outbox

/-- One turn of the loop of `open`: the entries and the garbage counted so far. -/
def fold : List OutEntry × Nat → LogRecord → List OutEntry × Nat
  | (entries, garbage), .put e =>
    match e.parsed with
    | some e => (entries ++ [e], garbage)
    | none => (entries, garbage + 1)
  | (entries, garbage), .done id =>
    match entries.find? (·.id = id) with
    | some e =>
      (entries.eraseP (·.id = id), garbage + (if e.sealed.isSome then 1 else 0) + 2)
    | none => (entries, garbage + 1)
  | (entries, garbage), .sealed id bytes =>
    if bytes = [] ∨ maxSealed < bytes.length then (entries, garbage + 1)
    else match entries.find? (·.id = id) with
      | some e =>
        (updateEntry id (fun e => { e with sealed := some bytes }) entries,
          garbage + (if e.sealed.isSome then 1 else 0))
      | none => (entries, garbage + 1)
  | (entries, garbage), .unsealed id =>
    (updateEntry id (fun e => { e with sealed := none }) entries, garbage + 2)

/-- More sealed bytes than the budget: the surplus is dropped.  The first argument
is what is kept so far. -/
def withinBudget : Nat → List OutEntry → List OutEntry
  | _, [] => []
  | kept, e :: rest =>
    if sealedBudget < kept + e.sealedLen then
      { e with sealed := none } :: withinBudget kept rest
    else e :: withinBudget (kept + e.sealedLen) rest

/-- A message past the expiry; it is handed back to be recorded as failed. -/
def expired (settings : StoreSettings) (now : UInt64) (e : OutEntry) : Bool :=
  let expiry := saturatingMul settings.outboxExpiryDays 86400000
  0 < expiry && (e.kind = .text && expiry < saturatingSub now e.createdMs)

/-- A receipt past its own expiry is dropped. -/
def staleReceipt (settings : StoreSettings) (now : UInt64) (e : OutEntry) : Bool :=
  e.kind = .read && settings.receiptExpiryMs < saturatingSub now e.createdMs

/-- The records `compact_if_needed` writes for one entry. -/
def rewritten (e : OutEntry) : List LogRecord := .put e :: e.sealed.elim [] (fun bytes => [.sealed e.id bytes])

variable (ob : Outbox)

/-- The log is rewritten with the pending entries when it holds mostly finished
ones; `rewrites` says whether that succeeds. -/
def compactIfNeeded (force rewrites : Bool) : Outbox :=
  if (ob.entries.length * 2 + 1024 < ob.garbage ∨ (force ∧ 0 < ob.garbage)) ∧ rewrites then
    { ob with log := ob.entries.flatMap rewritten, garbage := 0 }
  else ob

/-- Opens the log; the entries past their expiry are handed back. -/
def openLog (settings : StoreSettings) (log : List LogRecord) (now : UInt64) (rewrites : Bool) :
    Outbox × List OutEntry :=
  let (entries, garbage) := log.foldl fold ([], 0)
  let old := entries.filter (expired settings now)
  let entries := entries.filter (!expired settings now ·)
  let kept := entries.filter (!staleReceipt settings now ·)
  let garbage := garbage + (entries.length - kept.length)
  let entries := withinBudget 0 kept
  let ob : Outbox := {
    settings := settings
    entries := entries
    textBytes := (entries.map (·.text.utf8ByteSize)).sum
    sealedBytes := (entries.map OutEntry.sealedLen).sum
    garbage := garbage + old.length
    log := log }
  (ob.compactIfNeeded true rewrites, old)

def get (id : B16) : Option OutEntry := ob.entries.find? (·.id = id)

def pendingFor (peer : B32) : List OutEntry := ob.entries.filter (·.peer = peer)

def textLen : Nat := (ob.entries.filter (·.kind = .text)).length

def append (entry : LogRecord) (write : Write) : Outbox :=
  if write.onDisk then { ob with log := ob.log ++ [entry] } else ob

/-- Queues a message.  Durable before it returns. -/
def push (e : OutEntry) (write : Write) : Outbox × Except StoreError Unit :=
  let texts := ob.entries.filter (·.kind = .text)
  if ob.settings.outboxMax ≤ texts.length then (ob, .error .outboxFull)
  else if ob.settings.outboxMaxPerContact ≤ (texts.filter (·.peer = e.peer)).length
  then (ob, .error .outboxFull)
  else if ob.settings.outboxBytes < ob.textBytes + e.text.utf8ByteSize then
    (ob, .error .outboxFull)
  else
    let ob := ob.append (.put e) write
    if write = .done then
      ({ ob with
        textBytes := ob.textBytes + e.text.utf8ByteSize
        entries := ob.entries ++ [e] }, .ok ())
    else (ob, .error .disk)

/-- Removes an entry.  A lost record only means one more delivery attempt. -/
def remove (id : B16) (write : Write) (rewrites : Bool) : Outbox × Option OutEntry := match ob.get id with
  | none => (ob, none)
  | some e =>
    let ob := { ob with
      entries := ob.entries.eraseP (·.id = id)
      textBytes := ob.textBytes - e.text.utf8ByteSize
      sealedBytes := ob.sealedBytes - e.sealedLen
      garbage := ob.garbage + (if e.sealed.isSome then 1 else 0) + 2 }
    ((ob.append (.done id) write).compactIfNeeded false rewrites, some e)

def removeEach (ob : Outbox) (write : B16 → Write) (rewrites : Bool) : List B16 → Outbox
  | [] => ob
  | id :: rest => ((ob.remove id (write id) rewrites).1).removeEach write rewrites rest

def removePeer (peer : B32) (write : B16 → Write) (rewrites : Bool) :
    Outbox := ob.removeEach write rewrites ((ob.pendingFor peer).map OutEntry.id)

/-- Queues a receipt in place of the one still waiting for the contact. -/
def pushReceipt (e : OutEntry) (old : B16 → Write) (rewrites : Bool)
    (write : Write) : Outbox × Except StoreError Unit :=
  let waiting := ob.entries.filter (fun other => other.kind = .read && other.peer = e.peer)
  let ob := ob.removeEach old rewrites (waiting.map OutEntry.id)
  let ob := ob.append (.put e) write
  if write = .done then ({ ob with entries := ob.entries ++ [e] }, .ok ()) else (ob, .error .disk)

/-- Keeps the sealed envelope of entry `id`.  Durable before it returns. -/
def setSealed (id : B16) (bytes : Bytes) (write : Write) : Outbox × Except StoreError Unit :=
  if bytes = [] ∨ maxSealed < bytes.length then (ob, .error .outboxFull)
  else match ob.get id with
    | none => (ob, .ok ())
    | some e =>
      if sealedBudget < ob.sealedBytes - e.sealedLen + bytes.length then (ob, .error .outboxFull)
      else
        let ob := ob.append (.sealed id bytes) write
        if write = .done then
          ({ ob with
            sealedBytes := ob.sealedBytes - e.sealedLen + bytes.length
            garbage := ob.garbage + (if 0 < e.sealedLen then 1 else 0)
            entries := updateEntry id (fun e => { e with sealed := some bytes }) ob.entries },
            .ok ())
        else (ob, .error .disk)

/-- Voids the sealed envelope of entry `id`.  A lost record only brings back an
envelope the receiver answers with "no session". -/
def clearSealed (id : B16) (write : Write) : Outbox := match (ob.get id).bind OutEntry.sealed with
  | none => ob
  | some old =>
    ({ ob with
      sealedBytes := ob.sealedBytes - old.length
      garbage := ob.garbage + 2
      entries := updateEntry id (fun e => { e with sealed := none }) ob.entries }).append (.unsealed id) write

def hasSealedRoom : Bool := ob.sealedBytes + maxSealed ≤ sealedBudget

end Outbox

end Miasma.Chat
