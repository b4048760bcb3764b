import Miasma.Chat.Outbox
import Miasma.Chat.Pq
import Miasma.Chat.Store

namespace Miasma.Chat

open Data Protocol Chat.Pq

/-! The chat engine without the network (`chat/engine.rs`).

An operation holds one lock, so it is one step.  A `Fate` says what becomes of its writes; a
process that ends inside it is the operation with the later writes lost, and `restart`. -/

inductive MsgState where
  | received
  | delivered
  | failed

structure StoredMessage where
  outgoing : Bool
  id : B16
  seq : UInt64
  sentMs : UInt64
  atMs : UInt64
  state : MsgState
  reason : Option String
  text : String

structure Fate where
  /-- The new session file is made; nothing of it is written otherwise. -/
  begun : Bool
  /-- The session file, and the fingerprint of the new one. -/
  session : Write
  fingerprint : Fingerprint
  /-- The record of the outbox log that the operation waits for. -/
  log : Write
  /-- The records that only tell what became of an entry. -/
  note : B16 → Write
  /-- The rewriting of the outbox log. -/
  rewrites : Bool
  history : Bool
  document : Bool

def Fate.done (fingerprint : Fingerprint) : Fate :=
  ⟨true, .done, fingerprint, .done, fun _ => .done, true, true, true⟩

/-! Operations of the store that write. -/

namespace ChatStore

variable {S : Suite} (st : ChatStore S)

def writePeer (state : PeerState S) (fate : Fate) : ChatStore S × Bool := if !fate.begun then (st, false)
  else
    let st := st.beforeWrite state.peer fate.fingerprint state.sendSeq
    match fate.session with
    | .lost => (st, false)
    | .torn => (st.replaceFile state.peer fate.fingerprint state, false)
    | .done =>
      ((st.replaceFile state.peer fate.fingerprint state).afterWrite state.peer fate.fingerprint state.sendSeq, true)

def flushPeer (peer : B32) (fate : Fate) : ChatStore S × Bool := match st.peers.get? peer with
  | none => (st, true)
  | some slot =>
    if slot.dirty then
      match st.writePeer slot.state fate with
      | (st, true) => (st.setSlot peer ⟨slot.state, false⟩, true)
      | (st, false) => (st, false)
    else (st, true)

def evict (peer : B32) (fate : Fate) : ChatStore S := match st.peers.get? peer with
  | none => st
  | some slot =>
    let st := if slot.dirty then (st.writePeer slot.state fate).1 else st
    { st with peers := st.peers.erase peer }

/-- True once after the session file of `peer` was found older than the last one
written. -/
def takeRollback (peer : B32) : ChatStore S × Bool :=
  let (st, _) := st.slot peer
  ({ st with rolledBack := st.rolledBack.filter (· ≠ peer) }, st.rolledBack.contains peer)

end ChatStore

inductive EnqueueError where
  | empty
  | tooBig
  | outboxFull
  | storage (e : StoreError)

/-- `Session` carries the text of a cipher or a record error, `Storage` that of a
store error. -/
inductive PrepareError where
  /-- The entry is gone. -/
  | gone
  | session (e : CryptoError)
  | record (e : ProtoError)
  | budget
  | storage (e : StoreError)

structure AcceptOutcome where
  status : AckStatus
  sessionReplaced : Bool

structure Core (S : Suite) (X : Exchange S.Key) where
  store : ChatStore S
  outbox : Outbox
  /-- Finished messages, by contact, oldest first. -/
  history : SortedMap B32 (List StoredMessage)
  identity : Identity S
  maxText : Nat
  receiptsGlobal : Bool
  pq : PqState X

/-- What sealing draws: the two secrets of a new session and the envelope id. -/
structure SealDraw (S : Suite) where
  ek : S.Secret
  ratchet : S.Secret
  id : B16

/-- What opening draws: the next ratchet secret, and the coins of the exchange. -/
structure OpenDraw (S : Suite) (X : Exchange S.Key) where
  ratchet : S.Secret
  coins : X.Coins

/-- An envelope that opened, before anything is changed. -/
structure Unlocked (S : Suite) where
  session : Session S
  plain : Bytes
  /-- The session is another one than before. -/
  replaced : Bool
  newEk : Option B32

namespace Core

variable {S : Suite} {X : Exchange S.Key}

def new (X : Exchange S.Key) (anchor : Option Anchor) (settings : StoreSettings)
    (identity : Identity S) (maxMessageBytes : Nat) : Core S X where
  store := ChatStore.new S anchor
  outbox := ⟨settings, [], 0, 0, 0, []⟩
  history := SortedMap.empty
  identity := identity
  maxText := max 1 (min maxMessageBytes maxTextBytes)
  receiptsGlobal := true
  pq := PqState.new X identity.id

variable (c : Core S X) (peer : B32)

/-- `peek_peer`. -/
def peek : Core S X × PeerState S :=
  let (store, slot) := c.store.slot peer
  ({ c with store := store }, slot.state)

def withPeer (f : PeerState S → PeerState S) : Core S X := { c with store := c.store.withPeer peer f }

variable (fate : Fate)

def flushPeer : Core S X × Bool :=
  let (store, written) := c.store.flushPeer peer fate
  ({ c with store := store }, written)

def voidSealed : Core S X :=
  let cleared := (c.outbox.pendingFor peer).foldl (fun ob e => ob.clearSealed e.id (fate.note e.id)) c.outbox
  { c with outbox := cleared }

/-- What was sealed on a session that was dropped when it was loaded is void, and
so is the hybrid key. -/
def settleRollback : Core S X :=
  let (store, behind) := c.store.takeRollback peer
  let c := { c with store := store }
  if behind then
    let c := c.voidSealed peer fate
    { c with pq := c.pq.forget peer }
  else c

/-! Sending. -/

/-- Accepts a message from the user.  The number is written first: after a crash
it may be skipped, never given twice. -/
def enqueue (text : String) (now : UInt64) (id : B16)
    (fate : Fate) : Core S X × Except EnqueueError B16 :=
  if text.utf8ByteSize = 0 then (c, .error .empty)
  else if c.maxText < text.utf8ByteSize then (c, .error .tooBig)
  else if c.outbox.settings.outboxMax ≤ c.outbox.textLen then (c, .error .outboxFull)
  else
    let (c, st) := c.peek peer
    let (st, seq) := st.nextSeq
    let c := c.withPeer peer (fun _ => st)
    match c.flushPeer peer fate with
    | (c, false) => (c, .error (.storage .disk))
    | (c, true) =>
      match c.outbox.push (OutEntry.newEntry id peer seq now text) fate.log with
      | (outbox, .ok ()) => ({ c with outbox := outbox }, .ok id)
      | (outbox, .error .outboxFull) => ({ c with outbox := outbox }, .error .outboxFull)
      | (outbox, .error e) => ({ c with outbox := outbox }, .error (.storage e))

def sessionFor (me : Identity S) (peer : B32) (draw : SealDraw S) :
    Option (Session S) → Except CryptoError (Session S)
  | some s => .ok s
  | none => Session.newInitiator me peer draw.ek draw.ratchet

/-- Seals on the session with `peer`.  The session changes in memory only. -/
def sealOn (plain : Bytes) (draw : SealDraw S) : Core S X × Except CryptoError Envelope :=
  let (c, st) := c.peek peer
  match sessionFor c.identity peer draw st.session with
  | .error e => (c.withPeer peer id, .error e)
  | .ok s =>
    let (pq, layer) := c.pq.sealKey peer s.originEk
    let (s, result) := s.sealWith draw.id plain layer
    (({ c with pq := pq }).withPeer peer (fun st => { st with session := some s }), result)

/-- The record an entry is sent as. -/
def plainOf (e : OutEntry) : Except ProtoError Bytes := match e.kind with
  | .text => Proto.Message.encode ⟨e.id, e.seq, e.sentMs, e.text⟩
  | .read => Proto.ReadReceipt.encode ⟨e.id, e.seq⟩

/-- The second half of `prepare_wire`: nothing usable is cached for the entry. -/
def sealEntry (e : OutEntry) (draw : SealDraw S) (fate : Fate) :
    Core S X × Except PrepareError (Bytes × B16) :=
  if !c.outbox.hasSealedRoom then (c, .error .budget)
  else match plainOf e with
    | .error er => (c, .error (.record er))
    | .ok plain =>
      match c.sealOn e.peer plain draw with
      | (c, .error er) => (c, .error (.session er))
      | (c, .ok env) =>
        -- The used key must not be forgotten if we crash after sending.
        match c.flushPeer e.peer fate with
        | (c, false) => (c, .error (.storage .disk))
        | (c, true) =>
          match c.outbox.setSealed e.id env.encode fate.log with
          | (outbox, .error er) => ({ c with outbox := outbox }, .error (.storage er))
          | (outbox, .ok ()) => ({ c with outbox := outbox }, .ok (env.encode, env.id))

def prepareWire (id : B16) (draw : SealDraw S) (fate : Fate) :
    Core S X × Except PrepareError (Bytes × B16) :=
  match c.outbox.get id with
  | none => (c, .error .gone)
  | some e =>
    let c := c.settleRollback e.peer fate
    match c.outbox.get id with
    | none => (c, .error .gone)
    | some e =>
      match e.sealed with
      | none => c.sealEntry e draw fate
      | some bytes =>
        match Envelope.decode bytes with
        | .ok env => (c, .ok (bytes, env.id))
        | .error _ => c.sealEntry e draw fate

def sealFor (plain : Bytes) (draw : SealDraw S)
    (fate : Fate) : Core S X × Except PrepareError (Bytes × B16) :=
  let c := c.settleRollback peer fate
  match c.sealOn peer plain draw with
  | (c, .error er) => (c, .error (.session er))
  | (c, .ok env) =>
    match c.flushPeer peer fate with
    | (c, false) => (c, .error (.storage .disk))
    | (c, true) => (c, .ok (env.encode, env.id))

/-- Forgets the session with `peer` and voids what was sealed on it. -/
def resetSession : Core S X :=
  let c := c.withPeer peer (fun st => { st with session := none })
  let c := (c.flushPeer peer fate).1
  let c := c.voidSealed peer fate
  { c with pq := c.pq.forget peer }

def countMessage (m : StoredMessage) (st : PeerState S) : PeerState S :=
  { st with count := st.count + 1, lastMs := max st.lastMs m.atMs }

/-- Records a finished message; the counters of the contact change either way. -/
def recordMessage (m : StoredMessage) (fate : Fate) : Core S X × Bool :=
  let c := c.withPeer peer (countMessage m)
  if fate.history then
    ({ c with history := c.history.insert peer ((c.history.get? peer).getD [] ++ [m]) }, true)
  else (c, false)

/-- `mark_delivered` and `mark_failed`. -/
def finish (id : B16) (state : MsgState) (reason : Option String) (now : UInt64) (fate : Fate) : Core S X :=
  match c.outbox.get id with
  | none => c
  | some e =>
    if e.kind = .read then
      { c with outbox := (c.outbox.remove id (fate.note id) fate.rewrites).1 }
    else
      match c.recordMessage e.peer ⟨true, e.id, e.seq, e.sentMs, now, state, reason, e.text⟩ fate with
      | (c, true) => { c with outbox := (c.outbox.remove id (fate.note id) fate.rewrites).1 }
      | (c, false) => c

/-- Deletes the whole conversation, queued messages included.  The session and the
counters of numbers stay. -/
def deleteConversation : Core S X × Except StoreError Unit :=
  let c := { c with outbox := c.outbox.removePeer peer fate.note fate.rewrites }
  if !fate.history then (c, .error .disk)
  else
    let c := { c with history := c.history.erase peer }.withPeer peer (fun st =>
      { st with count := 0, lastMs := 0 })
    let c := { c with pq := c.pq.forget peer }
    match c.flushPeer peer fate with
    | (c, true) => (c, .ok ())
    | (c, false) => (c, .error .disk)

/-! Receiving. -/

/-- The envelope as the first message of a session that `peer` started with `ek`. -/
def startSession (me : Identity S) (peer : B32) (env : Envelope) (ratchet : S.Secret)
    (ek : B32) (replaced : Bool) : Except AckStatus (Unlocked S) :=
  match Session.accept me peer env ratchet with
  | .ok (s, plain) => .ok ⟨s, plain, replaced, some ek⟩
  | .error _ => .error .badRequest

def unlockNew (me : Identity S) (peer : B32) (st : PeerState S) (env : Envelope)
    (ratchet : S.Secret) : Except AckStatus (Unlocked S) :=
  match env.header.initEk with
  | none => .error .noSession
  | some ek =>
    if st.seenEks.contains ek then .error .noSession
    else startSession me peer env ratchet ek false

/-- There is a session with `peer`.  A first-flight message with an unknown key may
start a new one: the peer lost its state, or both started at once. -/
def unlockIn (me : Identity S) (peer : B32) (st : PeerState S) (existing : Session S)
    (layer : Option S.Key) (env : Envelope) (ratchet : S.Secret) : Except AckStatus (Unlocked S) :=
  match existing.openWith env layer ratchet with
  | (s, .ok plain) => .ok ⟨s, plain, false, none⟩
  | (_, .error _) =>
    match env.header.initEk.filter (fun ek =>
        ek ≠ existing.originEk ∧ !st.seenEks.contains ek) with
    | none => .error .noSession
    | some ek =>
      -- Both started; the smaller key wins.
      if existing.initiator && existing.pendingInit && existing.originEk < ek then .error .busy
      else startSession me peer env ratchet ek true

variable (env : Envelope)

/-- Step 1 of `accept` and `accept_raw`: decides on copies. -/
def unlock (ratchet : S.Secret) : Core S X × Except AckStatus (Unlocked S) :=
  let (c, st) := c.peek peer
  if st.recentEnv.contains env.id then (c, .error .duplicate)
  else match st.session with
    | none => (c, unlockNew c.identity peer st env ratchet)
    | some existing =>
      let (pq, layer) := c.pq.openKey peer existing.originEk
      ({ c with pq := pq }, unlockIn c.identity peer st existing layer env ratchet)

variable (u : Unlocked S)

/-- The session moves on and the envelope is remembered; the rest of the state
changes as `f` says. -/
def committed (f : PeerState S → PeerState S) (st : PeerState S) : PeerState S :=
  let st := { st with session := some u.session }
  let st := u.newEk.elim st st.rememberEk
  (f st).rememberEnvelope env.id

def commit (f : PeerState S → PeerState S) : Core S X := c.withPeer peer (committed env u f)

/-- The commit is written; a replaced session voids what was sealed on the old
one. -/
def conclude (status : AckStatus) (fate : Fate) : Core S X × AcceptOutcome := match c.flushPeer peer fate with
  | (c, false) => (c, ⟨.failed, false⟩)
  | (c, true) => (if u.replaced then c.voidSealed peer fate else c, ⟨status, u.replaced⟩)

def acceptUnknown (now : UInt64) (draw : OpenDraw S X) (fate : Fate) : Core S X × AcceptOutcome :=
  let (pq, applied) := if u.plain.head?.any isPqKind then
      c.pq.onRecord peer u.session.originEk u.plain now draw.coins fate.document
    else (c.pq, true)
  let c := { c with pq := pq }
  if applied then (c.commit peer env u id).conclude peer u .stored fate
  else (c, ⟨.failed, false⟩)

def receiptsEnabled (st : PeerState S) : Bool := c.receiptsGlobal && !st.receiptsOff

/-- Only numbers this side really sent can be read. -/
def applyRead (enabled : Bool) (upToSeq : UInt64) (st : PeerState S) : PeerState S :=
  if enabled && upToSeq ≤ st.sendSeq && st.readUpTo < upToSeq then { st with readUpTo := upToSeq }
  else st

def acceptRead (r : Proto.ReadReceipt) (fate : Fate) : Core S X × AcceptOutcome :=
  let (c, st) := c.peek peer
  (c.commit peer env u (applyRead (c.receiptsEnabled st) r.upToSeq)).conclude peer u .stored fate

/-- Step 3 for a text. -/
def commitText (seq : UInt64) (status : AckStatus) (fate : Fate) : Core S X × AcceptOutcome :=
  (c.commit peer env u (PeerState.markSeq · seq)).conclude peer u status fate

/-- A number already applied is a duplicate; the key it used is gone either way, so
the session moves on. -/
def acceptText (m : Proto.Message) (now : UInt64) (fate : Fate) : Core S X × AcceptOutcome :=
  let (c, st) := c.peek peer
  let isNew := st.isNewSeq m.seq
  let tooBig : Bool := c.maxText < m.text.utf8ByteSize
  if isNew && !tooBig then
    match c.recordMessage peer ⟨false, m.id, m.seq, m.sentMs, now, .received, none, m.text⟩ fate with
    | (c, false) => (c, ⟨.failed, false⟩)
    | (c, true) => c.commitText peer env u m.seq .stored fate
  else c.commitText peer env u m.seq (if tooBig then .tooBig else .duplicate) fate

def acceptRecord (now : UInt64) (draw : OpenDraw S X) (fate : Fate) : Core S X × AcceptOutcome :=
  match Proto.Record.decode u.plain with
  | .error _ => (c, ⟨.badRequest, false⟩)
  | .ok (.unknown _) => c.acceptUnknown peer env u now draw fate
  | .ok (.read r) => c.acceptRead peer env u r fate
  | .ok (.text m) => c.acceptText peer env u m now fate

def accept (wire : Bytes) (now : UInt64) (draw : OpenDraw S X) (fate : Fate) : Core S X × AcceptOutcome :=
  match Envelope.decode wire with
  | .error (.version _) => (c, ⟨.unsupported, false⟩)
  | .error .unsupported => (c, ⟨.unsupported, false⟩)
  | .error _ => (c, ⟨.badRequest, false⟩)
  | .ok env =>
    match (c.settleRollback peer fate).unlock peer env draw.ratchet with
    | (c, .error status) => (c, ⟨status, false⟩)
    | (c, .ok u) => c.acceptRecord peer env u now draw fate

/-- Opens an envelope for records that are not private-chat messages; `handle` is
the answer to the plaintext. -/
def acceptRaw (wire : Bytes) (handle : Bytes → AckStatus) (draw : OpenDraw S X) (fate : Fate) :
    Core S X × AckStatus :=
  match Envelope.decode wire with
  | .error (.version _) => (c, .unsupported)
  | .error .unsupported => (c, .unsupported)
  | .error _ => (c, .badRequest)
  | .ok env =>
    match (c.settleRollback peer fate).unlock peer env draw.ratchet with
    | (c, .error status) => (c, status)
    | (c, .ok u) =>
      if handle u.plain = .failed then (c, .failed)
      else
        let (c, outcome) := (c.commit peer env u id).conclude peer u (handle u.plain) fate
        (c, outcome.status)

/-- The items that `answer` of `chat/sync.rs` names: those whose number this side has applied. -/
def listed (items : List Proto.SyncItem) : List Proto.SyncItem :=
  let (c, st) := c.peek peer
  (items.take Proto.maxSyncItems).filter fun item =>
    item.seq ≠ 0 && item.len.toNat ≤ c.maxText && !st.isNewSeq item.seq

/-! The hybrid upgrade. -/

def pqStep (haveText : Bool) (now : UInt64) (draw : Draw X) (fate : Fate) : Core S X × Pass :=
  let (c, st) := c.peek peer
  let (pq, pass) := c.pq.pass peer (st.session.map Session.originEk) haveText now draw fate.document
  ({ c with pq := pq }, pass)

def pqSent (out : Outgoing) (outcome : SendOutcome) (now : UInt64) (fate : Fate) : Core S X :=
  let (c, st) := c.peek peer
  match st.session with
  | none => c
  | some s => { c with pq := c.pq.sent peer s.originEk out outcome now fate.document }

/-! The process. -/

def evict : Core S X := { c with store := c.store.evict peer fate }

def restart (now : UInt64) (mode : PqcMode) (fate : Fate) : Core S X := { c with
    store := c.store.restart
    outbox := (Outbox.openLog c.outbox.settings c.outbox.log now fate.rewrites).1
    pq := { c.pq.restart with mode := mode } }

/-- One call of the engine, with what it draws and what becomes of its writes. -/
inductive Event (S : Suite) (X : Exchange S.Key) where
  | enqueue (peer : B32) (text : String) (now : UInt64) (id : B16) (fate : Fate)
  | prepareWire (id : B16) (draw : SealDraw S) (fate : Fate)
  | sealFor (peer : B32) (plain : Bytes) (draw : SealDraw S) (fate : Fate)
  | accept (peer : B32) (wire : Bytes) (now : UInt64) (draw : OpenDraw S X)
      (fate : Fate)
  | acceptRaw (peer : B32) (wire : Bytes) (handle : Bytes → AckStatus)
      (draw : OpenDraw S X) (fate : Fate)
  | resetSession (peer : B32) (fate : Fate)
  | deleteConversation (peer : B32) (fate : Fate)
  | finish (id : B16) (state : MsgState) (reason : Option String) (now : UInt64)
      (fate : Fate)
  | pqStep (peer : B32) (haveText : Bool) (now : UInt64) (draw : Draw X) (fate : Fate)
  | pqSent (peer : B32) (out : Outgoing) (outcome : SendOutcome) (now : UInt64)
      (fate : Fate)
  | setMode (mode : PqcMode)
  | evict (peer : B32) (fate : Fate)
  | restart (now : UInt64) (mode : PqcMode) (fate : Fate)

/-- The engine after a call.  A crash is the call it falls into, with the later writes
lost, and then `restart`. -/
def step : Event S X → Core S X
  | .enqueue peer text now id fate => (c.enqueue peer text now id fate).1
  | .prepareWire id draw fate => (c.prepareWire id draw fate).1
  | .sealFor peer plain draw fate => (c.sealFor peer plain draw fate).1
  | .accept peer wire now draw fate => (c.accept peer wire now draw fate).1
  | .acceptRaw peer wire handle draw fate => (c.acceptRaw peer wire handle draw fate).1
  | .resetSession peer fate => c.resetSession peer fate
  | .deleteConversation peer fate => (c.deleteConversation peer fate).1
  | .finish id state reason now fate => c.finish id state reason now fate
  | .pqStep peer haveText now draw fate => (c.pqStep peer haveText now draw fate).1
  | .pqSent peer out outcome now fate => c.pqSent peer out outcome now fate
  | .setMode mode => { c with pq := { c.pq with mode := mode } }
  | .evict peer fate => c.evict peer fate
  | .restart now mode fate => c.restart now mode fate

end Core

end Miasma.Chat
