import Miasma.Data.SortedMap
import Miasma.Protocol.Hybrid

namespace Miasma.Chat.Pq

open Data Protocol

/-! The hybrid upgrade of a private-conversation session (`chat/pq.rs`). -/

def kindOffer : UInt8 := 0x20
def kindInit : UInt8 := 0x21
def kindResp : UInt8 := 0x22
def kindConfirm : UInt8 := 0x23

def isPqKind (kind : UInt8) : Bool := kindOffer ≤ kind && kind ≤ kindConfirm

def fragmentPayload : Nat := 400
def offerWaitMs : UInt64 := 15000
def exchangeTimeoutMs : UInt64 := 120000
def maxExchangeTries : UInt8 := 5
def retryClassicalMs : UInt64 := 3600000
def retryFailedMs : UInt64 := 600000
def maxPeers : Nat := 64
def replayCapacity : Nat := 64
def maxOfferBytes : Nat := 268
def maxOutq : Nat := 16

/-- `privacy.pqc_mode`. -/
inductive PqcMode where
  | off
  | prefer
  | require
deriving DecidableEq

inductive Reason where
  | none
  | peerNoHybrid
  | peerOldBuild
  | exchangeFailed
  | timeout
  | confirmMismatch
deriving DecidableEq

inductive PqcRefusal where
  | peerLacksPqc (peer : B32)
  | pqcDowngradeRefused (peer : B32)
deriving DecidableEq

structure Outgoing where
  kind : UInt8
  body : Bytes
deriving DecidableEq

def Outgoing.plain (out : Outgoing) : Bytes := out.kind :: out.body

/-- What the delivery loop does next for a contact. -/
inductive Pass where
  | send (out : Outgoing)
  | proceed
  | hold
  | refuse (why : PqcRefusal)
deriving DecidableEq

inductive SendOutcome where
  | delivered
  | notUnderstood

inductive Phase where
  | new
  | offered
  | classical
  | kex
  | active
  | failed
deriving DecidableEq

structure Peer {Key : Type} (X : Exchange Key) where
  /-- The session this state belongs to. -/
  sid : B32
  phase : Phase
  reason : Reason
  decidedMs : UInt64
  ourOffer : Bytes
  peerOffer : Bytes
  /-- When our offer was delivered; 0 = not yet. -/
  offeredMs : UInt64
  key : Option Key
  ownTag : B32
  peerTag : B32
  peerConfirmed : Bool
  ownConfirmSent : Bool
  -- Memory only from here on: a restart starts the unfinished exchange again.
  outq : List Outgoing
  initiator : Option X.Init
  handshakeId : UInt64
  /-- Since when the peer's next message is awaited; 0 = not waiting. -/
  waitingSinceMs : UInt64
  tries : UInt8
  reasm : Option Reassembler
  dirty : Bool

structure Env where
  own : B32
  peer : B32
  mode : PqcMode
  now : UInt64

def Env.weInitiate (env : Env) : Bool := env.own < env.peer

structure Draw {Key : Type} (X : Exchange Key) where
  coins : X.Coins
  handshakeId : UInt64

/-- A confirmation record with this body says that the sender could not finish. -/
def abortBody : Bytes := [0]

variable {Key : Type} {X : Exchange Key}

namespace Peer

def fresh (X : Exchange Key) (sid : B32) : Peer X where
  sid := sid
  phase := .new
  reason := .none
  decidedMs := 0
  ourOffer := X.currentOffer
  peerOffer := []
  offeredMs := 0
  key := none
  ownTag := ByteVec.fill 32 0
  peerTag := ByteVec.fill 32 0
  peerConfirmed := false
  ownConfirmSent := false
  outq := []
  initiator := none
  handshakeId := 0
  waitingSinceMs := 0
  tries := 0
  reasm := none
  dirty := false

variable (p : Peer X)

/-- What `from_bytes` gives back for the bytes of `to_bytes`. -/
def document : Peer X := { p with
    ownTag := if p.key.isSome then p.ownTag else ByteVec.fill 32 0
    peerTag := if p.key.isSome then p.peerTag else ByteVec.fill 32 0
    outq := []
    initiator := none
    handshakeId := 0
    waitingSinceMs := 0
    tries := 0
    reasm := none
    dirty := false }

def wipeExchange : Peer X := { p with
    key := none
    ownTag := ByteVec.fill 32 0
    peerTag := ByteVec.fill 32 0
    peerConfirmed := false
    ownConfirmSent := false
    outq := []
    initiator := none
    reasm := none
    waitingSinceMs := 0 }

variable (env : Env)

/-- The initiator's identity carries the session id, so the key belongs to this
session and no other. -/
def kexConfig : Option KexConfig := if X.readableOffer p.ourOffer && X.readableOffer p.peerOffer then
    some {
      strict := env.mode = .require
      ours := p.ourOffer
      remote := p.peerOffer
      initiatorId := (if env.weInitiate then env.own else env.peer).toList ++ p.sid.toList
      responderId := (if env.weInitiate then env.peer else env.own).toList }
  else none

/-- The exchange failed; with `tell` the peer is sent the abort record. -/
def failWith (why : Reason) (tell : Bool) : Peer X := { p.wipeExchange with
    phase := .failed
    reason := why
    decidedMs := env.now
    dirty := true
    outq := if tell then [⟨kindConfirm, abortBody⟩] else [] }

def markFailed (why : Reason) : Peer X := p.failWith env why (why = .confirmMismatch ∨ why = .exchangeFailed)

/-- `require` forbids a classical session: the contact fails instead. -/
def markClassical (why : Reason) : Peer X := if env.mode = .require then p.markFailed env why
  else { p.wipeExchange with
    phase := .classical
    reason := why
    decidedMs := env.now
    dirty := true }

/-- Both offers are known, or the wait is over: agree on a level once.  `forced`
is the reason when the peer answered the offer with "bad request". -/
def conclude (forced : Option Reason) : Peer X := match forced with
  | some why => p.markClassical env why
  | none =>
    let wire := if p.peerOffer = [] then none else some p.peerOffer
    let ours := if X.readableOffer p.ourOffer then p.ourOffer else X.currentOffer
    if X.negotiate ours wire (env.mode = .require) then
      { p with phase := .kex, waitingSinceMs := 0, dirty := true }
    else p.markClassical env .peerNoHybrid

/-- Whether the flight could be started is the second component. -/
def startFlight (draw : Draw X) : Peer X × Bool :=
  match (p.kexConfig env).bind (X.start · draw.coins) with
  | none => (p, false)
  | some (init, msg1) =>
    let p := { p with handshakeId := draw.handshakeId }
    match fragmentMessage draw.handshakeId (X.suiteId init) msg1 fragmentPayload with
    | .error _ => (p, false)
    | .ok frames =>
      ({ p with
        outq := frames.map (Outgoing.mk kindInit)
        initiator := some init
        reasm := none
        waitingSinceMs := 0
        dirty := true }, true)

def installKey (seed : X.Seed) (initiator : Bool) : Peer X := { p with
    key := some (X.sessionKey seed)
    ownTag := if initiator then X.confirmInitiator seed else X.confirmResponder seed
    peerTag := if initiator then X.confirmResponder seed else X.confirmInitiator seed
    peerConfirmed := false
    ownConfirmSent := false
    dirty := true }

def ensureConfirm : Peer X := if p.key.isSome && !p.ownConfirmSent && (env.weInitiate || p.peerConfirmed) &&
      !p.outq.any (·.kind = kindConfirm) && p.outq.length < maxOutq then
    { p with outq := p.outq ++ [⟨kindConfirm, p.ownTag.toList⟩] }
  else p

def retryDecided : Peer X :=
  let again (after : UInt64) : Peer X :=
    if after ≤ saturatingSub env.now p.decidedMs then { fresh X p.sid with dirty := true } else p
  match p.phase with
  | .classical => again retryClassicalMs
  | .failed => again retryFailedMs
  | _ => p

def gateOfDecided : Pass := if env.mode ≠ .require then .proceed
  else match p.reason with
    | .exchangeFailed => .refuse (.pqcDowngradeRefused env.peer)
    | .confirmMismatch => .refuse (.pqcDowngradeRefused env.peer)
    | .timeout => .refuse (.pqcDowngradeRefused env.peer)
    | _ => .refuse (.peerLacksPqc env.peer)

end Peer

def holdOrProceed (env : Env) : Pass := if env.mode = .require then .hold else .proceed

namespace Peer

variable (p : Peer X) (env : Env)

/-- The `Kex` branch of `decide`. -/
def decideKex (draw : Draw X) : Peer X × Option Pass :=
  let waitedOut := p.waitingSinceMs ≠ 0 ∧ exchangeTimeoutMs ≤ saturatingSub env.now p.waitingSinceMs
  if env.weInitiate ∧ p.key.isNone ∧ p.initiator.isNone then
    match p.startFlight env draw with
    | (p, true) => (p, none)
    | (p, false) => (p.markFailed env .exchangeFailed, none)
  -- Only an exchange that produced no key is started again.
  else if env.weInitiate ∧ waitedOut ∧ p.key.isNone then
    let p := { p with tries := p.tries + 1 }
    if maxExchangeTries ≤ p.tries then (p.markFailed env .timeout, none)
    else ({ p.wipeExchange with dirty := true }, none)
  else (p, some (holdOrProceed env))

/-- One turn of the loop of `decide`; without a pass the loop goes on. -/
def decideOnce (draw : Draw X) : Peer X × Option Pass :=
  let p := (p.retryDecided env).ensureConfirm env
  match p.outq with
  | front :: _ => (p, some (.send front))
  | [] =>
    if p.offeredMs = 0 then (p, some (.send ⟨kindOffer, p.ourOffer⟩))
    else match p.phase with
      | .new => ({ p with phase := .offered, dirty := true }, none)
      | .offered =>
        if p.peerOffer ≠ [] ∨ offerWaitMs ≤ saturatingSub env.now p.offeredMs then
          (p.conclude env none, none)
        else (p, some (holdOrProceed env))
      | .classical => (p, some (p.gateOfDecided env))
      | .failed => (p, some (p.gateOfDecided env))
      | .kex => p.decideKex env draw
      | .active => (p, some .proceed)

def decideLoop (env : Env) (draw : Draw X) : Nat → Peer X → Peer X × Pass
  | 0, p => (p, holdOrProceed env)
  | turns + 1, p =>
    match p.decideOnce env draw with
    | (p, some pass) => (p, pass)
    | (p, none) => decideLoop env draw turns p

def decide (draw : Draw X) : Peer X × Pass := decideLoop env draw 6 p

/-- `u64::max(1)`. -/
def stamp (now : UInt64) : UInt64 := if now = 0 then 1 else now

/-- The delivery of `out` ended (`PqState::sent`). -/
def afterSend (out : Outgoing) (outcome : SendOutcome) : Peer X := match outcome with
  | .delivered =>
    if out.kind = kindOffer then
      { p with
        offeredMs := if p.offeredMs = 0 then stamp env.now else p.offeredMs
        phase := if p.phase = .new then .offered else p.phase
        dirty := true }
    else
      let outq := if p.outq.head? = some out then p.outq.tail else p.outq
      { p with
        outq := outq
        ownConfirmSent := p.ownConfirmSent || out.kind = kindConfirm
        waitingSinceMs := if outq = [] ∧ p.phase = .kex then stamp env.now else p.waitingSinceMs
        dirty := true }
  | .notUnderstood =>
    if out.kind = kindOffer then
      let p := { p with offeredMs := if p.offeredMs = 0 then stamp env.now else p.offeredMs }
      let p := if p.phase = .classical ∨ p.phase = .active then p
        else p.conclude env (some .peerOldBuild)
      { p with dirty := true }
    else
      let p := { p with outq := if p.outq.head? = some out then p.outq.tail else p.outq }
      if p.phase = .new ∨ p.phase = .offered ∨ p.phase = .kex then
        p.failWith env .exchangeFailed false
      else p

/-! Records that arrive. -/

variable (body : Bytes)

def onOffer : Peer X := if body = [] ∨ maxOfferBytes < body.length then p
  else if p.peerOffer = body then p
  else
    -- A late offer re-opens a decision taken for want of one.
    let p := if p.phase = .classical ∧ p.reason = .peerNoHybrid then
        { p with phase := .offered, reason := .none }
      else p
    if p.phase = .new ∨ p.phase = .offered ∨ p.phase = .classical then
      { p with peerOffer := body, dirty := true }
    else p

/-- The record after one fragment, and the message if it is the last one.  A
damaged fragment drops the partial message. -/
def assemble : Peer X × Option Assembled :=
  let reasm := (p.reasm.getD messageReassembler).expire env.now
  match pushFrame reasm body env.now with
  | (_, .error _) => ({ p with reasm := none }, none)
  | (reasm, .ok none) => ({ p with reasm := some reasm }, none)
  | (_, .ok (some asm)) => ({ p with reasm := none }, some asm)

/-- The second half of `on_init`. -/
def answerInit (guard : ReplayGuard) (asm : Assembled) (coins : X.Coins) : Peer X × ReplayGuard :=
  if asm.suiteId ≠ suiteIdHybrid then (p.markFailed env .exchangeFailed, guard)
  else match p.kexConfig env with
    | none => (p.markFailed env .exchangeFailed, guard)
    | some cfg =>
      match respond X cfg asm.data guard coins with
      | (guard, .ok (seed, msg2)) =>
        let p := { p.installKey seed false with outq := [] }
        match fragmentMessage asm.handshakeId suiteIdHybrid msg2 fragmentPayload with
        | .ok frames => ({ p with outq := frames.map (Outgoing.mk kindResp) }, guard)
        | .error _ => (p.markFailed env .exchangeFailed, guard)
      -- The same first message again: nothing to do.
      | (guard, .error .replay) => (p, guard)
      | (guard, .error .refused) => (p.markFailed env .exchangeFailed, guard)

def onInit (guard : ReplayGuard) (body : Bytes) (coins : X.Coins) : Peer X × ReplayGuard :=
  if env.weInitiate ∨ p.peerOffer = [] then (p, guard)
  else
    let p := if p.phase = .new ∨ p.phase = .offered then p.conclude env none else p
    if p.phase ≠ .kex ∨ p.peerConfirmed then (p, guard)
    else match p.assemble env body with
      | (p, none) => (p, guard)
      | (p, some asm) => p.answerInit env guard asm coins

def onResp : Peer X := if !env.weInitiate ∨ p.phase ≠ .kex ∨ p.initiator.isNone then p
  else match p.assemble env body with
    | (p, none) => p
    | (p, some asm) =>
      if asm.handshakeId ≠ p.handshakeId then p
      else match p.initiator with
        | none => p
        | some init =>
          let p := { p with initiator := none }
          if asm.suiteId ≠ X.suiteId init then p.markFailed env .exchangeFailed
          else match X.finish init asm.data with
            | some seed => { p.installKey seed true with waitingSinceMs := 0 }
            | none => p.markFailed env .exchangeFailed

def onConfirm : Peer X := if body = abortBody then
    if p.phase = .kex then p.failWith env .exchangeFailed false else p
  else if body.length ≠ 32 ∨ p.key.isNone ∨ p.peerConfirmed then p
  else if p.peerTag.toList = body then
    let p := { p with peerConfirmed := true, dirty := true }
    if p.phase = .kex then { p with phase := .active, decidedMs := env.now } else p
  else p.markFailed env .confirmMismatch

/-- `on_record`, on the record of the contact. -/
def onRecord (guard : ReplayGuard) (out : Outgoing) (coins : X.Coins) : Peer X × ReplayGuard :=
  if out.kind = kindOffer then (p.onOffer out.body, guard)
  else if out.kind = kindInit then p.onInit env guard out.body coins
  else if out.kind = kindResp then (p.onResp env out.body, guard)
  else if out.kind = kindConfirm then (p.onConfirm env out.body, guard)
  else (p, guard)

/-- Worth a document: more than a record that never left `New`. -/
def worthKeeping : Bool := !(p.phase = .new ∧ p.key.isNone ∧ p.peerOffer = [])

end Peer

/-! The records of all contacts of one store. -/

structure PqState {Key : Type} (X : Exchange Key) where
  ownId : B32
  mode : PqcMode
  peers : SortedMap B32 (Peer X)
  order : List B32
  guard : ReplayGuard
  /-- The documents on disk. -/
  docs : SortedMap B32 (Peer X)

namespace PqState

def new (X : Exchange Key) (ownId : B32) : PqState X where
  ownId := ownId
  mode := .off
  peers := SortedMap.empty
  order := []
  guard := ReplayGuard.new replayCapacity
  docs := SortedMap.empty

variable (st : PqState X)

def restart : PqState X := { new X st.ownId with docs := st.docs }

variable (peer : B32)

def env (now : UInt64) : Env := ⟨st.ownId, peer, st.mode, now⟩

def makeRoom : PqState X := if maxPeers ≤ st.peers.size then
    match st.order with
    | [] => st
    | old :: rest => { st with peers := st.peers.erase old, order := rest }
  else st

variable (sid : B32)

/-- The record of `peer` for session `sid`: from memory, from disk, or new.  A
record that belongs to another session is dropped. -/
def slot : PqState X × Peer X :=
  let stale := (st.peers.get? peer).any (·.sid ≠ sid)
  let st := if stale then
      { st with
        peers := st.peers.erase peer
        order := st.order.filter (· ≠ peer)
        docs := st.docs.erase peer }
    else st
  match st.peers.get? peer with
  | some p => (st, p)
  | none =>
    let st := st.makeRoom
    let (st, p) := match st.docs.get? peer with
      | some p =>
        if p.sid = sid then (st, p)
        else ({ st with docs := st.docs.erase peer }, Peer.fresh X sid)
      | none => (st, Peer.fresh X sid)
    ({ st with peers := st.peers.insert peer p, order := st.order ++ [peer] }, p)

/-- Puts the record back, after writing it if a decision changed it.  `writable`
says whether the document can be written. -/
def persist (p : Peer X) (writable : Bool) : PqState X × Bool :=
  let put (st : PqState X) (p : Peer X) : PqState X := { st with peers := st.peers.insert peer p }
  if !p.dirty then (put st p, true)
  else if !p.worthKeeping then (put st { p with dirty := false }, true)
  else if writable then
    let st := put st { p with dirty := false }
    ({ st with docs := st.docs.insert peer p.document }, true)
  else (put st p, false)

/-- A key lookup creates no state for a contact without a document. -/
def keyOf (usable : Phase → Bool) : PqState X × Option Key :=
  if !st.peers.contains peer && !st.docs.contains peer then (st, none)
  else
    let st := if st.peers.contains peer then st else (st.slot peer sid).1
    match st.peers.get? peer with
    | none => (st, none)
    | some p => (st, if p.sid ≠ sid ∨ !usable p.phase then none else p.key)

def sealKey : PqState X × Option Key := st.keyOf peer sid (· = .active)

def openKey : PqState X × Option Key := st.keyOf peer sid (fun phase => phase = .kex ∨ phase = .active)

/-- What to do next for `peer`; `sid` is `none` before any session exists. -/
def pass (sid : Option B32) (haveText : Bool)
    (now : UInt64) (draw : Draw X) (writable : Bool) : PqState X × Pass :=
  if st.mode = .off then (st, .proceed)
  else match sid with
    -- No session yet: the offer opens it.
    | none => (st, .send ⟨kindOffer, X.currentOffer⟩)
    | some sid =>
      let (st, p) := st.slot peer sid
      let (p, out) := p.decide (st.env peer now) draw
      let (st, _) := st.persist peer p writable
      match out with
      | .hold => (st, if haveText then .hold else .proceed)
      | .refuse why => (st, if haveText then .refuse why else .proceed)
      | other => (st, other)

def sent (out : Outgoing) (outcome : SendOutcome) (now : UInt64) (writable : Bool) : PqState X :=
  let (st, p) := st.slot peer sid
  (st.persist peer (p.afterSend (st.env peer now) out outcome) writable).1

/-- Applies a record that opened in session `sid`; `false` means the effect could
not be written down. -/
def onRecord (plain : Bytes) (now : UInt64) (coins : X.Coins) (writable : Bool) : PqState X × Bool :=
  match plain with
  | [] => (st, true)
  | kind :: body =>
    if st.mode = .off || !isPqKind kind then (st, true)
    else
      let (st, p) := st.slot peer sid
      let (p, guard) := p.onRecord (st.env peer now) st.guard ⟨kind, body⟩ coins
      { st with guard := guard }.persist peer p writable

def forget : PqState X := { st with
    peers := st.peers.erase peer
    order := st.order.filter (· ≠ peer)
    docs := st.docs.erase peer }

end PqState

end Miasma.Chat.Pq
