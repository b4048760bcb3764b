import Miasma.Data.Run
import Miasma.Directed.Inbox

namespace Miasma.Directed

open Data

/-! The recipient of directed shares (`network/node.rs`, `daemon/mod.rs`).

A handler is one step, except the retrieve command, which waits for the network between its
load and its save. -/

inductive DirectedResponse where
  | inviteAccepted (id : B32)
  | confirmed (id : B32)
  | challengeFailed (id : B32) (attemptsRemaining : Nat)
  | revoked (id : B32)
  | error (reason : String)

structure Node where
  recipientPubkey : Option B32
  /-- There is a data directory, and a queue to the daemon. -/
  dataDir : Bool
  topology : Bool

namespace DirectedInbox

/-- `let _ = inbox.save_incoming(..)`. -/
def trySave (inbox : DirectedInbox) (envelope : DirectedEnvelope) : DirectedInbox :=
  match inbox.saveIncoming envelope with
  | .ok saved => saved
  | .error _ => inbox

/-- Save and answer; the code is dropped when the share is done with it. -/
def persist (inbox : DirectedInbox) (id : B32) (envelope : DirectedEnvelope) (done : Bool)
    (failure : String) (response : DirectedResponse) : DirectedResponse × DirectedInbox :=
  match inbox.saveIncoming envelope with
  | .ok saved => (response, if done then saved.cleanupChallenge id else saved)
  | .error reason => (.error (failure ++ reason), inbox)

end DirectedInbox

/-! ## Requests of peers -/

/-- An invite: the answer, the inbox, and the envelope put on the queue to the daemon.
`queued` is what the queue says to one more event. -/
def invite (node : Node) (inbox : DirectedInbox) (peer : PeerId) (envelope : DirectedEnvelope)
    (now : Nat) (queued : Except String Unit) :
    DirectedResponse × DirectedInbox × Option DirectedEnvelope :=
  let id := envelope.envelopeId
  if envelope.version ≠ 1 then
    (.error s!"unsupported directed envelope version {envelope.version}", inbox, none)
  else if node.recipientPubkey = none then
    (.error "local directed recipient key unavailable", inbox, none)
  else if node.recipientPubkey ≠ some envelope.recipientPubkey then
    (.error "directed envelope recipient mismatch", inbox, none)
  else
    match envelope.normalizeReceivedRetention now with
    | .error reason => (.error reason, inbox, none)
    | .ok envelope =>
      if ¬ node.dataDir then (.error "directed invite persistence unavailable", inbox, none)
      else if (inbox.loadIncoming id).isSome then
        if inbox.incomingPeerIsBound id peer then (.inviteAccepted id, inbox, none)
        else (.error "directed envelope id already exists", inbox, none)
      else if ¬ node.topology then
        (.error "directed invite persistence unavailable", inbox, none)
      else
        match inbox.bindIncomingPeerId id peer with
        | .error _ => (.error "directed envelope id already claimed", inbox, none)
        | .ok bound =>
          match queued with
          | .ok () => (.inviteAccepted id, bound, some envelope)
          | .error e => (.error s!"directed invite queue unavailable: {e}", bound, none)

inductive Judgement where
  | refused (reason : String)
  /-- No try was left. -/
  | exhausted (envelope : DirectedEnvelope)
  | late (envelope : DirectedEnvelope)
  | right (envelope : DirectedEnvelope)
  | wrong (envelope : DirectedEnvelope)

/-- The checks of a confirmation, in their order; no result where the program panics. -/
def judge (T : Texts) (inbox : DirectedInbox) (peer : PeerId) (id : B32)
    (code : List Char) (now : Nat) : Option Judgement :=
  if ¬ inbox.incomingPeerIsBound id peer then
    some (.refused "unauthorized or unknown directed envelope")
  else
    match inbox.loadIncoming id with
    | none => some (.refused "unauthorized or unknown directed envelope")
    | some envelope =>
      if envelope.state ≠ .challengeIssued then
        some (.refused s!"not in ChallengeIssued state (current: {envelope.state.debug})")
      else if envelope.challengeAttemptsRemaining = 0 then some (.exhausted envelope)
      else if envelope.challengeExpiresAt = 0 ∨ envelope.challengeExpiresAt < now then
        some (.late envelope)
      else
        match envelope.challengeHash with
        | none => some (.refused "no challenge hash set")
        | some hash => (T.verifyChallenge code hash).map (fun right =>
          if right then .right envelope else .wrong envelope)

/-- The envelope with one try less; the last one fails it. -/
def DirectedEnvelope.spendCode (envelope : DirectedEnvelope) : DirectedEnvelope :=
  let remaining := envelope.challengeAttemptsRemaining - 1
  { envelope with
    challengeAttemptsRemaining := remaining
    state := if remaining = 0 then .challengeFailed else envelope.state }

/-- The answer to a judged confirmation, and what it saves. -/
def confirmed (inbox : DirectedInbox) (id : B32) : Judgement → DirectedResponse × DirectedInbox
  | .refused reason => (.error reason, inbox)
  | .exhausted envelope =>
    inbox.persist id (envelope.setState .challengeFailed) true "persist exhausted challenge: " (.challengeFailed id 0)
  | .late envelope =>
    inbox.persist id (envelope.setState .challengeFailed) true
      "persist expired challenge: " (.error "challenge expired")
  | .right envelope =>
    inbox.persist id (envelope.setState .confirmed) true "persist confirmation: " (.confirmed id)
  | .wrong envelope =>
    let spent := envelope.spendCode
    inbox.persist id spent (spent.challengeAttemptsRemaining = 0)
      "persist challenge attempt: " (.challengeFailed id spent.challengeAttemptsRemaining)

def confirm (T : Texts) (node : Node) (inbox : DirectedInbox) (peer : PeerId) (id : B32)
    (code : List Char) (now : Nat) : Option (DirectedResponse × DirectedInbox) :=
  if ¬ node.dataDir then some (.error "confirm not available (no data dir)", inbox)
  else (judge T inbox peer id code now).map (confirmed inbox id)

def senderRevoke (node : Node) (inbox : DirectedInbox) (peer : PeerId) (id : B32) :
    DirectedResponse × DirectedInbox :=
  if ¬ node.dataDir then (.error "revoke not available (no data dir)", inbox)
  else if ¬ inbox.incomingPeerIsBound id peer then
    (.error "unauthorized or unknown directed envelope", inbox)
  else
    match inbox.loadIncoming id with
    | none => (.error "unauthorized or unknown directed envelope", inbox)
    | some envelope =>
      if envelope.state = .senderRevoked then (.revoked id, inbox)
      else if envelope.state.isTerminal then
        (.error s!"cannot revoke terminal envelope (state: {envelope.state.debug})", inbox)
      else
        inbox.persist id (envelope.setState .senderRevoked) true "persist revoke: " (.revoked id)

/-! ## Events of the node -/

/-- `DirectedEnvelopeReceived`: what the sender wrote in the state and in the counters is
replaced in a second write. -/
def envelopeReceived (T : Texts) (inbox : DirectedInbox) (peer : PeerId)
    (envelope : DirectedEnvelope) (draws : Draws) (now : Nat) : DirectedInbox :=
  let id := envelope.envelopeId
  if (inbox.loadIncoming id).isSome then inbox
  else
    match inbox.bindIncomingPeerId id peer with
    | .error _ => inbox
    | .ok bound =>
      match bound.saveIncoming envelope with
      | .error _ => bound
      | .ok saved =>
        let challenge := generateChallenge T draws
        let coded := saved.saveChallengeCode id challenge.1
        match coded.loadIncoming id with
        | none => coded
        | some held =>
          coded.trySave { held with
            state := .challengeIssued
            challengeHash := some challenge.2
            challengeAttemptsRemaining := challengeMaxAttempts
            passwordAttemptsRemaining := passwordMaxAttempts
            challengeExpiresAt := saturatingAdd now challengeTtlSecs }

/-- `DirectedRevokeReceived`. -/
def revokeReceived (inbox : DirectedInbox) (id : B32) : DirectedInbox :=
  match inbox.updateIncomingState id .senderRevoked with
  | .ok saved => saved
  | .error _ => inbox

/-- One invite a holder kept: it is taken when it is for this recipient and can be saved. -/
def collectInvite (me : B32) (inbox : DirectedInbox) (envelope : DirectedEnvelope) : DirectedInbox × Bool :=
  if envelope.recipientPubkey ≠ me then (inbox, false)
  else
    match inbox.saveIncoming envelope with
    | .ok saved => (saved, true)
    | .error _ => (inbox, false)

/-! ## Commands of the user -/

structure EnvelopePayload where
  mid : List Char
  dataShards : UInt8
  totalShards : UInt8
  contentNonce : ByteVec 24
  filename : Option (List Char)
  fileSize : Nat

/-- The ciphers of a share under the secret of the recipient, and `ContentId::from_str`. -/
structure Opening where
  decryptEnvelopePayload : DirectedEnvelope → Except String EnvelopePayload
  deriveContentKey : DirectedEnvelope → List Char → Except String B32
  contentId : List Char → Except String B32
  decryptDirectedContent : B32 → ByteVec 24 → Bytes → Option Bytes

structure Retrieval where
  envelope : DirectedEnvelope
  payload : EnvelopePayload
  contentKey : B32
  mid : B32

def retrieveLoad (O : Opening) (inbox : DirectedInbox) (id : B32) (password : List Char)
    (now : Nat) : Except String Retrieval × DirectedInbox :=
  match inbox.loadIncoming id with
  | none => (.error "load envelope", inbox)
  | some envelope =>
    if ¬ envelope.state.isRetrievable then
      (.error s!"envelope not retrievable (state: {envelope.state.debug})", inbox)
    else if envelope.isExpired now then
      (.error "envelope expired", inbox.trySave (envelope.setState .expired))
    else if envelope.passwordAttemptsRemaining = 0 then
      (.error "max password attempts exceeded", inbox.trySave (envelope.setState .passwordFailed))
    else
      (do
        let payload ← O.decryptEnvelopePayload envelope
        let contentKey ← O.deriveContentKey envelope password
        let mid ← O.contentId payload.mid
        return ⟨envelope, payload, contentKey, mid⟩, inbox)

/-- The envelope with one password try less; the last one fails it. -/
def DirectedEnvelope.spendPassword (envelope : DirectedEnvelope) : DirectedEnvelope :=
  let remaining := envelope.passwordAttemptsRemaining - 1
  { envelope with
    passwordAttemptsRemaining := remaining
    state := if remaining = 0 then .passwordFailed else envelope.state }

/-- The content a waiting retrieve command makes of what the network brought. -/
def Retrieval.opens (O : Opening) (retrieval : Retrieval) (data : Bytes) : Option Bytes :=
  O.decryptDirectedContent retrieval.contentKey retrieval.payload.contentNonce data

/-- The retrieve command after its wait: the envelope it loaded is saved again. -/
def retrieveSave (O : Opening) (inbox : DirectedInbox) (retrieval : Retrieval) (answer : Except String Bytes) :
    Except String (Bytes × Option (List Char)) × DirectedInbox :=
  let envelope := retrieval.envelope
  match answer with
  | .error reason => (.error reason, inbox)
  | .ok data =>
    match retrieval.opens O data with
    | some plaintext =>
      (.ok (plaintext, retrieval.payload.filename), (inbox.trySave (envelope.setState .retrieved)).cleanupChallenge
          envelope.envelopeId)
    | none =>
      let spent := envelope.spendPassword
      let cleaned := if spent.passwordAttemptsRemaining = 0 then inbox.cleanupChallenge envelope.envelopeId
        else inbox
      (.error s!"wrong password ({spent.passwordAttemptsRemaining} attempts remaining)", cleaned.trySave spent)

def recipientRevoke (me : B32) (inbox : DirectedInbox) (id : B32) :
    Except String Unit × DirectedInbox :=
  match inbox.loadIncoming id with
  | none => (.error "envelope not found", inbox)
  | some envelope =>
    if envelope.recipientPubkey ≠ me then (.error "envelope not found", inbox)
    else if envelope.state.isTerminal then
      (.error s!"cannot delete: envelope in terminal state ({envelope.state.debug})", inbox)
    else
      match inbox.saveIncoming (envelope.setState .recipientDeleted) with
      | .ok saved => (.ok (), saved.cleanupChallenge id)
      | .error reason => (.error ("save: " ++ reason), inbox)

/-! ## Runs -/

/-- A guess that was tested: a code against the code of a share, or a password against
its content. -/
inductive Trial where
  | code (id : B32) (right : Bool)
  | password (id : B32) (right : Bool)
deriving DecidableEq

structure World where
  inbox : DirectedInbox
  retrievals : List Retrieval
  /-- Every guess so far. -/
  trials : List Trial

inductive Event where
  | invite (peer : PeerId) (envelope : DirectedEnvelope) (now : Nat) (queued : Except String Unit)
  | envelopeReceived (peer : PeerId) (envelope : DirectedEnvelope) (draws : Draws) (now : Nat)
  | revokeReceived (id : B32)
  | collect (envelope : DirectedEnvelope)
  | confirm (peer : PeerId) (id : B32) (code : List Char) (now : Nat)
  | senderRevoke (peer : PeerId) (id : B32)
  | load (id : B32) (password : List Char) (now : Nat)
  /-- The network answers the `n`th waiting command, which saves. -/
  | save (n : Nat) (answer : Except String Bytes)
  | revoke (id : B32)
  | delete (id : B32)
  | expireAll (now : Nat)

structure Recipient where
  node : Node
  sharingPubkey : B32
  texts : Texts
  opening : Opening

def judgedTrials (id : B32) : Option Judgement → List Trial
  | some (.right _) => [.code id true]
  | some (.wrong _) => [.code id false]
  | _ => []

def savedTrials (O : Opening) (retrieval : Retrieval) : Except String Bytes → List Trial
  | .ok data => [.password retrieval.envelope.envelopeId (retrieval.opens O data).isSome]
  | .error _ => []

namespace World

def empty : World := ⟨.empty, [], []⟩

def step (R : Recipient) (w : World) : Event → Option World
  | .invite peer envelope now queued =>
    some { w with inbox := (Directed.invite R.node w.inbox peer envelope now queued).2.1 }
  | .envelopeReceived peer envelope draws now =>
    some { w with inbox := Directed.envelopeReceived R.texts w.inbox peer envelope draws now }
  | .revokeReceived id => some { w with inbox := Directed.revokeReceived w.inbox id }
  | .collect envelope =>
    some { w with inbox := (collectInvite R.sharingPubkey w.inbox envelope).1 }
  | .confirm peer id code now =>
    match Directed.confirm R.texts R.node w.inbox peer id code now with
    | none => some w
    | some (_, inbox) =>
      some { w with
        inbox := inbox
        trials := w.trials ++ (if R.node.dataDir then judgedTrials id (judge R.texts w.inbox peer id code now)
           else []) }
  | .senderRevoke peer id =>
    some { w with inbox := (Directed.senderRevoke R.node w.inbox peer id).2 }
  | .load id password now =>
    match retrieveLoad R.opening w.inbox id password now with
    | (.ok retrieval, inbox) =>
      some { w with inbox := inbox, retrievals := w.retrievals ++ [retrieval] }
    | (.error _, inbox) => some { w with inbox := inbox }
  | .save n answer =>
    match w.retrievals[n]? with
    | none => none
    | some retrieval =>
      some ⟨(retrieveSave R.opening w.inbox retrieval answer).2, w.retrievals.eraseIdx n,
        w.trials ++ savedTrials R.opening retrieval answer⟩
  | .revoke id => some { w with inbox := (recipientRevoke R.sharingPubkey w.inbox id).2 }
  | .delete id => some { w with inbox := w.inbox.deleteIncoming id }
  | .expireAll now => some { w with inbox := w.inbox.expireAll now }

end World

end Miasma.Directed
