import Miasma.Directed.V2.Invite
import Miasma.Directed.V2.Offers

namespace Miasma.Directed.V2

open Data

/-! The intake of a version-2 invite (`directed/v2/invite_intake.rs`) and the two requests that the
node answers for version 2 (`network/node.rs`). -/

/-! ## The directory of the records -/

/-- The version-2 records, each under the id of its envelope. -/
structure Records where
  files : SortedMap B32 IncomingRecord
  filed : ∀ id record, files.get? id = some record → record.wire.envelopeId = id

/-- What the disk does while an invite is handled: whether the inbox opens, whether each
read succeeds and whether the write does. -/
structure Disk where
  opens : Bool
  looks : Bool
  loads : Bool
  writes : Bool
  reloads : Bool

def Disk.sound : Disk := ⟨true, true, true, true, true⟩

namespace Records

def empty : Records := ⟨.empty, fun _ _ found => by simp at found⟩

variable (records : Records)

/-- An unreadable file is an error, as an absent one is. -/
def loadIncomingV2 (id : B32) (reads : Bool) : Option IncomingRecord :=
  if reads then records.files.get? id else none

theorem filed_insert (record : IncomingRecord) (id : B32) (held : IncomingRecord)
    (found : (records.files.insert record.wire.envelopeId record).get? id = some held) :
    held.wire.envelopeId = id := by
  rcases SortedMap.get?_insert_cases found with ⟨rfl, rfl⟩ | ⟨-, old⟩
  · rfl
  · exact records.filed id held old

/-- Whether the record was created; no result on an error.  A file that is there is left
alone. -/
def storeIncomingV2New (record : IncomingRecord) (writes : Bool) : Option (Bool × Records) :=
  if records.files.contains record.wire.envelopeId then some (false, records)
  else if maxEnvelopes ≤ records.files.size then none
  else if writes then
    some (true, ⟨records.files.insert record.wire.envelopeId record, records.filed_insert record⟩)
  else none

end Records

/-! ## The intake -/

structure IntakeOutcome where
  transcriptHash : B32
  /-- This call wrote the record. -/
  created : Bool

/-- The record is the one of this invite; one without a pinned transcript is judged by its
peer alone. -/
def existingMatches (existing : IncomingRecord) (transcriptHash : B32) (sender : PeerId) : Bool :=
  match existing.localFields with
  | none => false
  | some fields =>
    fields.senderPeerId = sender && match fields.transcriptHash with
      | some stored => stored = transcriptHash
      | none => true

/-- An invite under the id of a record is a resend of it or a conflict. -/
def judgeExisting (existing : IncomingRecord) (transcriptHash : B32) (sender : PeerId) :
    Except InviteIntakeError IntakeOutcome :=
  if existingMatches existing transcriptHash sender then .ok ⟨transcriptHash, false⟩
  else .error .idConflict

def intakeResendIfStored (L : Libraries) (records : Records) (envelope : DirectedEnvelope)
    (ext : InviteExt) (ctx : ResendContext) (disk : Disk) :
    Except InviteIntakeError (Option IntakeOutcome) :=
  match records.loadIncomingV2 envelope.envelopeId disk.looks with
  | none => .ok none
  | some existing =>
    (verifyInviteNoOffer L envelope ext ctx).bind (fun transcriptHash =>
      (judgeExisting existing transcriptHash ctx.transportPeerId).map some)

def newRecord (T : Texts) (envelope : DirectedEnvelope) (sender : PeerId) (secret : B32)
    (transcriptHash : B32) (draws : Draws) (now : Now) : IncomingRecord :=
  let record := IncomingRecord.newIncoming envelope none sender .v2
    (freshChallenge (generateChallenge T draws).2 now) passwordMaxAttempts (some secret) now
  { record with localFields := record.localFields.map (fun fields =>
    { fields with transcriptHash := some transcriptHash }) }

def intakeInvite (L : Libraries) (records : Records) (envelope : DirectedEnvelope)
    (ext : InviteExt) (ctx : InviteRecipientContext) (disk : Disk) (draws : Draws) (now : Now) :
    Except InviteIntakeError IntakeOutcome × Records :=
  match verifyInvite L envelope ext ctx now with
  | .error e => (.error e, records)
  | .ok transcriptHash =>
    match records.loadIncomingV2 envelope.envelopeId disk.loads with
    | some existing => (judgeExisting existing transcriptHash ctx.transportPeerId, records)
    | none =>
      let record := newRecord L.texts envelope ctx.transportPeerId ctx.offerREphSecret transcriptHash draws now
      match records.storeIncomingV2New record disk.writes with
      | none => (.error .storage, records)
      | some (true, written) => (.ok ⟨transcriptHash, true⟩, written)
      | some (false, _) =>
        -- The file is there after all, and was not readable before.
        match records.loadIncomingV2 envelope.envelopeId disk.reloads with
        | some existing => (judgeExisting existing transcriptHash ctx.transportPeerId, records)
        | none => (.error .storage, records)

/-! ## The node -/

structure PendingDirectedOffer where
  requestId : B16
  rEphPub : B32
  rEphSecret : B32

structure SignedOffer where
  suite : UInt8
  offerId : OfferId
  requestId : B16
  requester : Bytes
  recipientIdentity : B32
  recipientSharing : B32
  recipientBinding : ByteVec 64
  recipientEphemeral : B32
  ttlSecs : Nat
  signature : ByteVec 64

inductive Response where
  | error (text : String)
  | prekeyOffer (offer : SignedOffer)
  | inviteStored (envelopeId transcriptHash : B32)

/-- `error_string`. -/
def errorString (code detail : String) : String := s!"directed-v2:{code}: {detail}"

def InviteIntakeError.response : InviteIntakeError → Response
  | .unsupportedSuite => .error (errorString "unsupported_suite" "unsupported suite")
  | .badLifecycle => .error (errorString "bad_lifecycle" "bad lifecycle fields")
  | .kdfOutOfRange => .error (errorString "kdf_out_of_range" "kdf cost out of range")
  | .expired => .error (errorString "offer_expired" "window closed")
  | .offerMismatch => .error (errorString "offer_unknown" "offer id or r_eph mismatch")
  | .notForThisRecipient => .error (errorString "key_mismatch" "not addressed to this recipient")
  | .peerMismatch => .error (errorString "peer_mismatch" "sender peer id mismatch")
  | .badBinding => .error (errorString "bad_signature" "sender binding did not verify")
  | .badSignature => .error (errorString "bad_signature" "transcript signature did not verify")
  | .idConflict => .error (errorString "id_conflict" "envelope id reused with different content")
  | .storage => .error (errorString "storage_failed" "persist failed")

/-- The settings of the node: its signing key, the sharing key once it is set, and whether
it has a data directory. -/
structure Node where
  signingKey : B32
  recipientPubkey : Option B32
  dataDir : Bool

structure State where
  offers : OfferTable PendingDirectedOffer
  records : Records

def State.empty : State := ⟨.empty, .empty⟩

namespace Node

variable (node : Node) (L : Libraries)

/-- `sign_offer` of `canonical_bytes`. -/
def signOffer (offer : SignedOffer) : ByteVec 64 :=
  L.prim.sign node.signingKey (L.prim.deriveKey "miasma directed v2 prekey offer"
    ([offer.suite] ++ offer.offerId.toList ++ offer.requestId.toList ++
      toLE 2 offer.requester.length ++ offer.requester ++ offer.recipientIdentity.toList ++
      offer.recipientSharing.toList ++ offer.recipientBinding.toList ++
      offer.recipientEphemeral.toList ++ toLE 4 offer.ttlSecs))

/-- A prekey request.  The ephemeral secret and the identifier of the offer are drawn. -/
def prekeyRequest (offers : OfferTable PendingDirectedOffer) (peer : PeerId)
    (requestId : B16) (suites : Bytes) (secret : B32) (offerId : OfferId)
    (nowSecs : Nat) : Response × OfferTable PendingDirectedOffer :=
  if ¬ suites.contains suiteV2 then
    (.error (errorString "unsupported_suite" "only suite 2 is offered"), offers)
  else match node.recipientPubkey with
    | none => (.error (errorString "offer_unknown" "recipient sharing key unavailable"), offers)
    | some sharing =>
      if ¬ offers.hasCapacityForNew peer nowSecs then
        (.error (errorString "offer_unknown" "too many unspent offers for this peer"), offers)
      else
        let unsigned : SignedOffer := {
          suite := suiteV2
          offerId := offerId
          requestId := requestId
          requester := peer.bytes
          recipientIdentity := L.prim.verifyingKey node.signingKey
          recipientSharing := sharing
          recipientBinding := L.signBinding node.signingKey sharing
          recipientEphemeral := L.publicKey secret
          ttlSecs := offerTtl
          signature := default }
        let pending : PendingDirectedOffer := ⟨requestId, L.publicKey secret, secret⟩
        match offers.insert peer offerId pending nowSecs with
        | (offers, false) =>
          (.error (errorString "offer_unknown" "too many unspent offers for this peer"), offers)
        | (offers, true) =>
          (.prekeyOffer { unsigned with signature := node.signOffer L unsigned }, offers)

/-- What an invite gives besides the answer: the state, and the event of version 1 for the
daemon. -/
abbrev Handled := Response × State × Option (PeerId × DirectedEnvelope)

/-- An invite whose offer was taken out. -/
def inviteWithOffer (state : State) (peer : PeerId) (envelope : DirectedEnvelope) (ext : InviteExt)
    (ctx : ResendContext) (offer : PendingDirectedOffer) (disk : Disk) (draws : Draws) (now : Now)
    (nowSecs : Nat) : Handled :=
  match intakeInvite L state.records envelope ext { ctx with
        expectedOfferId := ext.offerId
        offerREphPub := offer.rEphPub
        offerREphSecret := offer.rEphSecret } disk draws now with
  | (.ok outcome, records) =>
    (.inviteStored envelope.envelopeId outcome.transcriptHash, { state with records := records },
      if outcome.created then some (peer, envelope) else none)
  | (.error .storage, records) =>
    -- The offer is as old as this instant from now on.
    (InviteIntakeError.storage.response, ⟨(state.offers.insert peer ext.offerId offer nowSecs).1, records⟩, none)
  | (.error e, records) => (e.response, { state with records := records }, none)

def invite (state : State) (peer : PeerId) (envelope : DirectedEnvelope) (ext : InviteExt)
    (disk : Disk) (draws : Draws) (now : Now) (nowSecs : Nat) : Handled :=
  let refuse (code detail : String) : Handled := (.error (errorString code detail), state, none)
  if ¬ node.dataDir then refuse "offer_unknown" "directed invite persistence unavailable"
  else match node.recipientPubkey with
    | none => refuse "offer_unknown" "recipient sharing key unavailable"
    | some sharing =>
      match L.peerId ext.senderIdentity with
      | none => refuse "peer_mismatch" "sender identity is not a valid ed25519 key"
      | some senderIdentityPeerId =>
        if ¬ disk.opens then refuse "offer_unknown" "open inbox failed"
        else
          let ctx : ResendContext := ⟨L.prim.verifyingKey node.signingKey, sharing, senderIdentityPeerId, peer⟩
          match intakeResendIfStored L state.records envelope ext ctx disk with
          | .ok (some outcome) =>
            (.inviteStored envelope.envelopeId outcome.transcriptHash, state, none)
          | .error e => (e.response, state, none)
          | .ok none =>
            match state.offers.take peer ext.offerId nowSecs with
            | (none, offers) =>
              (.error (errorString "offer_unknown" "no live offer for this id"),
                { state with offers := offers }, none)
            | (some offer, offers) =>
              inviteWithOffer L { state with offers := offers } peer envelope ext ctx offer disk draws now nowSecs

end Node

/-! ## What an invite does -/

/-- The cases of `Node.invite`: nothing, an offer that is spent for nothing, one that is
put back, and one that becomes a record. -/
inductive Handles (L : Libraries) (state : State) (peer : PeerId) (envelope : DirectedEnvelope)
    (ext : InviteExt) (disk : Disk) (draws : Draws) (now : Now) (nowSecs : Nat) :
    State → Option (PeerId × DirectedEnvelope) → Prop
  | kept : Handles L state peer envelope ext disk draws now nowSecs state none
  | spent : Handles L state peer envelope ext disk draws now nowSecs
      ⟨(state.offers.take peer ext.offerId nowSecs).2, state.records⟩ none
  | restored {offer : PendingDirectedOffer}
      (taken : (state.offers.take peer ext.offerId nowSecs).1 = some offer)
      (failed : disk.writes = false ∨ disk.reloads = false ∨ maxEnvelopes ≤ state.records.files.size) :
      Handles L state peer envelope ext disk draws now nowSecs
        ⟨((state.offers.take peer ext.offerId nowSecs).2.insert peer ext.offerId offer nowSecs).1, state.records⟩ none
  | stored {offer : PendingDirectedOffer} {hash : B32} {records : Records}
      (taken : (state.offers.take peer ext.offerId nowSecs).1 = some offer)
      (ephemeral : ext.recipientEphemeral = offer.rEphPub)
      (absent : state.records.files.get? envelope.envelopeId = none)
      (files : records.files = state.records.files.insert envelope.envelopeId
        (newRecord L.texts envelope peer offer.rEphSecret hash draws now)) :
      Handles L state peer envelope ext disk draws now nowSecs
        ⟨(state.offers.take peer ext.offerId nowSecs).2, records⟩ (some (peer, envelope))

section Inversion

variable {L : Libraries}

theorem storeIncomingV2New_spec (records : Records) (record : IncomingRecord) (writes : Bool) :
    match records.storeIncomingV2New record writes with
    | none => records.files.get? record.wire.envelopeId = none ∧
        (writes = false ∨ maxEnvelopes ≤ records.files.size)
    | some (false, after) => after = records ∧ ∃ held, records.files.get? record.wire.envelopeId = some held
    | some (true, after) => records.files.get? record.wire.envelopeId = none ∧
        after.files = records.files.insert record.wire.envelopeId record := by
  unfold Records.storeIncomingV2New
  by_cases there : records.files.contains record.wire.envelopeId
  · simp only [there, if_true, true_and]
    exact Option.isSome_iff_exists.mp there
  have absent : records.files.get? record.wire.envelopeId = none := by
    simpa [SortedMap.contains] using there
  by_cases full : maxEnvelopes ≤ records.files.size
  · simp [there, full, absent]
  · cases writes <;> simp [there, full, absent]

theorem judgeExisting_cases {hash : B32} :
    judgeExisting existing hash sender = .ok ⟨hash, false⟩ ∨
      judgeExisting existing hash sender = .error .idConflict := by
  unfold judgeExisting
  split
  · exact .inl rfl
  · exact .inr rfl

inductive Took (L : Libraries) (records : Records) (envelope : DirectedEnvelope)
    (ext : InviteExt) (ctx : InviteRecipientContext) (disk : Disk) (draws : Draws) (now : Now) :
    Except InviteIntakeError IntakeOutcome → Records → Prop
  | refused {e : InviteIntakeError} (other : e ≠ .storage) :
      Took L records envelope ext ctx disk draws now (.error e) records
  | matched (hash : B32) : Took L records envelope ext ctx disk draws now (.ok ⟨hash, false⟩) records
  | failed (disk_ : disk.writes = false ∨ disk.reloads = false ∨ maxEnvelopes ≤ records.files.size) :
      Took L records envelope ext ctx disk draws now (.error .storage) records
  | created {hash : B32} {written : Records} (verified : Verified L envelope ext ctx now hash)
      (absent : records.files.get? envelope.envelopeId = none)
      (files : written.files = records.files.insert envelope.envelopeId
        (newRecord L.texts envelope ctx.transportPeerId ctx.offerREphSecret hash draws now)) :
      Took L records envelope ext ctx disk draws now (.ok ⟨hash, true⟩) written

variable {envelope : DirectedEnvelope}

theorem took_existing {hash : B32} :
    Took L records envelope ext ctx disk draws now (judgeExisting existing hash sender) records := by
  rcases judgeExisting_cases with same | conflict
  · exact same ▸ .matched hash
  · exact conflict ▸ .refused (by simp)

theorem took (records : Records) (envelope : DirectedEnvelope) (ext : InviteExt)
    (ctx : InviteRecipientContext) (disk : Disk) (draws : Draws) (now : Now) :
    Took L records envelope ext ctx disk draws now (intakeInvite L records envelope ext ctx disk draws now).1
      (intakeInvite L records envelope ext ctx disk draws now).2 := by
  unfold intakeInvite
  cases checked : verifyInvite L envelope ext ctx now with
  | error =>
    refine .refused ?_
    rintro rfl
    exact verifyInvite_ne_storage checked
  | ok hash =>
    cases records.loadIncomingV2 envelope.envelopeId disk.loads with
    | some existing => exact took_existing
    | none =>
      simp only
      generalize made : newRecord L.texts envelope ctx.transportPeerId ctx.offerREphSecret hash draws now = record
      have id : record.wire.envelopeId = envelope.envelopeId := made ▸ rfl
      have stores := storeIncomingV2New_spec records record disk.writes
      generalize records.storeIncomingV2New record disk.writes = result at stores ⊢
      rw [id] at stores
      cases result with
      | none =>
        obtain ⟨-, failed | full⟩ := stores
        · exact .failed (.inl failed)
        · exact .failed (.inr (.inr full))
      | some pair =>
        obtain ⟨created, written⟩ := pair
        cases created with
        | true =>
          obtain ⟨absent, files⟩ := stores
          exact .created (verifyInvite_ok checked) absent (made ▸ files)
        | false =>
          obtain ⟨-, held, there⟩ := stores
          simp only [Records.loadIncomingV2]
          cases reads : disk.reloads with
          | true =>
            simp only [if_true, there]
            exact took_existing
          | false => exact .failed (.inr (.inl reads))

theorem handles_with_offer (transport : ctx.transportPeerId = peer)
    (taken : (state.offers.take peer ext.offerId nowSecs).1 = some offer) :
    Handles L state peer envelope ext disk draws now nowSecs
      (Node.inviteWithOffer L { state with offers := (state.offers.take peer ext.offerId nowSecs).2 }
        peer envelope ext ctx offer disk draws now nowSecs).2.1
      (Node.inviteWithOffer L { state with offers := (state.offers.take peer ext.offerId nowSecs).2 }
        peer envelope ext ctx offer disk draws now nowSecs).2.2 := by
  unfold Node.inviteWithOffer
  have took := took (L := L) state.records envelope ext { ctx with
      expectedOfferId := ext.offerId
      offerREphPub := offer.rEphPub
      offerREphSecret := offer.rEphSecret } disk draws now
  generalize intakeInvite L state.records envelope ext _ disk draws now = result at took ⊢
  obtain ⟨answer, records⟩ := result
  cases took with
  | refused other =>
    split
    · next same => cases same
    · next same =>
        cases same
        exact absurd rfl other
    · next same =>
        cases same
        exact .spent
  | matched => exact .spent
  | failed disk_ => exact .restored taken disk_
  | created verified absent files =>
    exact .stored taken verified.ephemeral absent (transport ▸ files)

theorem handles (node : Node) (state : State) (peer : PeerId) (envelope : DirectedEnvelope)
    (ext : InviteExt) (disk : Disk) (draws : Draws) (now : Now) (nowSecs : Nat) :
    Handles L state peer envelope ext disk draws now nowSecs
      (node.invite L state peer envelope ext disk draws now nowSecs).2.1
      (node.invite L state peer envelope ext disk draws now nowSecs).2.2 := by
  unfold Node.invite
  simp only
  split
  · exact .kept
  split
  · exact .kept
  next sharing _ =>
  split
  · exact .kept
  next identity _ =>
  split
  · exact .kept
  split
  · exact .kept
  · exact .kept
  split
  · next offers taken =>
      have left : offers = (state.offers.take peer ext.offerId nowSecs).2 := by rw [taken]
      exact left ▸ .spent
  · next offer offers taken =>
      have left : offers = (state.offers.take peer ext.offerId nowSecs).2 := by rw [taken]
      exact left ▸ handles_with_offer rfl (by rw [taken])

end Inversion

end Miasma.Directed.V2
