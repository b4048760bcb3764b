import Miasma.Data.Outcome
import Miasma.Primitives
import Miasma.Directed.V2.Record

namespace Miasma.Directed.V2

open Data

/-! What a version-2 invite signs and how its recipient checks it (`directed/v2/wire.rs`,
`transcript.rs`, `credential.rs`, and the checks of `invite_intake.rs`). -/

/-- What the node takes from its libraries. -/
structure Libraries where
  prim : Primitives
  /-- `blake3::hash`. -/
  blake3 : Bytes → B32
  /-- The X25519 public key of a secret. -/
  publicKey : B32 → B32
  /-- The peer of an Ed25519 key, if it is one. -/
  peerId : B32 → Option PeerId
  texts : Texts

def suiteV2 : UInt8 := 2

structure KdfParams where
  mKib : UInt32
  tCost : UInt32
  pCost : UInt32
deriving DecidableEq

structure InviteExt where
  suite : UInt8
  kdf : KdfParams
  senderIdentity : B32
  senderBinding : ByteVec 64
  recipientIdentity : B32
  offerId : B16
  recipientEphemeral : B32
  wrappedDek : Bytes
  dekNonce : ByteVec 24
  signature : ByteVec 64
deriving DecidableEq

/-! ## The cost of a password -/

def maxMKib : UInt32 := 131072
def maxTCost : UInt32 := 6
def maxPCost : UInt32 := 2
def minMKib : UInt32 := 8

/-- The first parameter out of range; `8 * p` is below the end of `u32` here. -/
def checkKdfBounds (kdf : KdfParams) : Except String Unit :=
  let oor (what : String) : Except String Unit := .error s!"kdf out of range: {what}"
  if kdf.pCost < 1 ∨ maxPCost < kdf.pCost then oor "p_cost"
  else if kdf.tCost < 1 ∨ maxTCost < kdf.tCost then oor "t_cost"
  else if kdf.mKib < minMKib ∨ maxMKib < kdf.mKib then oor "m_kib"
  else if kdf.mKib.toNat < 8 * kdf.pCost.toNat then oor "m_kib_vs_p"
  else .ok ()

/-! ## The transcript -/

variable (envelope : DirectedEnvelope)

def headerBytes (ext : InviteExt) : Bytes :=
  [envelope.version, ext.suite] ++ envelope.envelopeId.toList ++ ext.senderIdentity.toList ++
    envelope.senderPubkey.toList ++ ext.recipientIdentity.toList ++ envelope.recipientPubkey.toList ++
    envelope.ephemeralPubkey.toList ++ ext.recipientEphemeral.toList ++ ext.offerId.toList ++
    toLE 4 ext.kdf.mKib.toNat ++ toLE 4 ext.kdf.tCost.toNat ++ toLE 4 ext.kdf.pCost.toNat ++
    envelope.passwordSalt.toList ++ toLE 8 envelope.createdAt ++ toLE 8 envelope.expiresAt ++
    toLE 8 envelope.retentionSecs

namespace Libraries

variable (L : Libraries) (envelope : DirectedEnvelope)

/-- `H_hdr`. -/
def hHdr (ext : InviteExt) : B32 := L.prim.deriveKey "miasma directed v2 header" (headerBytes envelope ext)

def sigMsg (ext : InviteExt) : B32 := L.prim.deriveKey "miasma directed v2 envelope signature"
    ((L.hHdr envelope ext).toList ++ envelope.payloadNonce.toList ++
      (L.blake3 envelope.encryptedPayload).toList ++ ext.dekNonce.toList ++
      (L.blake3 ext.wrappedDek).toList ++ ext.senderBinding.toList)

def transcriptHash (ext : InviteExt) : B32 := L.blake3 ((L.sigMsg envelope ext).toList ++ ext.signature.toList)

def verifies (identity digest : B32) (signature : ByteVec 64) : Bool :=
  L.prim.keyParses identity && L.prim.verifyStrict identity digest signature

def verifyTranscript (ext : InviteExt) : Bool := L.verifies ext.senderIdentity (L.sigMsg envelope ext) ext.signature

def bindingDigest (identity sharing : B32) : B32 :=
  L.prim.deriveKey "miasma sharing key binding v1" (identity.toList ++ sharing.toList)

def signBinding (signingKey sharing : B32) : ByteVec 64 :=
  L.prim.sign signingKey (L.bindingDigest (L.prim.verifyingKey signingKey) sharing)

def verifyBinding (identity sharing : B32) (signature : ByteVec 64) : Bool :=
  L.verifies identity (L.bindingDigest identity sharing) signature

end Libraries

/-! ## The checks of the recipient -/

inductive InviteIntakeError where
  | unsupportedSuite
  | badLifecycle
  | kdfOutOfRange
  | expired
  | offerMismatch
  | notForThisRecipient
  | peerMismatch
  | badBinding
  | badSignature
  | idConflict
  | storage

/-- What the recipient knows without the offer. -/
structure ResendContext where
  ownIdentity : B32
  ownSharing : B32
  /-- The peer of the identity that the invite names. -/
  senderIdentityPeerId : PeerId
  /-- The peer that the invite comes from; it is also the one that is recorded. -/
  transportPeerId : PeerId

structure InviteRecipientContext extends ResendContext where
  expectedOfferId : B16
  offerREphPub : B32
  offerREphSecret : B32

/-- The sender leaves the fields of the recipient alone. -/
def lifecycleOk : Bool := envelope.state = .pending && envelope.challengeHash = none &&
    envelope.passwordAttemptsRemaining = 0 && envelope.challengeAttemptsRemaining = 0 &&
    envelope.challengeExpiresAt = 0

/-- Suite, fields of the recipient, cost of the password. -/
def verifyForm (ext : InviteExt) : Except InviteIntakeError Unit :=
  if envelope.version ≠ suiteV2 ∨ ext.suite ≠ suiteV2 then .error .unsupportedSuite
  else if ¬ lifecycleOk envelope then .error .badLifecycle
  else match checkKdfBounds ext.kdf with
    | .error _ => .error .kdfOutOfRange
    | .ok () => .ok ()

def verifyParties (L : Libraries) (envelope : DirectedEnvelope) (ext : InviteExt)
    (ctx : ResendContext) : Except InviteIntakeError B32 :=
  if ext.recipientIdentity ≠ ctx.ownIdentity ∨ envelope.recipientPubkey ≠ ctx.ownSharing then
    .error .notForThisRecipient
  else if ctx.senderIdentityPeerId ≠ ctx.transportPeerId then .error .peerMismatch
  else if ¬ L.verifyBinding ext.senderIdentity envelope.senderPubkey ext.senderBinding then
    .error .badBinding
  else if ¬ L.verifyTranscript envelope ext then .error .badSignature
  else .ok (L.transcriptHash envelope ext)

/-- The checks that do not read the offer, for an invite that may be a resend. -/
def verifyInviteNoOffer (L : Libraries) (envelope : DirectedEnvelope) (ext : InviteExt)
    (ctx : ResendContext) : Except InviteIntakeError B32 := do
  verifyForm envelope ext
  verifyParties L envelope ext ctx

def verifyInvite (L : Libraries) (envelope : DirectedEnvelope) (ext : InviteExt)
    (ctx : InviteRecipientContext) (now : Now) : Except InviteIntakeError B32 := do
  verifyForm envelope ext
  if envelope.isExpired now.wallSecs then .error .expired
  else if ext.offerId ≠ ctx.expectedOfferId then .error .offerMismatch
  else if ext.recipientEphemeral ≠ ctx.offerREphPub then .error .offerMismatch
  else verifyParties L envelope ext ctx.toResendContext

/-- What an invite that passes has in common with its offer and its sender. -/
structure Verified (L : Libraries) (envelope : DirectedEnvelope) (ext : InviteExt)
    (ctx : InviteRecipientContext) (now : Now) (hash : B32) : Prop where
  pending : envelope.state = .pending
  live : now.wallSecs < envelope.expiresAt
  ephemeral : ext.recipientEphemeral = ctx.offerREphPub
  recipient : envelope.recipientPubkey = ctx.ownSharing
  sender : ctx.senderIdentityPeerId = ctx.transportPeerId
  signed : L.verifyTranscript envelope ext = true
  pinned : hash = L.transcriptHash envelope ext

variable {envelope : DirectedEnvelope} {ext : InviteExt} {ctx : InviteRecipientContext}

theorem verifyInvite_ne_storage : verifyInvite L envelope ext ctx now ≠ .error .storage := by
  have form : verifyForm envelope ext ≠ .error .storage := by
    unfold verifyForm
    repeat' split
    all_goals simp
  have parties : verifyParties L envelope ext ctx.toResendContext ≠ .error .storage := by
    unfold verifyParties
    repeat' split
    all_goals simp
  unfold verifyInvite
  cases checked : verifyForm envelope ext with
  | error => simpa [Bind.bind, Except.bind, checked] using form
  | ok =>
    simp only [Bind.bind, Except.bind]
    repeat' split
    all_goals first | exact parties | simp

theorem verifyForm_ok (passed : verifyForm envelope ext = .ok ()) : envelope.state = .pending := by
  simp only [verifyForm, ite_ok_iff, not_not] at passed
  have fields := passed.2.1
  simp only [lifecycleOk, Bool.and_eq_true, decide_eq_true_eq] at fields
  exact fields.1.1.1.1

theorem verifyInvite_ok {hash : B32} (passed : verifyInvite L envelope ext ctx now = .ok hash) :
    Verified L envelope ext ctx now hash := by
  obtain ⟨form, rest⟩ := check_ok_iff.mp passed
  simp only [ite_ok_iff, not_not, verifyParties, not_or, Except.ok.injEq] at rest
  obtain ⟨live, -, ephemeral, ⟨-, recipient⟩, sender, -, signed, pinned⟩ := rest
  refine ⟨verifyForm_ok form, ?_, ephemeral, recipient, sender, signed, pinned.symm⟩
  simpa [DirectedEnvelope.isExpired] using live

end Miasma.Directed.V2
