import Miasma.Directed.Inbox

namespace Miasma.Directed.V2

open Data

/-! The record of a version-2 share at its recipient (`directed/state.rs`, `directed/state_step.rs`). -/

inductive Protection where
  | v2
  | legacyV1

/-- A deadline on the monotonic clock of the node; the wall time is for display. -/
structure MonoDeadline where
  issuedMonoMs : Nat
  ttlMs : Nat
  wallExpiresAt : Nat

/-- A reading before the issue is not expired. -/
def MonoDeadline.isExpired (deadline : MonoDeadline) (nowMonoMs : Nat) : Bool :=
  if deadline.issuedMonoMs ≤ nowMonoMs then deadline.ttlMs ≤ nowMonoMs - deadline.issuedMonoMs
  else false

theorem MonoDeadline.isExpired_iff {deadline : MonoDeadline} :
    deadline.isExpired nowMonoMs = true ↔ deadline.issuedMonoMs + deadline.ttlMs ≤ nowMonoMs := by
  unfold MonoDeadline.isExpired
  split
  · rw [decide_eq_true_iff]
    omega
  · simp only [Bool.false_eq_true, false_iff]
    omega

structure ChallengeLocal where
  hash : B32
  attemptsRemaining : Nat
  expires : MonoDeadline

structure IncomingLocal where
  state : EnvelopeState
  challenge : Option ChallengeLocal
  passwordAttemptsRemaining : Nat
  /-- A try was spent on an attempt that is not decided yet. -/
  passwordAttemptPending : Bool
  receivedAt : Nat
  effectiveExpiresAt : Nat
  senderPeerId : PeerId
  protection : Protection
  transcriptHash : Option B32
  /-- The ephemeral secret that opens the share. -/
  rEphSecret : Option B32

structure IncomingRecord where
  wire : DirectedEnvelope
  /-- The opaque credential of a sender. -/
  ext : Option Bytes
  /-- Absent in a record of version 1. -/
  localFields : Option IncomingLocal

structure Now where
  wallSecs : Nat
  monoMs : Nat

/-- Never past what this node keeps. -/
def clampExpiry (senderExpiresAt receivedWallSecs : Nat) : Nat :=
  min senderExpiresAt (saturatingAdd receivedWallSecs maxRetentionSecs)

/-- `u64::saturating_mul` of the challenge lifetime. -/
def challengeTtlMs : Nat := challengeTtlSecs * 1000

def freshChallenge (hash : B32) (now : Now) : ChallengeLocal := ⟨hash, challengeMaxAttempts,
    ⟨now.monoMs, challengeTtlMs, saturatingAdd now.wallSecs challengeTtlSecs⟩⟩

def IncomingRecord.newIncoming (wire : DirectedEnvelope) (ext : Option Bytes)
    (senderPeerId : PeerId) (protection : Protection) (challenge : ChallengeLocal)
    (passwordAttemptsRemaining : Nat) (rEphSecret : Option B32) (now : Now) :
    IncomingRecord :=
  ⟨wire, ext, some {
    state := .challengeIssued
    challenge := some challenge
    passwordAttemptsRemaining := passwordAttemptsRemaining
    passwordAttemptPending := false
    receivedAt := now.wallSecs
    effectiveExpiresAt := clampExpiry wire.expiresAt now.wallSecs
    senderPeerId := senderPeerId
    protection := protection
    transcriptHash := none
    rEphSecret := rEphSecret }⟩

/-! ## Steps -/

inductive IncomingEvent where
  | confirm (code : List Char)
  | passwordAttemptStart
  | retrievedOk
  | passwordWrong
  | retrievalNetworkFailure
  | senderRevoke
  | recipientDelete
  | expiryTick
  | challengeTimeout
deriving DecidableEq

structure Effects where
  clearChallenge : Bool := false
  clearREph : Bool := false
  reachedTerminal : Bool := false
  deleteFile : Bool := false
  noWrite : Bool := false

/-- The event does not apply in this state. -/
inductive Illegal where
  | illegal

namespace IncomingLocal

variable (fields : IncomingLocal)

/-- The challenge is over and lost: the record goes. -/
def failChallenge : IncomingLocal × Except Illegal Effects :=
  ({ fields with state := .challengeFailed, challenge := none, rEphSecret := none }, .ok {
      clearChallenge := true
      clearREph := true
      reachedTerminal := true
      deleteFile := true })

/-- The share ends in a terminal state that is kept. -/
def finish (state : EnvelopeState) : IncomingLocal × Except Illegal Effects :=
  ({ fields with state := state, challenge := none, rEphSecret := none },
    .ok { clearChallenge := true, clearREph := true, reachedTerminal := true })

/-- The try of the attempt under way is given back. -/
def giveBack : IncomingLocal := if fields.passwordAttemptPending then
    { fields with
      passwordAttemptsRemaining := fields.passwordAttemptsRemaining + 1
      passwordAttemptPending := false }
  else fields

/-- A confirmation while the challenge is open; no result where the program panics. -/
def confirm (T : Texts) (code : List Char) (now : Now) : Option (IncomingLocal × Except Illegal Effects) :=
  match fields.challenge with
  | none => some (fields, .error .illegal)
  | some challenge =>
    if challenge.expires.isExpired now.monoMs then some fields.failChallenge
    else
      match T.verifyChallenge code challenge.hash with
      | none => none
      | some true =>
        some ({ fields with state := .confirmed, challenge := none }, .ok { clearChallenge := true })
      | some false =>
        if 1 < challenge.attemptsRemaining then
          some ({ fields with challenge := some { challenge with
            attemptsRemaining := challenge.attemptsRemaining - 1 } }, .ok {})
        else some fields.failChallenge

def step (T : Texts) (event : IncomingEvent) (now : Now) : Option (IncomingLocal × Except Illegal Effects) :=
  if fields.state.isTerminal then
    if event = .senderRevoke ∧ fields.state = .senderRevoked then
      some (fields, .ok { noWrite := true })
    else some (fields, .error .illegal)
  else
    match fields.state, event with
    | .challengeIssued, .confirm code => fields.confirm T code now
    | .challengeIssued, .challengeTimeout => some fields.failChallenge
    | .confirmed, .passwordAttemptStart =>
      if fields.passwordAttemptsRemaining = 0 then some (fields, .error .illegal)
      else
        some ({ fields with
          passwordAttemptsRemaining := fields.passwordAttemptsRemaining - 1
          passwordAttemptPending := true }, .ok {})
    | .confirmed, .retrievedOk =>
      some ({ fields.giveBack with state := .retrieved, rEphSecret := none },
        .ok { clearREph := true, reachedTerminal := true })
    | .confirmed, .passwordWrong =>
      if fields.passwordAttemptsRemaining = 0 then
        some ({ fields with
          passwordAttemptPending := false
          state := .passwordFailed
          rEphSecret := none }, .ok { clearREph := true, reachedTerminal := true })
      else some ({ fields with passwordAttemptPending := false }, .ok {})
    | .confirmed, .retrievalNetworkFailure => some (fields.giveBack, .ok {})
    | .challengeIssued, .senderRevoke | .confirmed, .senderRevoke =>
      some (fields.finish .senderRevoked)
    | .challengeIssued, .recipientDelete | .confirmed, .recipientDelete =>
      some (fields.finish .recipientDeleted)
    | .challengeIssued, .expiryTick | .confirmed, .expiryTick =>
      if now.wallSecs < fields.effectiveExpiresAt then some (fields, .error .illegal)
      else some (fields.finish .expired)
    | _, _ => some (fields, .error .illegal)

end IncomingLocal

def IncomingRecord.step (T : Texts) (record : IncomingRecord) (event : IncomingEvent) (now : Now) :
    Option (IncomingRecord × Except Illegal Effects) :=
  match record.localFields with
  | none => some (record, .error .illegal)
  | some fields => (fields.step T event now).map (fun result =>
    ({ record with localFields := some result.1 }, result.2))

inductive StepError where
  | notFound
  | illegal

/-- `step_incoming_v2` on the file of one id: the record is loaded, stepped and written
once, or removed; no result where the program panics. -/
def stepIncomingV2 (T : Texts) (file : Option IncomingRecord) (event : IncomingEvent) (now : Now) :
    Option (Option IncomingRecord × Except StepError Effects) :=
  match file with
  | none => some (none, .error .notFound)
  | some record => (record.step T event now).map (fun result =>
    match result.2 with
    | .error .illegal => (some record, .error .illegal)
    | .ok fx =>
      if fx.noWrite then (some record, .ok fx)
      else if fx.deleteFile then (none, .ok fx)
      else (some result.1, .ok fx))

end Miasma.Directed.V2
