import Miasma.Data.Bytes
import Mathlib.Data.List.Basic

namespace Miasma.Directed

open Data List

/-! The envelope of a directed share (`directed/envelope.rs`) and the confirmation code of its
recipient (`directed/challenge.rs`).  Additions that could leave `u64` stop at its end. -/

inductive EnvelopeState where
  | pending
  | challengeIssued
  | confirmed
  | retrieved
  | senderRevoked
  | recipientDeleted
  | expired
  | challengeFailed
  | passwordFailed
deriving DecidableEq

namespace EnvelopeState

def isTerminal : EnvelopeState → Bool
  | .retrieved | .senderRevoked | .recipientDeleted | .expired | .challengeFailed
  | .passwordFailed => true
  | .pending | .challengeIssued | .confirmed => false

def isRetrievable (state : EnvelopeState) : Bool := state = .confirmed

def debug : EnvelopeState → String
  | .pending => "Pending"
  | .challengeIssued => "ChallengeIssued"
  | .confirmed => "Confirmed"
  | .retrieved => "Retrieved"
  | .senderRevoked => "SenderRevoked"
  | .recipientDeleted => "RecipientDeleted"
  | .expired => "Expired"
  | .challengeFailed => "ChallengeFailed"
  | .passwordFailed => "PasswordFailed"

end EnvelopeState

structure PeerId where
  bytes : Bytes
deriving DecidableEq

structure DirectedEnvelope where
  envelopeId : B32
  version : UInt8
  senderPubkey : B32
  recipientPubkey : B32
  ephemeralPubkey : B32
  encryptedPayload : Bytes
  payloadNonce : ByteVec 24
  passwordSalt : B32
  expiresAt : Nat
  createdAt : Nat
  state : EnvelopeState
  challengeHash : Option B32
  passwordAttemptsRemaining : Nat
  challengeAttemptsRemaining : Nat
  challengeExpiresAt : Nat
  retentionSecs : Nat
deriving DecidableEq

/-- `u64::saturating_add`. -/
def saturatingAdd (first second : Nat) : Nat := min (first + second) (2 ^ 64 - 1)

theorem saturatingAdd_le (first second : Nat) : saturatingAdd first second ≤ first + second := Nat.min_le_left _ _

/-- The longest time a recipient keeps a share: thirty days. -/
def maxRetentionSecs : Nat := 2592000

namespace DirectedEnvelope

variable (envelope : DirectedEnvelope)

def setState (state : EnvelopeState) : DirectedEnvelope := { envelope with state := state }

@[simp] theorem setState_envelopeId {state : EnvelopeState} :
    (envelope.setState state).envelopeId = envelope.envelopeId := rfl

@[simp] theorem setState_state (state : EnvelopeState) : (envelope.setState state).state = state := rfl

def isExpired (now : Nat) : Bool := envelope.expiresAt ≤ now

def isChallengeExpired (now : Nat) : Bool := 0 < envelope.challengeExpiresAt && envelope.challengeExpiresAt ≤ now

/-- The retention fields of a received envelope within what this node keeps. -/
def normalizeReceivedRetention (now : Nat) : Except String DirectedEnvelope :=
  if envelope.expiresAt ≤ envelope.createdAt then
    .error "invalid envelope retention window: it ends before it starts"
  else
    .ok { envelope with
      expiresAt := min envelope.expiresAt (saturatingAdd now maxRetentionSecs)
      retentionSecs := min envelope.retentionSecs maxRetentionSecs }

end DirectedEnvelope

/-! ## The confirmation code -/

def challengeTtlSecs : Nat := 300

def challengeMaxAttempts : Nat := 3

def passwordMaxAttempts : Nat := 3

/-- What the program takes from its libraries for texts: `str::trim`,
`str::to_uppercase`, `char::is_alphanumeric`, and `blake3::hash` of a text. -/
structure Texts where
  trim : List Char → List Char
  toUppercase : List Char → List Char
  isAlphanumeric : Char → Bool
  hash : List Char → B32

/-- Capitals and digits without 0, O, 1, I and L. -/
def challengeAlphabet : List Char := "23456789ABCDEFGHJKMNPQRSTUVWXYZ".toList

structure Draws where
  indices : List (Fin 31)
  eight : indices.length = 8

def hyphenate (front back : List Char) : List Char := front ++ '-' :: back

def generateChallenge (T : Texts) (draws : Draws) : List Char × B32 :=
  let raw := draws.indices.map (challengeAlphabet.getD · ' ')
  let formatted := hyphenate (raw.take 4) (raw.drop 4)
  (formatted, T.hash formatted)

def textLength (text : List Char) : Nat := (text.map Char.utf8Size).sum

/-- `(&text[..n], &text[n..])`; a cut inside a character panics. -/
def sliceAt : Nat → List Char → Option (List Char × List Char)
  | 0, text => some ([], text)
  | _ + 1, [] => none
  | n + 1, c :: text =>
    if c.utf8Size ≤ n + 1 then
      (sliceAt (n + 1 - c.utf8Size) text).map (fun parts => (c :: parts.1, parts.2))
    else none

namespace Texts

variable (T : Texts)

/-- No result where the program panics. -/
def normalizeChallenge (input : List Char) : Option (List Char) :=
  let clean := (T.toUppercase (T.trim input)).filter T.isAlphanumeric
  if textLength clean = 8 then
    (sliceAt 4 clean).map (fun parts => hyphenate parts.1 parts.2)
  else some clean

def verifyChallenge (input : List Char) (expected : B32) : Option Bool :=
  (T.normalizeChallenge input).map (T.hash · = expected)

end Texts

/-! ## What the check of a code accepts -/

def Draws.letters (draws : Draws) : List Char := draws.indices.map (challengeAlphabet.getD · ' ')

namespace Texts

def letters (T : Texts) (input : List Char) : List Char := (T.toUppercase input).filter T.isAlphanumeric

/-- Trimming takes no letters, a hyphen is none, and no other text has the hash of the code. -/
structure Ideal (T : Texts) (draws : Draws) : Prop where
  trimmed : ∀ input, T.letters (T.trim input) = T.letters input
  hyphen : T.isAlphanumeric '-' = false
  unique : ∀ text, T.hash text = (generateChallenge T draws).2 → text = (generateChallenge T draws).1

end Texts

namespace Code

/-- É is a letter, and the hash tells one code from everything else. -/
def texts : Texts := ⟨id, id, fun c => c.isAlphanum || c == 'É', fun text =>
    if text = "2222-2222".toList then .fill 32 1 else .fill 32 0⟩

def draws : Draws := ⟨replicate 8 0, rfl⟩

theorem ideal : texts.Ideal draws := by
  refine ⟨fun _ => rfl, by decide, fun text same => ?_⟩
  by_contra different
  have other : texts.hash text = .fill 32 0 := if_neg different
  rw [other] at same
  exact absurd same (by decide)

end Code

end Miasma.Directed
