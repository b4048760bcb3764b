import Miasma.Data.SortedMap
import Miasma.Directed.Envelope

namespace Miasma.Directed

open Data SortedMap

/-! The incoming directory of a recipient (`directed/inbox.rs`): a `.json`, a `.challenge` and a
`.peer` per envelope id. -/

def maxEnvelopes : Nat := 10000

def Filed (incoming : SortedMap B32 DirectedEnvelope) : Prop :=
  ∀ id envelope, incoming.get? id = some envelope → envelope.envelopeId = id

namespace Filed

variable {incoming : SortedMap B32 DirectedEnvelope}

theorem empty : Filed .empty := fun _ _ found => by simp at found

theorem insert (filed : Filed incoming) : Filed (incoming.insert envelope.envelopeId envelope) := by
  intro id held found
  rcases get?_insert_cases found with ⟨rfl, rfl⟩ | ⟨-, old⟩
  · rfl
  · exact filed id held old

theorem erase (filed : Filed incoming) {id : B32} : Filed (incoming.erase id) :=
  fun other held found => filed other held (get?_of_erase found)

theorem map (filed : Filed incoming) (kept : ∀ envelope, (f envelope).envelopeId = envelope.envelopeId) :
    Filed (incoming.map f) := by
  intro id held found
  rw [get?_map] at found
  obtain ⟨before, there, rfl⟩ := Option.map_eq_some_iff.mp found
  exact (kept before).trans (filed id before there)

end Filed

structure DirectedInbox where
  incoming : SortedMap B32 DirectedEnvelope
  challenge : SortedMap B32 (List Char)
  peer : SortedMap B32 PeerId
  filed : Filed incoming

namespace DirectedInbox

def empty : DirectedInbox := ⟨.empty, .empty, .empty, .empty⟩

variable (inbox : DirectedInbox) (id : B32)

def loadIncoming : Option DirectedEnvelope := inbox.incoming.get? id

/-- Refused when the directory is full, unless the envelope replaces one. -/
def saveIncoming (envelope : DirectedEnvelope) : Except String DirectedInbox :=
  let count := inbox.incoming.size
  if ¬ inbox.incoming.contains envelope.envelopeId ∧ maxEnvelopes ≤ count then
    .error s!"inbox full: {count} envelopes (max {maxEnvelopes})"
  else
    .ok { inbox with
      incoming := inbox.incoming.insert envelope.envelopeId envelope
      filed := inbox.filed.insert }

def deleteIncoming : DirectedInbox :=
  ⟨inbox.incoming.erase id, inbox.challenge.erase id, inbox.peer.erase id, inbox.filed.erase⟩

def cleanupChallenge : DirectedInbox := { inbox with challenge := inbox.challenge.erase id }

def saveChallengeCode (code : List Char) : DirectedInbox := { inbox with challenge := inbox.challenge.insert id code }

/-- The first binding of an id stays. -/
def bindIncomingPeerId (peer : PeerId) : Except String DirectedInbox := match inbox.peer.get? id with
  | none => .ok { inbox with peer := inbox.peer.insert id peer }
  | some existing =>
    if existing = peer then .ok inbox
    else .error "incoming envelope is already bound to a different peer"

def incomingPeerIsBound (peer : PeerId) : Bool := inbox.peer.get? id = some peer

def updateIncomingState (state : EnvelopeState) : Except String DirectedInbox := match inbox.loadIncoming id with
  | none => .error "read incoming"
  | some envelope => inbox.saveIncoming (envelope.setState state)

def expire (now : Nat) (envelope : DirectedEnvelope) : DirectedEnvelope :=
  if envelope.isExpired now ∧ ¬ envelope.state.isTerminal then
    envelope.setState .expired
  else envelope

theorem envelopeId_expire (now : Nat) (envelope : DirectedEnvelope) :
    (expire now envelope).envelopeId = envelope.envelopeId := by
  unfold expire
  split <;> rfl

/-- Every code whose envelope ended up in a terminal state goes as well. -/
def expireAll (now : Nat) : DirectedInbox :=
  let incoming := inbox.incoming.map (expire now)
  { inbox with
    incoming := incoming
    challenge := inbox.challenge.filter (fun entry =>
      !(incoming.get? entry.1).any (·.state.isTerminal))
    filed := inbox.filed.map (envelopeId_expire now) }

end DirectedInbox

/-! ## The files of one id -/

structure Slot where
  envelope : Option DirectedEnvelope
  code : Option (List Char)
  peer : Option PeerId

namespace DirectedInbox

def slot (inbox : DirectedInbox) (id : B32) : Slot :=
  ⟨inbox.incoming.get? id, inbox.challenge.get? id, inbox.peer.get? id⟩

variable {inbox saved : DirectedInbox} {envelope held : DirectedEnvelope} {id other : B32}

theorem loadIncoming_eq (inbox : DirectedInbox) (id : B32) :
    inbox.loadIncoming id = (inbox.slot id).envelope := rfl

theorem incomingPeerIsBound_iff {peer : PeerId} :
    inbox.incomingPeerIsBound id peer = true ↔ (inbox.slot id).peer = some peer := by
  simp [incomingPeerIsBound, slot]

theorem envelopeId_of_load (found : (inbox.slot id).envelope = some envelope) : envelope.envelopeId = id :=
  inbox.filed id envelope found

theorem slot_of_save (ok : inbox.saveIncoming envelope = .ok saved) (id : B32) : saved.slot id =
      if id = envelope.envelopeId then { inbox.slot id with envelope := some envelope }
      else inbox.slot id := by
  simp only [saveIncoming] at ok
  split at ok
  · cases ok
  cases ok
  simp only [slot, get?_insert]
  split <;> rfl

theorem save_of_held (envelope : DirectedEnvelope) (found : (inbox.slot envelope.envelopeId).envelope = some held) :
    ∃ saved, inbox.saveIncoming envelope = .ok saved := by
  have there : inbox.incoming.contains envelope.envelopeId = true := by
    rw [contains, Option.isSome_iff_exists]
    exact ⟨held, found⟩
  simp [saveIncoming, there]

section

variable (inbox : DirectedInbox) (id other : B32)

@[simp] theorem slot_cleanupChallenge : (inbox.cleanupChallenge id).slot other =
      if other = id then { inbox.slot other with code := none } else inbox.slot other := by
  simp only [slot, cleanupChallenge, get?_erase]
  split <;> rfl

@[simp] theorem slot_saveChallengeCode (code : List Char) : (inbox.saveChallengeCode id code).slot other =
      if other = id then { inbox.slot other with code := some code } else inbox.slot other := by
  simp only [slot, saveChallengeCode, get?_insert]
  split <;> rfl

@[simp] theorem slot_deleteIncoming :
    (inbox.deleteIncoming id).slot other = if other = id then ⟨none, none, none⟩ else inbox.slot other := by
  simp only [slot, deleteIncoming, get?_erase]
  split <;> rfl

end

theorem slot_of_bind {peer : PeerId} (ok : inbox.bindIncomingPeerId id peer = .ok saved) :
    ((inbox.slot id).peer = none ∨ (inbox.slot id).peer = some peer) ∧ ∀ other, saved.slot other =
        if other = id then { inbox.slot other with peer := some peer } else inbox.slot other := by
  simp only [bindIncomingPeerId] at ok
  split at ok
  next absent =>
      cases ok
      refine ⟨.inl absent, fun other => ?_⟩
      simp only [slot, get?_insert]
      split <;> rfl
  next existing there =>
      split at ok
      · next same =>
          cases ok
          subst same
          refine ⟨.inr there, fun other => ?_⟩
          split
          · next same => simp only [slot, same, there]
          · rfl
      · cases ok

theorem slot_expireAll (inbox : DirectedInbox) (now : Nat) (id : B32) :
    ((inbox.expireAll now).slot id).envelope = (inbox.slot id).envelope.map (expire now) ∧
      ((inbox.expireAll now).slot id).peer = (inbox.slot id).peer ∧
      (((inbox.expireAll now).slot id).envelope.any (·.state.isTerminal) = false →
        ((inbox.expireAll now).slot id).code = (inbox.slot id).code) := by
  refine ⟨get?_map .., rfl, fun live => ?_⟩
  change (inbox.challenge.filter _).get? id = inbox.challenge.get? id
  cases found : inbox.challenge.get? id with
  | none =>
    rw [Option.eq_none_iff_forall_ne_some]
    intro code kept
    rw [get?_of_filter kept] at found
    cases found
  | some code => exact get?_filter found (congrArg not live)

end DirectedInbox

end Miasma.Directed
