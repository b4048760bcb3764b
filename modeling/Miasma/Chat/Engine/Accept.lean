import Miasma.Chat.Crypto.Keys
import Miasma.Chat.Engine.States
import Miasma.Chat.Outbox.Kept

namespace Miasma.Chat

open Data Protocol Chat.Pq ByteVec Symbolic

/-! What opening an envelope says about it, and what it leaves of the engine. -/

variable {S : Suite} {X : Exchange S.Key}

/-- The padded `plain` is what the ciphertext of the envelope was made from. -/
def Envelope.Contains (S : Suite) (env : Envelope) (plain : Bytes) : Prop :=
  ∃ key nonce aad padded, env.ciphertext = S.aeadSeal key nonce aad padded ∧ unpad padded = .ok plain

theorem Suite.Ideal.contains_unique (ideal : S.Ideal) {env : Envelope} (first : env.Contains S plain)
    (second : env.Contains S other) : plain = other := by
  obtain ⟨key, nonce, aad, padded, text, stripped⟩ := first
  obtain ⟨key', nonce', aad', padded', text', stripped'⟩ := second
  obtain ⟨-, -, -, same⟩ := ideal.aeadSeal_distinct (text.symm.trans text')
  subst same
  exact Except.ok.inj (stripped.symm.trans stripped')

variable {layer : Option S.Key}

theorem Suite.Ideal.openMsg_contains (ideal : S.Ideal) {dh : B32} {env : Envelope}
    (opened : openMsg S key nonce aad env.ciphertext layer dh n = .ok padded)
    (stripped : unpad padded = .ok plain) : env.Contains S plain := by
  have holds : ∀ {key}, S.aeadOpen key nonce aad env.ciphertext = some padded → env.Contains S plain :=
    fun read => ⟨_, _, _, _, ideal.aeadOpen_iff.mp read, stripped⟩
  unfold openMsg at opened
  cases layer with
  | none =>
    split at opened <;> cases opened
    exact holds ‹_›
  | some pq =>
    dsimp only at opened
    split at opened
    · cases opened
      exact holds ‹_›
    · split at opened <;> cases opened
      exact holds ‹_›

namespace Session

variable {s next : Session S} {env : Envelope} {layer : Option S.Key} {ratchet : S.Secret} {plain : Bytes}

theorem openNext_contains (ideal : S.Ideal)
    (opened : s.openNext env layer ratchet = .ok (next, plain)) : env.Contains S plain := by
  unfold openNext at opened
  cases turned : s.turnTo env.header ratchet with
  | error => simp [turned, bind, Except.bind] at opened
  | ok turn =>
    cases skipped : turn.skipUntil env.header.n with
    | error => simp [turned, skipped, bind, Except.bind] at opened
    | ok =>
      simp only [turned, skipped, bind, Except.bind] at opened
      split at opened
      · cases opened
      split at opened
      · cases opened
      rename_i padded read
      split at opened
      · cases opened
      rename_i text stripped
      split at opened
      · cases opened
      cases opened
      exact ideal.openMsg_contains read stripped

theorem openWith_contains (ideal : S.Ideal)
    (opened : s.openWith env layer ratchet = (next, .ok plain)) : env.Contains S plain := by
  unfold openWith at opened
  split at opened
  · split at opened
    · cases opened
    rename_i text read
    cases opened
    simp only [bind, Except.bind] at read
    split at read
    · cases read
    rename_i padded unsealed
    exact ideal.openMsg_contains unsealed read
  · split at opened
    · cases opened
    rename_i after text read
    cases opened
    exact openNext_contains ideal read

theorem sealWith_contains {id : B16} (sealed : s.sealWith id plain layer = (next, .ok env)) :
    env.Contains S plain := by
  obtain ⟨-, -, -, -, -, key, nonce, aad, padded, fits, text⟩ := sealWith_ok sealed
  exact ⟨key, nonce, aad, padded, text, unpad_pad fits⟩

theorem accept_contains (ideal : S.Ideal) (opened : Session.accept me peer env ratchet = .ok (next, plain)) :
    env.Contains S plain := by
  unfold accept at opened
  split at opened
  · cases opened
  rename_i ek carried
  cases made : newResponder me peer ek with
  | error => simp [made, bind, Except.bind] at opened
  | ok =>
    simp only [made, bind, Except.bind] at opened
    split at opened
    · cases opened
    rename_i after text read
    cases opened
    exact openWith_contains ideal read

end Session

namespace Core

variable {c next : Core S X} {peer : B32} {env : Envelope} {ratchet : S.Secret} {u : Unlocked S} {fate : Fate}

def stateOf (c : Core S X) (peer : B32) : PeerState S := (c.store.slot peer).2.state

def loaded (c : Core S X) (peer : B32) : Core S X := { c with store := (c.store.slot peer).1 }

/-- The two ways an envelope opens: in the session there is, or as the first
message of a new one. -/
inductive Opening (c : Core S X) (peer : B32) (env : Envelope) (ratchet : S.Secret) (u : Unlocked S) : Prop
  | existing {s : Session S} {layer : Option S.Key} (session : (c.stateOf peer).session = some s)
      (opened : s.openWith env layer ratchet = (u.session, .ok u.plain))
      (kept : u.replaced = false) : Opening c peer env ratchet u
  | first (opened : Session.accept c.identity peer env ratchet = .ok (u.session, u.plain)) :
      Opening c peer env ratchet u

section

variable (c : Core S X) (peer : B32)

theorem stateOf_loaded : (c.loaded peer).stateOf peer = c.stateOf peer := by
  simp only [stateOf, loaded, ChatStore.slot_slot]

theorem settleRollback_frame : ∃ outbox pq, c.settleRollback peer fate =
      { c with store := (c.store.takeRollback peer).1, outbox := outbox, pq := pq } := by
  simp only [settleRollback]
  split
  · exact ⟨_, _, rfl⟩
  · exact ⟨c.outbox, c.pq, rfl⟩

theorem conclude_frame (u : Unlocked S) (status : AckStatus)
    (fate : Fate) : ∃ outbox, (c.conclude peer u status fate).1 =
      { c with store := (c.store.flushPeer peer fate).1, outbox := outbox } := by
  simp only [conclude, flushPeer]
  cases (c.store.flushPeer peer fate).2 with
  | false => exact ⟨c.outbox, rfl⟩
  | true =>
    cases u.replaced with
    | false => exact ⟨c.outbox, rfl⟩
    | true => exact ⟨_, rfl⟩

theorem unlock_eq :
    c.unlock peer env ratchet = if (c.stateOf peer).recentEnv.contains env.id then (c.loaded peer, .error .duplicate)
      else match (c.stateOf peer).session with
        | none => (c.loaded peer, unlockNew c.identity peer (c.stateOf peer) env ratchet)
        | some s =>
          ({ c.loaded peer with pq := (c.pq.openKey peer s.originEk).1 },
            unlockIn c.identity peer (c.stateOf peer) s (c.pq.openKey peer s.originEk).2 env ratchet) := rfl

theorem unlock_frame : ∃ pq, (c.unlock peer env ratchet).1 = { c.loaded peer with pq := pq } := by
  rw [unlock_eq]
  split
  · exact ⟨c.pq, rfl⟩
  split
  · exact ⟨c.pq, rfl⟩
  · exact ⟨_, rfl⟩

end

theorem startSession_ok (opened : startSession c.identity peer env ratchet ek replaced = .ok u) :
    Opening c peer env ratchet u := by
  unfold startSession at opened
  split at opened
  · rename_i s plain accepted
    cases opened
    exact .first accepted
  · cases opened

variable {st : PeerState S}

theorem unlockNew_ok (opened : unlockNew c.identity peer st env ratchet = .ok u) : Opening c peer env ratchet u := by
  unfold unlockNew at opened
  split at opened
  · cases opened
  split at opened
  · cases opened
  · exact startSession_ok opened

theorem unlockIn_ok (session : (c.stateOf peer).session = some existing)
    (opened : unlockIn c.identity peer st existing layer env ratchet = .ok u) :
    Opening c peer env ratchet u := by
  unfold unlockIn at opened
  split at opened
  · rename_i s plain read
    cases opened
    exact .existing session read rfl
  · split at opened
    · cases opened
    split at opened
    · cases opened
    · exact startSession_ok opened

theorem unlock_ok (opened : c.unlock peer env ratchet = (next, .ok u)) :
    env.id ∉ (c.stateOf peer).recentEnv ∧ Opening c peer env ratchet u := by
  rw [unlock_eq] at opened
  split at opened
  · cases opened
  rename_i unseen
  refine ⟨by simpa using unseen, ?_⟩
  split at opened
  · exact unlockNew_ok (Prod.mk.inj opened).2
  rename_i existing session
  exact unlockIn_ok session (Prod.mk.inj opened).2

variable {status : AckStatus}

theorem startSession_error (refused : startSession c.identity peer env ratchet ek replaced = .error status) :
    status.isDelivered = false := by
  unfold startSession at refused
  split at refused <;> cases refused
  rfl

theorem unlockNew_error (refused : unlockNew c.identity peer st env ratchet = .error status) :
    status.isDelivered = false := by
  unfold unlockNew at refused
  split at refused
  · cases refused
    rfl
  split at refused
  · cases refused
    rfl
  · exact startSession_error refused

theorem unlockIn_error (refused : unlockIn c.identity peer st existing layer env ratchet = .error status) :
    status.isDelivered = false := by
  unfold unlockIn at refused
  split at refused
  · cases refused
  split at refused
  · cases refused
    rfl
  split at refused
  · cases refused
    rfl
  · exact startSession_error refused

theorem unlock_error (refused : c.unlock peer env ratchet = (next, .error status))
    (delivered : status.isDelivered = true) : env.id ∈ (c.stateOf peer).recentEnv := by
  rw [unlock_eq] at refused
  split at refused
  · rename_i seen
    simpa using seen
  have refusal : status.isDelivered = false := by
    split at refused
    · exact unlockNew_error (Prod.mk.inj refused).2
    · exact unlockIn_error (Prod.mk.inj refused).2
  rw [refusal] at delivered
  cases delivered

/-! What the operations leave of the outbox. -/

section

variable (c : Core S X) (peer : B32)

theorem settleRollback_clears (fate : Fate) : Outbox.Clears peer c.outbox (c.settleRollback peer fate).outbox := by
  simp only [settleRollback]
  split
  · exact .void .same fate.note
  · exact .same

theorem conclude_clears : Outbox.Clears peer c.outbox (c.conclude peer u status fate).1.outbox := by
  simp only [conclude, flushPeer]
  cases (c.store.flushPeer peer fate).2 with
  | false => exact .same
  | true =>
    cases u.replaced with
    | false => exact .same
    | true => exact .void .same fate.note

theorem recordMessage_outbox (m : StoredMessage) (fate : Fate) :
    (c.recordMessage peer m fate).1.outbox = c.outbox := by
  unfold recordMessage
  split <;> rfl

end

/-! What the parts of an arrival keep, the arrival keeps. -/

/-- `P` of the engine is kept by each part of an arrival, given `Q` of what the envelope yields. -/
structure Arrival (P : Core S X → Prop) (Q : Unlocked S → Prop) (peer : B32) (fate : Fate) : Prop where
  loaded : ∀ {c}, P c → P (c.loaded peer)
  hybrid : ∀ {c} ek plain now coins, P c → P { c with pq := (c.pq.onRecord peer ek plain now coins fate.document).1 }
  recorded : ∀ {c} m, P c → P (c.recordMessage peer m fate).1
  committed : ∀ {c u} env f status, Q u → (∀ st, (f st).peer = st.peer ∧ (f st).session = st.session) → P c →
    P ((c.commit peer env u f).conclude peer u status fate).1

theorem applyRead_place (enabled : Bool) (upToSeq : UInt64) (st : PeerState S) :
    (applyRead enabled upToSeq st).peer = st.peer ∧ (applyRead enabled upToSeq st).session = st.session := by
  unfold applyRead
  split <;> exact ⟨rfl, rfl⟩

namespace Arrival

variable {P : Core S X → Prop} {Q : Unlocked S → Prop}

theorem acceptRecord (parts : Arrival P Q peer fate) (here : P c) (yields : Q u) :
    P (c.acceptRecord peer env u now draw fate).1 := by
  have marked : ∀ (seq : UInt64) (st : PeerState S),
      (st.markSeq seq).peer = st.peer ∧ (st.markSeq seq).session = st.session :=
    fun _ _ => ⟨rfl, rfl⟩
  unfold Core.acceptRecord
  split
  · exact here
  · unfold acceptUnknown
    have applied : P { c with pq := (if u.plain.head?.any isPqKind then
        c.pq.onRecord peer u.session.originEk u.plain now draw.coins fate.document else (c.pq, true)).1 } := by
      split
      · exact parts.hybrid _ _ _ _ here
      · exact here
    generalize (if u.plain.head?.any isPqKind then
        c.pq.onRecord peer u.session.originEk u.plain now draw.coins fate.document
      else (c.pq, true)) = result at applied
    dsimp only
    split
    · exact parts.committed env id .stored yields (fun _ => ⟨rfl, rfl⟩) applied
    · exact applied
  · exact parts.committed env _ .stored yields (applyRead_place _ _) (parts.loaded here)
  rename_i m _
  unfold acceptText
  dsimp only
  split
  · have recorded : P ((c.peek peer).1.recordMessage peer
        ⟨false, m.id, m.seq, m.sentMs, now, .received, none, m.text⟩ fate).1 := parts.recorded _ (parts.loaded here)
    split
    · rename_i result
      rwa [result] at recorded
    rename_i next result
    have after : P next := by rwa [result] at recorded
    exact parts.committed env _ .stored yields (marked m.seq) after
  · exact parts.committed env _ _ yields (marked m.seq) (parts.loaded here)

variable {wire : Bytes} {draw : OpenDraw S X}

theorem accept (parts : Arrival P Q peer fate) (here : P c)
    (unlocked : ∀ {env next result}, (c.settleRollback peer fate).unlock peer env draw.ratchet = (next, result) →
      P next ∧ ∀ u, result = .ok u → Q u) : P (c.accept peer wire now draw fate).1 := by
  unfold Core.accept
  cases Envelope.decode wire with
  | error e => cases e <;> exact here
  | ok =>
    dsimp only
    split
    · rename_i result
      exact (unlocked result).1
    · rename_i u result
      exact parts.acceptRecord (unlocked result).1 ((unlocked result).2 u rfl)

theorem acceptRaw (parts : Arrival P Q peer fate) (here : P c)
    (unlocked : ∀ {env next result}, (c.settleRollback peer fate).unlock peer env draw.ratchet = (next, result) →
      P next ∧ ∀ u, result = .ok u → Q u) : P (c.acceptRaw peer wire handle draw fate).1 := by
  unfold Core.acceptRaw
  cases Envelope.decode wire with
  | error e => cases e <;> exact here
  | ok =>
    dsimp only
    split
    · rename_i result
      exact (unlocked result).1
    rename_i u result
    split
    · exact (unlocked result).1
    · exact parts.committed _ id _ ((unlocked result).2 u rfl) (fun _ => ⟨rfl, rfl⟩) (unlocked result).1

end Arrival

theorem arrival_clears (c : Core S X) :
    Arrival (fun next : Core S X => Outbox.Clears peer c.outbox next.outbox) (fun _ => True) peer fate where
  loaded clears := clears
  hybrid _ _ _ _ clears := clears
  recorded m clears := (recordMessage_outbox _ peer m fate).symm ▸ clears
  committed env f _ _ _ clears := clears.trans (conclude_clears (commit _ peer env _ f) peer)

theorem unlocked_clears (unlocked : (c.settleRollback peer fate).unlock peer env ratchet = (next, result)) :
    Outbox.Clears peer c.outbox next.outbox := by
  obtain ⟨pq, frame⟩ := (c.settleRollback peer fate).unlock_frame peer
  rw [unlocked] at frame
  exact congrArg outbox frame ▸ c.settleRollback_clears peer fate

theorem accept_clears (c : Core S X) :
    Outbox.Clears peer c.outbox (c.accept peer wire now draw fate).1.outbox :=
  (c.arrival_clears).accept .same fun unlocked => ⟨unlocked_clears unlocked, fun _ _ => trivial⟩

theorem acceptRaw_clears (c : Core S X) :
    Outbox.Clears peer c.outbox (c.acceptRaw peer wire handle draw fate).1.outbox :=
  (c.arrival_clears).acceptRaw .same fun unlocked => ⟨unlocked_clears unlocked, fun _ _ => trivial⟩

theorem Opening.contains (ideal : S.Ideal) (opening : Opening c peer env ratchet u) : env.Contains S u.plain := by
  cases opening with
  | existing session opened => exact Session.openWith_contains ideal opened
  | first opened => exact Session.accept_contains ideal opened

end Core

/-! Two people and an exchange, for runs of the engine on fixed values. -/

namespace Sample

def exchange : Exchange suite.Key := .echo fun seed => .firstFlight (seed, seed) (seed, seed) seed seed seed

def person (byte : UInt8) : Identity suite := Symbolic.person byte

def alice : Identity suite := person 1

def bob : Identity suite := person 2

def settings : StoreSettings := ⟨100, 100, 100000, 30, 604800000⟩

def coreOf (me : Identity suite) (maxMessageBytes : Nat) : Core suite exchange :=
  Core.new exchange none settings me maxMessageBytes

def opening (byte : UInt8) : OpenDraw suite exchange := ⟨(fill 32 byte : B32), (fill 32 byte : B32)⟩

def sealing (byte : UInt8) : SealDraw suite :=
  ⟨(fill 32 byte : B32), (fill 32 (byte + 1) : B32), fill 16 byte⟩

end Sample

end Miasma.Chat
