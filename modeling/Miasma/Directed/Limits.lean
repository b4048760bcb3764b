import Miasma.Directed.V2.SingleUse

namespace Miasma.Directed.Limits

open Data DirectedInbox Option

/-! What a recipient enforces on every path by which an envelope becomes a record.

Only the node's handler of version 1 bounds the retention, and only the daemon's handler of the
event resets the state and the counters, in a second write. -/

structure Queued where
  peer : PeerId
  envelope : DirectedEnvelope
  at_ : Nat
deriving DecidableEq

structure World where
  device : Directed.World
  v2 : V2.State
  queue : List Queued
  /-- Who delivered the record of an id, or is named as its sender. -/
  delivered : SortedMap B32 PeerId

structure Setup where
  recipient : Recipient
  nodeV2 : V2.Node
  libraries : V2.Libraries

inductive Event where
  | invite (peer : PeerId) (envelope : DirectedEnvelope) (now : Nat) (queued : Except String Unit)
  | prekeyV2 (peer : PeerId) (requestId : B16) (suites : Bytes) (secret : B32)
      (offerId : V2.OfferId) (nowSecs : Nat)
  | inviteV2 (peer : PeerId) (envelope : DirectedEnvelope) (ext : V2.InviteExt) (disk : V2.Disk)
      (draws : Draws) (now : V2.Now) (nowSecs : Nat) (queued : Bool)
  /-- A confirmation, a revocation or a query of version 2. -/
  | unhandledV2 (peer : PeerId) (id : B32)
  /-- The daemon handles the next event, up to its end or up to its first write. -/
  | receive (draws : Draws) (now : Nat) (completes : Bool)
  | collect (sender : PeerId) (envelope : DirectedEnvelope) (now : Nat)
  /-- Anything else that happens to the inbox. -/
  | device (event : Directed.Event)

/-- The event handler up to its first write of the envelope. -/
def firstWrite (inbox : DirectedInbox) (peer : PeerId) (envelope : DirectedEnvelope) : DirectedInbox :=
  if (inbox.loadIncoming envelope.envelopeId).isSome then inbox
  else
    match inbox.bindIncomingPeerId envelope.envelopeId peer with
    | .error _ => inbox
    | .ok bound => bound.trySave envelope

/-- The daemon's handling of an event, up to its end or up to the first write. -/
def handle (T : Texts) (inbox : DirectedInbox) (queued : Queued) (draws : Draws) (now : Nat) : Bool → DirectedInbox
  | true => envelopeReceived T inbox queued.peer queued.envelope draws now
  | false => firstWrite inbox queued.peer queued.envelope

namespace World

def empty : World := ⟨.empty, .empty, [], .empty⟩

abbrev slot (w : World) (id : B32) : Slot := w.device.slot id

def setInbox (w : World) (inbox : DirectedInbox) : World := { w with device := { w.device with inbox := inbox } }

def deliver (w : World) (id : B32) (peer : PeerId) : World :=
  { w with delivered := w.delivered.insert id peer }

def enqueue (w : World) (peer : PeerId) (envelope : Option DirectedEnvelope) (now : Nat) : World :=
  { w with queue := w.queue ++ (envelope.map (fun envelope => ⟨peer, envelope, now⟩)).toList }

def receive (S : Setup) (w : World) (queued : Queued) (draws : Draws) (now : Nat) (completes : Bool) : World :=
  let id := queued.envelope.envelopeId
  let inbox := handle S.recipient.texts w.device.inbox queued draws now completes
  let after := w.setInbox inbox
  if (w.slot id).envelope = none ∧ (inbox.slot id).envelope.isSome then after.deliver id queued.peer
  else after

def step (S : Setup) (w : World) : Event → Option World
  | .invite peer envelope now queued =>
    let answer := Directed.invite S.recipient.node w.device.inbox peer envelope now queued
    some ((w.setInbox answer.2.1).enqueue peer answer.2.2 now)
  | .prekeyV2 peer requestId suites secret offerId nowSecs =>
    let answer := S.nodeV2.prekeyRequest S.libraries w.v2.offers peer requestId suites secret offerId nowSecs
    some { w with v2 := { w.v2 with offers := answer.2 } }
  | .inviteV2 peer envelope ext disk draws now nowSecs queued =>
    let handled := S.nodeV2.invite S.libraries w.v2 peer envelope ext disk draws now nowSecs
    some ({ w with v2 := handled.2.1 }.enqueue peer (if queued then handled.2.2.map Prod.snd else none) now.wallSecs)
  | .unhandledV2 _ _ => some w
  | .receive draws now completes =>
    match w.queue with
    | [] => none
    | queued :: rest => some ({ w with queue := rest }.receive S queued draws now completes)
  | .collect sender envelope _ =>
    let collected := collectInvite S.recipient.sharingPubkey w.device.inbox envelope
    let after := w.setInbox collected.1
    some (if collected.2 then after.deliver envelope.envelopeId sender else after)
  | .device event =>
    match event with
    | .invite .. | .envelopeReceived .. | .collect .. => none
    | .delete id => (w.device.step S.recipient (.delete id)).map (fun device =>
      { w with device := device, delivered := w.delivered.erase id })
    | event => (w.device.step S.recipient event).map (fun device => { w with device := device })

end World

/-! ## The limits -/

/-- The retention, the counters and the state of an envelope that came at `at_`. -/
@[mk_iff] structure Within (at_ : Nat) (envelope : DirectedEnvelope) : Prop where
  expires : envelope.expiresAt ≤ at_ + maxRetentionSecs
  codes : envelope.challengeAttemptsRemaining ≤ challengeMaxAttempts
  passwords : envelope.passwordAttemptsRemaining ≤ passwordMaxAttempts
  live : envelope.state.isTerminal = false

instance (at_ : Nat) (envelope : DirectedEnvelope) : Decidable (Within at_ envelope) :=
  decidable_of_iff' _ (within_iff at_ envelope)

/-- The stored envelope is within the limits and bound to the peer. -/
def Limited (at_ : Nat) (peer : PeerId) (slot : Slot) : Prop :=
  slot.peer = some peer ∧ ∃ envelope, slot.envelope = some envelope ∧ Within at_ envelope

/-- The fields of the recipient in a record of version 2 are within the limits. -/
def LimitedV2 (at_ : Nat) (peer : PeerId) (record : V2.IncomingRecord) : Prop :=
  ∃ fields, record.localFields = some fields ∧ fields.effectiveExpiresAt ≤ at_ + maxRetentionSecs ∧
    (∀ challenge, fields.challenge = some challenge → challenge.attemptsRemaining ≤ challengeMaxAttempts) ∧
    fields.passwordAttemptsRemaining ≤ passwordMaxAttempts ∧
    fields.state.isTerminal = false ∧ fields.senderPeerId = peer

/-- A request of a peer leaves the records that others delivered alone. -/
def Spared (w next : World) (peer : PeerId) : Prop :=
  ∀ id owner, w.delivered.get? id = some owner → owner ≠ peer → next.slot id = w.slot id

/-- What each step has to keep to. -/
def Lawful (S : Setup) (w : World) : Event → Prop
  | .receive draws now completes => ∀ next, w.step S (.receive draws now completes) = some next →
      ∀ queued, w.queue.head? = some queued → (w.slot queued.envelope.envelopeId).envelope = none →
      (next.slot queued.envelope.envelopeId).envelope.isSome = true →
      Limited queued.at_ queued.peer (next.slot queued.envelope.envelopeId)
  | .collect sender envelope now => ∀ next, w.step S (.collect sender envelope now) = some next →
      (collectInvite S.recipient.sharingPubkey w.device.inbox envelope).2 = true →
      Limited now sender (next.slot envelope.envelopeId)
  | .inviteV2 peer envelope ext disk draws now nowSecs queued => ∀ next,
      w.step S (.inviteV2 peer envelope ext disk draws now nowSecs queued) = some next →
      ∀ id record, w.v2.records.files.get? id = none → next.v2.records.files.get? id = some record →
      LimitedV2 now.wallSecs peer record
  | .unhandledV2 peer id => ∀ next, w.step S (.unhandledV2 peer id) = some next →
      Spared w next peer ∧ next.v2 = w.v2
  | .device (.confirm peer id code now) => ∀ next,
      w.step S (.device (.confirm peer id code now)) = some next → Spared w next peer
  | .device (.senderRevoke peer id) => ∀ next,
      w.step S (.device (.senderRevoke peer id)) = some next → Spared w next peer
  | _ => True

/-- An invite of version 2 expires in time, an envelope whose handling stops after the first
write has a state and counters within the limits, and one from a holder is within all limits,
with an id that is bound to its sender already. -/
def Modest (S : Setup) (w : World) : Event → Prop
  | .inviteV2 _ envelope _ _ _ now _ _ => envelope.expiresAt ≤ now.wallSecs + maxRetentionSecs
  | .receive _ _ completes => completes = true ∨
      ∀ queued ∈ w.queue.head?, Within queued.at_ queued.envelope
  | .collect sender envelope now => envelope.recipientPubkey = S.recipient.sharingPubkey →
      Within now envelope ∧ (w.slot envelope.envelopeId).peer = some sender
  | _ => True

instance (S : Setup) (w : World) : (event : Event) → Decidable (Modest S w event)
  | .inviteV2 .. => inferInstanceAs (Decidable (_ ≤ _))
  | .receive .. => inferInstanceAs (Decidable (_ ∨ _))
  | .collect .. => inferInstanceAs (Decidable (_ → _ ∧ _))
  | .invite .. | .prekeyV2 .. | .unhandledV2 .. | .device _ => .isTrue trivial

/-! ## Bindings -/

variable {now : Nat}

section Bindings

variable {R : Recipient} {device : Directed.World} {id asked : B32} {peer owner : PeerId}

theorem peer_of_moves {slot : Slot} (moves : Moves R device id event slot codes passwords)
    (stays : event ≠ .delete id) (bound : (device.slot id).peer = some owner) : slot.peer = some owner := by
  cases moves with
  | bound _ _ free => cases free.symm.trans bound
  | received _ _ free =>
    rcases free with free | free
    · cases free.symm.trans bound
    · exact free.symm.trans bound
  | deleted => exact absurd rfl stays
  | _ => exact bound

variable {inbox : DirectedInbox} {envelope : DirectedEnvelope} {response : DirectedResponse}

section

variable (other : (inbox.slot id).peer ≠ some peer)
include other

theorem slot_persist_of_other {failure : String} (bound : (inbox.slot asked).peer = some peer)
    (stored : (inbox.slot asked).envelope = some held) (same : envelope.envelopeId = held.envelopeId) :
    (inbox.persist asked envelope done failure response).2.slot id = inbox.slot id := by
  have here := same.trans (envelopeId_of_load stored)
  rw [slot_persist envelope stored here, if_neg]
  rintro rfl
  exact other bound

theorem slot_confirm_of_other (answered : confirm T node inbox peer asked code now = some (response, after)) :
    after.slot id = inbox.slot id := by
  unfold confirm at answered
  split at answered
  · cases answered
    rfl
  obtain ⟨judgement, judges, same⟩ := map_eq_some_iff.mp answered
  have kinds := judged T inbox peer asked code now
  rw [judges] at kinds
  have after_eq : after = (confirmed inbox asked judgement).2 := by rw [same]
  rw [after_eq]
  cases kinds with
  | refused => rfl
  | exhausted challenged | late challenged =>
    exact slot_persist_of_other other challenged.bound challenged.stored rfl
  | right compared | wrong compared =>
    exact slot_persist_of_other other compared.bound compared.stored rfl

theorem slot_senderRevoke_of_other : (senderRevoke node inbox peer asked).2.slot id = inbox.slot id := by
  unfold senderRevoke
  split
  · rfl
  split
  · rfl
  next bound =>
  have bound := incomingPeerIsBound_iff.mp (Decidable.of_not_not bound)
  split
  · rfl
  next envelope stored =>
  split
  · rfl
  split
  · rfl
  exact slot_persist_of_other other bound stored rfl

end

/-- A record that the event handler makes is the envelope with the state and the counters
of a fresh challenge, bound to the peer. -/
theorem slot_envelopeReceived (absent : (device.slot envelope.envelopeId).envelope = none)
    (stored : ((envelopeReceived R.texts device.inbox peer envelope draws now).slot
      envelope.envelopeId).envelope.isSome = true) :
    (envelopeReceived R.texts device.inbox peer envelope draws now).slot envelope.envelopeId =
      ⟨some (envelope.issue R.texts draws now), some (generateChallenge R.texts draws).1, some peer⟩ := by
  have moves : Moves R device envelope.envelopeId _ _ 0 0 := moves_envelopeReceived peer envelope draws now
  generalize (envelopeReceived R.texts device.inbox peer envelope draws now).slot
    envelope.envelopeId = slot at moves stored ⊢
  cases moves with
  | received => rfl
  | kept | bound => simp [absent] at stored
  | ended _ _ _ held | tidied _ _ held => simp [absent] at held

theorem slot_firstWrite :
    (firstWrite inbox peer envelope = inbox) ∨ ((inbox.slot envelope.envelopeId).envelope = none ∧
        ((inbox.slot envelope.envelopeId).peer = none ∨ (inbox.slot envelope.envelopeId).peer = some peer) ∧
        ∃ after, (after = some envelope ∨ after = none) ∧ ∀ id, (firstWrite inbox peer envelope).slot id =
            if id = envelope.envelopeId then ⟨after, (inbox.slot id).code, some peer⟩
            else inbox.slot id) := by
  unfold firstWrite
  split
  · exact .inl rfl
  next absent =>
  split
  · exact .inl rfl
  next bound ok =>
  obtain ⟨free, slots⟩ := slot_of_bind ok
  obtain ⟨after, saved, files⟩ := slot_trySave bound envelope rfl
  refine .inr ⟨not_isSome_iff_eq_none.mp absent, free, after, ?_, fun id => ?_⟩
  · exact saved.imp_right And.right
  rw [files, slots]
  split
  · rfl
  · rfl

end Bindings

/-! ## Every run -/

/-- The invites that wait expire in time, and a record that was delivered is bound. -/
structure Held (w : World) : Prop where
  queue : ∀ queued ∈ w.queue, queued.envelope.expiresAt ≤ queued.at_ + maxRetentionSecs
  bound : ∀ id owner, w.delivered.get? id = some owner → (w.slot id).peer = some owner

variable {id : B32} {peer : PeerId}

section Steps

variable {S : Setup} {w next : World}

variable {envelope : DirectedEnvelope} {now : Nat}

theorem expires_of_normalize (normalized : envelope.normalizeReceivedRetention now = .ok normal) :
    normal.expiresAt ≤ now + maxRetentionSecs := by
  unfold DirectedEnvelope.normalizeReceivedRetention at normalized
  split at normalized
  · cases normalized
  cases normalized
  exact (Nat.min_le_right _ _).trans (saturatingAdd_le _ _)

theorem collectInvite_taken (taken : (collectInvite me inbox envelope).2 = true) :
    envelope.recipientPubkey = me ∧ ∃ saved, inbox.saveIncoming envelope = .ok saved ∧
      (collectInvite me inbox envelope).1 = saved := by
  unfold collectInvite at taken ⊢
  split at taken
  · cases taken
  next mine =>
  have mine := Decidable.of_not_not mine
  simp only [mine, ne_eq, not_true_eq_false, if_false, true_and]
  split at taken
  · next saved ok => exact ⟨saved, ok, rfl⟩
  · cases taken

theorem Held.setInbox (held : Held w)
    (kept : ∀ id owner, (w.slot id).peer = some owner → (inbox.slot id).peer = some owner) :
    Held (w.setInbox inbox) :=
  ⟨held.queue, fun id owner delivered => kept id owner (held.bound id owner delivered)⟩

theorem Held.enqueue {envelope : Option DirectedEnvelope} (held : Held w)
    (expires : ∀ offered, envelope = some offered → offered.expiresAt ≤ now + maxRetentionSecs) :
    Held (w.enqueue peer envelope now) := by
  refine ⟨fun queued member => ?_, held.bound⟩
  rcases List.mem_append.mp member with before | new
  · exact held.queue queued before
  cases envelope with
  | none => cases new
  | some offered =>
    cases List.mem_singleton.mp new
    exact expires offered rfl

theorem Held.deliver (held : Held w) (bound : (w.slot id).peer = some peer) : Held (w.deliver id peer) := by
  refine ⟨held.queue, fun other owner delivered => ?_⟩
  rcases SortedMap.get?_insert_cases delivered with ⟨rfl, rfl⟩ | ⟨-, old⟩
  · exact bound
  · exact held.bound other owner old

theorem slot_receive {w : World} :
    (w.receive S queued draws now completes).slot id =
      (handle S.recipient.texts w.device.inbox queued draws now completes).slot id := by
  unfold World.receive
  simp only
  split <;> rfl

variable {queued : Queued} {draws : Draws} {completes : Bool}

theorem peer_handle (bound : (w.slot id).peer = some owner) :
    ((handle S.recipient.texts w.device.inbox queued draws now completes).slot id).peer = some owner := by
  cases completes with
  | true =>
    have moves : Moves S.recipient w.device id _ _ 0 0 := moves_envelopeReceived queued.peer queued.envelope draws now
    exact peer_of_moves moves (by simp) bound
  | false =>
    simp only [handle]
    rcases slot_firstWrite with same | ⟨-, free, after, -, files⟩
    · rw [same]
      exact bound
    rw [files]
    split
    · next here =>
        subst here
        rcases free with free | free
        · cases free.symm.trans bound
        · exact free.symm.trans bound
    · exact bound

/-- A record that the handling of an event makes is bound to the peer of the event, and
within the limits if the envelope was or the handling came to its end. -/
theorem limited_handle (absent : (w.slot queued.envelope.envelopeId).envelope = none)
    (stored : ((handle S.recipient.texts w.device.inbox queued draws now completes).slot
      queued.envelope.envelopeId).envelope.isSome = true) :
    ((handle S.recipient.texts w.device.inbox queued draws now completes).slot
        queued.envelope.envelopeId).peer = some queued.peer ∧
      (queued.envelope.expiresAt ≤ queued.at_ + maxRetentionSecs →
        completes = true ∨ Within queued.at_ queued.envelope →
        Limited queued.at_ queued.peer ((handle S.recipient.texts w.device.inbox queued draws now completes).slot
            queued.envelope.envelopeId)) := by
  cases completes with
  | true =>
    rw [handle, slot_envelopeReceived absent stored]
    refine ⟨rfl, fun expires _ => ⟨rfl, _, rfl, expires, Nat.le_refl _, Nat.le_refl _, rfl⟩⟩
  | false =>
    simp only [handle] at stored ⊢
    rcases slot_firstWrite with same | ⟨-, -, after, saved, files⟩
    · rw [same, absent] at stored
      cases stored
    rw [files, if_pos rfl] at stored ⊢
    refine ⟨rfl, fun _ modest => ?_⟩
    rcases saved with rfl | rfl
    · exact ⟨rfl, _, rfl, modest.resolve_left (by simp)⟩
    · cases stored

theorem Held.receive (held : Held w) : Held (w.receive S queued draws now completes) := by
  have kept : Held (w.setInbox (handle S.recipient.texts w.device.inbox queued draws now completes)) :=
    held.setInbox fun _ _ bound => peer_handle bound
  unfold World.receive
  simp only
  split
  · next made => exact kept.deliver (limited_handle made.1 made.2).1
  · exact kept

theorem Held.step (held : Held w) (modest : Modest S w event) (stepped : w.step S event = some next) :
    Held next := by
  cases event with
  | invite peer envelope now queued =>
    cases stepped
    refine (held.setInbox fun id owner bound => ?_).enqueue ?_
    · have moves : Moves S.recipient w.device id _ _ 0 0 := moves_invite peer envelope now queued
      exact peer_of_moves moves (by simp) bound
    have handled := invited S.recipient.node w.device.inbox peer envelope now queued
    generalize invite S.recipient.node w.device.inbox peer envelope now queued = answer at handled ⊢
    obtain ⟨_, inbox, event⟩ := answer
    intro offered some_
    cases handled with
    | answered => cases some_
    | bound event normalized absent ok offers =>
      rcases offers with none | rfl
      · cases none.symm.trans some_
      cases some_
      exact expires_of_normalize normalized
  | prekeyV2 =>
    cases stepped
    exact ⟨held.queue, held.bound⟩
  | inviteV2 peer envelope ext disk draws now nowSecs queued =>
    cases stepped
    refine Held.enqueue ⟨held.queue, held.bound⟩ fun offered raised => ?_
    cases queued with
    | false => cases raised
    | true =>
      have handles := V2.handles (L := S.libraries) S.nodeV2 w.v2 peer envelope ext disk draws now nowSecs
      generalize V2.Node.invite S.nodeV2 S.libraries w.v2 peer envelope ext disk draws now nowSecs =
        answer at handles raised
      obtain ⟨_, state, event⟩ := answer
      cases handles with
      | stored =>
        cases raised
        exact modest
      | _ => cases raised
  | unhandledV2 =>
    cases stepped
    exact held
  | receive =>
    simp only [World.step] at stepped
    split at stepped
    · cases stepped
    next queued rest waiting =>
      cases stepped
      refine Held.receive ⟨fun later member => held.queue later ?_, held.bound⟩
      rw [waiting]
      exact List.mem_cons_of_mem _ member
  | collect sender envelope =>
    cases stepped
    have kept : Held (w.setInbox (collectInvite S.recipient.sharingPubkey w.device.inbox envelope).1) :=
      held.setInbox fun id owner bound => by
        have moves : Moves S.recipient w.device id _ _ 0 0 := moves_collect envelope
        exact peer_of_moves moves (by simp) bound
    split
    · next taken =>
        obtain ⟨mine, saved, ok, after⟩ := collectInvite_taken taken
        refine kept.deliver ?_
        rw [World.slot, World.setInbox, after]
        change (saved.slot envelope.envelopeId).peer = some sender
        rw [slot_of_save ok, if_pos rfl]
        exact (modest mine).2
    · exact kept
  | device event =>
    cases event with
    | invite | envelopeReceived | collect => cases stepped
    | delete =>
      cases stepped
      refine ⟨held.queue, fun other owner delivered => ?_⟩
      simp only [SortedMap.get?_erase] at delivered
      split at delivered
      · cases delivered
      next elsewhere =>
        have bound := held.bound other owner delivered
        simpa [World.slot, Directed.World.slot, elsewhere] using bound
    | revokeReceived | confirm | senderRevoke | load | save | revoke | expireAll =>
      simp only [World.step, map_eq_some_iff] at stepped
      obtain ⟨device, does, rfl⟩ := stepped
      refine ⟨held.queue, fun id owner delivered => ?_⟩
      obtain ⟨_, _, moves, -⟩ := moves_of_step does id
      exact peer_of_moves moves (by simp) (held.bound id owner delivered)

theorem held_empty : Held .empty := by
  refine ⟨fun _ member => ?_, fun _ _ delivered => ?_⟩
  · cases member
  · simp [World.empty] at delivered

/-! ## The law -/

theorem limitedV2_new {secret hash : B32} {now : V2.Now} :
    LimitedV2 now.wallSecs peer (V2.newRecord T envelope peer secret hash draws now) := by
  refine ⟨_, rfl, ?_, fun challenge issued => ?_, Nat.le_refl _, rfl, rfl⟩
  · exact (Nat.min_le_right _ _).trans (saturatingAdd_le _ _)
  cases issued
  exact Nat.le_refl _

theorem Held.lawful (held : Held w) (modest : Modest S w event) : Lawful S w event := by
  cases event with
  | invite | prekeyV2 => trivial
  | inviteV2 peer envelope ext disk draws now nowSecs =>
    intro next stepped id record absent stored
    cases stepped
    have handles := V2.handles (L := S.libraries) S.nodeV2 w.v2 peer envelope ext disk draws now nowSecs
    simp only [World.enqueue] at stored
    generalize V2.Node.invite S.nodeV2 S.libraries w.v2 peer envelope ext disk draws now nowSecs =
      answer at handles stored
    obtain ⟨_, state, event⟩ := answer
    cases handles with
    | stored taken ephemeral none files =>
      rw [files, SortedMap.get?_insert] at stored
      split at stored
      · cases stored
        exact limitedV2_new ..
      · cases absent.symm.trans stored
    | _ => cases absent.symm.trans stored
  | unhandledV2 =>
    intro next stepped
    cases stepped
    exact ⟨fun _ _ _ _ => rfl, rfl⟩
  | receive =>
    intro next stepped queued first absent stored
    obtain ⟨rest, waiting⟩ := List.head?_eq_some_iff.mp first
    simp only [World.step, waiting, some.injEq] at stepped
    subst stepped
    rw [slot_receive] at stored ⊢
    refine (limited_handle absent stored).2 (held.queue queued (waiting ▸ List.mem_cons_self)) ?_
    exact modest.imp_right fun within => within queued first
  | collect sender envelope now =>
    intro next stepped taken
    obtain ⟨mine, saved, ok, after⟩ := collectInvite_taken taken
    simp only [World.step, taken, if_true, some.injEq] at stepped
    subst stepped
    obtain ⟨within, bound⟩ := modest mine
    change Limited now sender
      ((collectInvite S.recipient.sharingPubkey w.device.inbox envelope).1.slot envelope.envelopeId)
    rw [after, slot_of_save ok, if_pos rfl]
    exact ⟨bound, envelope, rfl, within⟩
  | device event =>
    cases event with
    | confirm peer =>
      intro next stepped id owner delivered other
      have apart : (w.slot id).peer ≠ some peer := by
        rw [held.bound id owner delivered]
        exact fun same => other (some.inj same)
      simp only [World.step, map_eq_some_iff, Directed.World.step] at stepped
      obtain ⟨device, does, rfl⟩ := stepped
      split at does
      · cases does
        rfl
      next response inbox answered =>
        cases does
        exact slot_confirm_of_other apart answered
    | senderRevoke peer =>
      intro next stepped id owner delivered other
      have apart : (w.slot id).peer ≠ some peer := by
        rw [held.bound id owner delivered]
        exact fun same => other (some.inj same)
      cases stepped
      exact slot_senderRevoke_of_other apart
    | _ => trivial

end Steps

/-- If the senders keep to the limits where the recipient does not see to them, every envelope
that becomes a record is within the limits and bound, and no confirmation or revocation of
another peer changes it. -/
theorem limits_of_modest (S : Setup) (events : List Event) (modest : Along (World.step S) (Modest S) .empty events) :
    Along (World.step S) (Lawful S) .empty events :=
  along_of_invariant (fun held met stepped => held.step met stepped)
    (fun held met => held.lawful met) held_empty modest

/-! ## On concrete envelopes -/

namespace Paths

def setup : Setup := ⟨Shares.recipient, V2.SingleUse.Prekeys.node, V2.SingleUse.Prekeys.libraries⟩

def stranger : PeerId := ⟨[9]⟩

def other : B32 := .fill 32 6

def direct : DirectedEnvelope := { Shares.envelope with envelopeId := other }

def signed (envelope : DirectedEnvelope) : V2.InviteExt := { V2.SingleUse.Prekeys.unsigned with
    signature := Primitives.checksum.sign V2.SingleUse.Prekeys.signer
      (V2.SingleUse.Prekeys.libraries.sigMsg envelope V2.SingleUse.Prekeys.unsigned) }

def prekey : Event := .prekeyV2 V2.SingleUse.Prekeys.sender (.fill 16 5) [2] V2.SingleUse.Prekeys.secret
    V2.SingleUse.Prekeys.offerId 0

def inviteV2 (envelope : DirectedEnvelope) : Event :=
  .inviteV2 V2.SingleUse.Prekeys.sender envelope (signed envelope) .sound Shares.draws ⟨1000, 0⟩ 0 true

/-- A share of each version, and requests of the sender and of a stranger. -/
def calm : List Event := [.invite Shares.sender direct 1000 (.ok ()), .receive Shares.draws 1001 true, prekey,
    inviteV2 V2.SingleUse.Prekeys.envelope, .receive Shares.draws 1001 true,
    .device (.senderRevoke stranger other), .device (.confirm Shares.sender other "2222-2222".toList 1100)]

/-- An envelope of version 2 that is to be kept for centuries. -/
def lasting : DirectedEnvelope := { V2.SingleUse.Prekeys.envelope with expiresAt := 10000000000 }

/-- An envelope with the state and the counters its sender would like. -/
def forged : DirectedEnvelope := { Shares.envelope with state := .confirmed, passwordAttemptsRemaining := 255 }

def exceeds (at_ : Nat) (id : B32) (next : World) : Bool :=
  (next.slot id).envelope.any (fun envelope => !decide (Within at_ envelope))

end Paths

open Paths in
theorem limits_of_calm : ∃ last, run (World.step setup) .empty calm = some last ∧
      (last.slot other).envelope.any (·.state = .confirmed) = true ∧
      (last.slot Shares.id).envelope.any (·.state = .challengeIssued) = true ∧
      last.v2.records.files.contains Shares.id = true ∧
      Along (World.step setup) (Lawful setup) .empty calm := by
  have observed : (run (World.step setup) .empty calm).any (fun last =>
      (last.slot other).envelope.any (·.state = .confirmed) = true ∧
      (last.slot Shares.id).envelope.any (·.state = .challengeIssued) = true ∧
      last.v2.records.files.contains Shares.id = true) = true := by decide +kernel
  have modest : Along (World.step setup) (Modest setup) .empty calm := by decide +kernel
  obtain ⟨last, ran, confirmed, issued, stored⟩ := exists_of_any observed
  exact ⟨last, ran, confirmed, issued, stored, limits_of_modest setup calm modest⟩

theorem not_limited (beyond : Paths.exceeds at_ id next = true) : ¬ Limited at_ peer (next.slot id) := by
  rintro ⟨-, envelope, stored, within⟩
  simp [Paths.exceeds, stored, within] at beyond

theorem not_lawful_receive (first : before.queue.head? = some queued)
    (absent : (before.slot queued.envelope.envelopeId).envelope = none)
    (beyond : (before.step S (.receive draws now completes)).any
      (Paths.exceeds queued.at_ queued.envelope.envelopeId) = true) :
    ¬ Lawful S before (.receive draws now completes) := by
  obtain ⟨next, stepped, beyond⟩ := (any_eq_true _ _).mp beyond
  exact fun lawful => not_limited beyond (lawful next stepped queued first absent (isSome_of_any beyond))

open Paths in
/-- An invite of version 2 for centuries is kept as it is in the inbox of version 1; one of a
holder, or whose handling stops after the first write, is kept with the state and the
counters of its sender, bound to nobody. -/
theorem limits_exceeded : (∃ before, run (World.step setup) .empty [prekey, inviteV2 lasting] = some before ∧
      ¬ Lawful setup before (.receive Shares.draws 1001 true)) ∧
    (¬ Lawful setup .empty (.collect Shares.sender forged 1000)) ∧
    (∃ before, run (World.step setup) .empty [.invite Shares.sender forged 1000 (.ok ())] = some before ∧
      ¬ Lawful setup before (.receive Shares.draws 1001 false)) := by
  refine ⟨?_, ?_, ?_⟩
  · have observed : (run (World.step setup) .empty [prekey, inviteV2 lasting]).any (fun before =>
        before.queue.head? = some ⟨V2.SingleUse.Prekeys.sender, lasting, 1000⟩ ∧
        (before.slot Shares.id).envelope = none ∧
        (before.step setup (.receive Shares.draws 1001 true)).any (exceeds 1000 Shares.id)) = true := by
      decide +kernel
    obtain ⟨before, ran, first, absent, beyond⟩ := exists_of_any observed
    exact ⟨before, ran, not_lawful_receive first absent beyond⟩
  · have observed : (World.empty.step setup (.collect Shares.sender forged 1000)).any
        (exceeds 1000 Shares.id) = true := by decide +kernel
    obtain ⟨next, stepped, beyond⟩ := (any_eq_true _ _).mp observed
    exact fun lawful => not_limited beyond (lawful next stepped (by decide +kernel))
  · have observed : (run (World.step setup) .empty [.invite Shares.sender forged 1000 (.ok ())]).any
        (fun before => before.queue.head? = some ⟨Shares.sender, forged, 1000⟩ ∧
        (before.slot Shares.id).envelope = none ∧
        (before.step setup (.receive Shares.draws 1001 false)).any (exceeds 1000 Shares.id)) = true := by
      decide +kernel
    obtain ⟨before, ran, first, absent, beyond⟩ := exists_of_any observed
    exact ⟨before, ran, not_lawful_receive first absent beyond⟩

end Miasma.Directed.Limits
