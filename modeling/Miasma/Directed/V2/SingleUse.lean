import Miasma.Directed.V2.Intake
import Miasma.Directed.V2.Restarts

namespace Miasma.Directed.V2.SingleUse

open Data OfferTable

/-! Prekey offers are used once.

The secret of an offer ends in one record at most. -/

/-- An offer that was handed out, with the second it was made in. -/
structure Issue where
  peer : PeerId
  secret : B32
  at_ : Nat
deriving DecidableEq

/-- An invite that became a record, with the second it came in. -/
structure Receipt where
  peer : PeerId
  envelope : DirectedEnvelope
  ext : InviteExt
  at_ : Nat
deriving DecidableEq

/-- Version 2 of a node that is up for `ms` milliseconds, and what happened so far. -/
structure World where
  state : State
  ms : Nat
  issued : List Issue
  receipts : List Receipt

inductive Event where
  | elapse (ms : Nat)
  | prekey (peer : PeerId) (requestId : B16) (suites : Bytes) (secret : B32)
      (offerId : OfferId)
  | invite (peer : PeerId) (envelope : DirectedEnvelope) (ext : InviteExt) (disk : Disk)
      (draws : Draws) (wallSecs : Nat)
  | step (id : B32) (event : IncomingEvent) (wallSecs : Nat)

/-- An event on the record of an id, `step_incoming_v2`; no result where the program panics. -/
def Records.step (T : Texts) (records : Records) (id : B32) (event : IncomingEvent)
    (now : Now) : Option Records :=
  match stepIncomingV2 T (records.files.get? id) event now with
  | none => none
  | some (none, _) => some ⟨records.files.erase id, fun other held found => by
    rw [SortedMap.get?_erase] at found
    split at found
    · cases found
    · exact records.filed other held found⟩
  | some (some record, _) =>
    some ⟨records.files.insert record.wire.envelopeId record, records.filed_insert record⟩

namespace World

def empty : World := ⟨.empty, 0, [], []⟩

/-- `directed_v2_offer_secs`. -/
def secs (w : World) : Nat := w.ms / 1000

def now (w : World) (wallSecs : Nat) : Now := ⟨wallSecs, w.ms⟩

/-- An invite that raised the event of version 1 became a record. -/
def note (w : World) (state : State) (raised : Option (PeerId × DirectedEnvelope)) (receipt : Receipt) : World :=
  { w with
    state := state
    receipts := if raised.isSome then w.receipts ++ [receipt] else w.receipts }

def step (node : Node) (L : Libraries) (w : World) : Event → Option World
  | .elapse ms => some { w with ms := w.ms + ms }
  | .prekey peer requestId suites secret offerId =>
    let answer := node.prekeyRequest L w.state.offers peer requestId suites secret offerId w.secs
    some { w with
      state := { w.state with offers := answer.2 }
      issued := match answer.1 with
        | .prekeyOffer _ => w.issued ++ [⟨peer, secret, w.secs⟩]
        | _ => w.issued }
  | .invite peer envelope ext disk draws wallSecs =>
    let handled := node.invite L w.state peer envelope ext disk draws (w.now wallSecs) w.secs
    some (w.note handled.2.1 handled.2.2 ⟨peer, envelope, ext, w.secs⟩)
  | .step id event wallSecs =>
    match Records.step L.texts w.state.records id event (w.now wallSecs) with
    | none => some w
    | some records => some { w with state := { w.state with records := records } }

end World

/-- The secrets that are drawn have public keys of their own. -/
def Fresh (L : Libraries) (w : World) : Event → Prop
  | .prekey _ _ _ secret _ => ∀ issue ∈ w.issued, L.publicKey issue.secret ≠ L.publicKey secret
  | _ => True

/-- If the disk fails an invite, its offer was made in this second. -/
def Prompt (w : World) : Event → Prop
  | .invite peer _ ext disk _ _ =>
    disk.writes = false ∨ disk.reloads = false ∨ maxEnvelopes ≤ w.state.records.files.size →
    ∀ entry ∈ w.state.offers.entries, entry.key = (peer, ext.offerId) → entry.created = w.secs
  | _ => True

instance (L : Libraries) (w : World) : (event : Event) → Decidable (Fresh L w event)
  | .prekey .. => inferInstanceAs (Decidable (∀ _ ∈ _, _))
  | .elapse _ | .invite .. | .step .. => .isTrue trivial

instance (w : World) : (event : Event) → Decidable (Prompt w event)
  | .invite .. => inferInstanceAs (Decidable (_ ∨ _ ∨ _ ≤ _ → ∀ _ ∈ _, _))
  | .elapse _ | .prekey .. | .step .. => .isTrue trivial

/-! ## What a step does -/

inductive Moved (L : Libraries) (w : World) : Event → World → Prop
  | elapsed (ms : Nat) : Moved L w (.elapse ms) { w with ms := w.ms + ms }
  | refused {peer : PeerId} {requestId : B16} {suites : Bytes} {secret : B32}
      {offerId : OfferId} {offers : OfferTable PendingDirectedOffer}
      (fewer : ∀ entry ∈ offers.entries, entry ∈ w.state.offers.entries) :
      Moved L w (.prekey peer requestId suites secret offerId) { w with state := { w.state with offers := offers } }
  | offered {peer : PeerId} {requestId : B16} {suites : Bytes} {secret : B32}
      {offerId : OfferId} :
      Moved L w (.prekey peer requestId suites secret offerId) { w with
          state := { w.state with offers := (w.state.offers.insert peer offerId
            ⟨requestId, L.publicKey secret, secret⟩ w.secs).1 }
          issued := w.issued ++ [⟨peer, secret, w.secs⟩] }
  | invited {peer : PeerId} {envelope : DirectedEnvelope} {ext : InviteExt} {disk : Disk}
      {draws : Draws} {wallSecs : Nat} {state : State} {raised : Option (PeerId × DirectedEnvelope)}
      (handles : Handles L w.state peer envelope ext disk draws (w.now wallSecs) w.secs state raised) :
      Moved L w (.invite peer envelope ext disk draws wallSecs) (w.note state raised ⟨peer, envelope, ext, w.secs⟩)
  | idle {id : B32} {event : IncomingEvent} {wallSecs : Nat} :
      Moved L w (.step id event wallSecs) w
  | stepped {id : B32} {event : IncomingEvent} {wallSecs : Nat} {records : Records}
      (stepped : Records.step L.texts w.state.records id event (w.now wallSecs) = some records) :
      Moved L w (.step id event wallSecs) { w with state := { w.state with records := records } }

theorem insert_refused {table : OfferTable V} {id : OfferId} {now : Nat}
    (refused : table.insert peer id offer now = (after, false)) :
    ∀ entry ∈ after.entries, entry ∈ table.entries := by
  unfold OfferTable.insert at refused
  simp only at refused
  split at refused
  · cases refused
    exact fun entry member => mem_retain table member
  · cases refused

theorem moved (stepped : w.step node L event = some next) : Moved L w event next := by
  cases event with
  | elapse ms =>
    cases stepped
    exact .elapsed ms
  | prekey peer requestId suites secret offerId =>
    simp only [World.step, Option.some.injEq] at stepped
    subst stepped
    unfold Node.prekeyRequest
    split
    · exact .refused fun _ member => member
    split
    · exact .refused fun _ member => member
    split
    · exact .refused fun _ member => member
    simp only
    split
    · next offers full => exact .refused (insert_refused full)
    next offers made =>
      have after : offers = (w.state.offers.insert peer offerId
          ⟨requestId, L.publicKey secret, secret⟩ w.secs).1 := by rw [made]
      exact after ▸ .offered
  | invite peer envelope ext disk draws =>
    cases stepped
    exact .invited (handles node w.state peer envelope ext disk draws _ _)
  | step =>
    simp only [World.step] at stepped
    split at stepped
    · cases stepped
      exact .idle
    next records does =>
      cases stepped
      exact .stepped does

/-! ## The events of a record -/

variable {T : Texts} {now : Now} {answer : Except Illegal Effects} {event : IncomingEvent}

theorem Stepped.keeps (stepped : Stepped T fields now event after answer) :
    after.senderPeerId = fields.senderPeerId ∧ (after.rEphSecret = fields.rEphSecret ∨ after.rEphSecret = none) := by
  have given : fields.giveBack.senderPeerId = fields.senderPeerId ∧
      fields.giveBack.rEphSecret = fields.rEphSecret := by
    unfold IncomingLocal.giveBack
    split <;> exact ⟨rfl, rfl⟩
  cases stepped with
  | retrieved => exact ⟨given.1, .inr rfl⟩
  | returned => exact ⟨given.1, .inl given.2⟩
  | lastWrong | late | timedOut | failed | finished => exact ⟨rfl, .inr rfl⟩
  | refused | replayed | accepted | wrong | started | mistaken => exact ⟨rfl, .inl rfl⟩

/-- The record `after` is `before` with some of its own fields changed: the same envelope,
the same sender, and no secret but the one that was there. -/
structure Evolves (before after : IncomingRecord) : Prop where
  wire : after.wire = before.wire
  secret : ∀ fields secret, after.localFields = some fields → fields.rEphSecret = some secret →
    ∃ earlier, before.localFields = some earlier ∧ earlier.rEphSecret = some secret ∧
      earlier.senderPeerId = fields.senderPeerId

theorem Evolves.refl : Evolves record record :=
  ⟨rfl, fun fields _ found secretly => ⟨fields, found, secretly, rfl⟩⟩

variable {after : IncomingRecord}

theorem evolves_of_step (result : before.step T event now = some (after, answer)) : Evolves before after := by
  unfold IncomingRecord.step at result
  cases found : before.localFields with
  | none =>
    simp only [found, Option.some.injEq, Prod.mk.injEq] at result
    exact result.1 ▸ .refl
  | some fields =>
    simp only [found, Option.map_eq_some_iff] at result
    obtain ⟨⟨changed, said⟩, does, same⟩ := result
    cases same
    obtain ⟨sender, kept⟩ := Stepped.keeps (stepped does)
    refine ⟨rfl, fun fields secret there secretly => ⟨_, found, ?_, ?_⟩⟩
    · cases there
      rcases kept with same | gone
      · exact same ▸ secretly
      · cases gone.symm.trans secretly
    · cases there
      exact sender.symm

theorem evolves_of_stepIncomingV2 {file : Option IncomingRecord} {answer : Except StepError Effects}
    (result : stepIncomingV2 T file event now = some (some after, answer)) :
    ∃ before, file = some before ∧ Evolves before after := by
  cases file with
  | none => cases result
  | some before =>
    refine ⟨before, rfl, ?_⟩
    simp only [stepIncomingV2, Option.map_eq_some_iff] at result
    obtain ⟨⟨changed, said⟩, does, same⟩ := result
    have evolves := evolves_of_step does
    split at same
    · cases same
      exact .refl
    split at same
    · cases same
      exact .refl
    · split at same <;> cases same
      exact evolves

variable {records : Records}

theorem Records.step_get? {after : Records} {id : B32}
    (stepped : Records.step T records id event now = some after)
    (found : after.files.get? other = some record) :
    ∃ before, records.files.get? other = some before ∧ Evolves before record := by
  unfold Records.step at stepped
  split at stepped
  · cases stepped
  · cases stepped
    exact ⟨record, SortedMap.get?_of_erase found, .refl⟩
  next changed answer result =>
    cases stepped
    obtain ⟨before, there, evolves⟩ := evolves_of_stepIncomingV2 result
    rcases SortedMap.get?_insert_cases found with ⟨rfl, rfl⟩ | ⟨-, old⟩
    · rw [evolves.wire, records.filed id before there]
      exact ⟨before, there, evolves⟩
    · exact ⟨record, old, .refl⟩

/-! ## Where a secret is -/

/-- The keys of the offers, of the invites that became records and of the records. -/
structure Sound (L : Libraries) (w : World) : Prop where
  /-- An offer of the table was issued to its peer. -/
  offered : ∀ entry ∈ w.state.offers.entries, entry.offer.rEphPub = L.publicKey entry.offer.rEphSecret ∧
      ∃ issue ∈ w.issued, issue.peer = entry.peer ∧ issue.secret = entry.offer.rEphSecret
  /-- The offers of the table have keys of their own. -/
  apart : ∀ entry ∈ w.state.offers.entries, ∀ other ∈ w.state.offers.entries,
    entry.offer.rEphPub = other.offer.rEphPub → entry.key = other.key
  /-- A key that became a record is not in the table. -/
  unspent : ∀ receipt ∈ w.receipts, ∀ entry ∈ w.state.offers.entries,
    receipt.ext.recipientEphemeral ≠ entry.offer.rEphPub
  known : ∀ receipt ∈ w.receipts, ∃ issue ∈ w.issued, receipt.ext.recipientEphemeral = L.publicKey issue.secret
  once : ∀ receipt ∈ w.receipts, ∀ other ∈ w.receipts,
    receipt.ext.recipientEphemeral = other.ext.recipientEphemeral → receipt = other
  /-- A record with a secret is of an invite with its key, by the peer the offer was for. -/
  kept : ∀ id record fields secret, w.state.records.files.get? id = some record →
    record.localFields = some fields → fields.rEphSecret = some secret →
    ∃ receipt ∈ w.receipts, receipt.envelope.envelopeId = id ∧ receipt.peer = fields.senderPeerId ∧
      receipt.ext.recipientEphemeral = L.publicKey secret ∧
      ∃ issue ∈ w.issued, issue.secret = secret ∧ issue.peer = receipt.peer

/-- The ages of the offers and of the invites that became records. -/
structure Timely (L : Libraries) (w : World) : Prop where
  created : ∀ entry ∈ w.state.offers.entries, ∀ issue ∈ w.issued,
    L.publicKey issue.secret = entry.offer.rEphPub → entry.created = issue.at_
  arrived : ∀ receipt ∈ w.receipts, ∀ issue ∈ w.issued,
    L.publicKey issue.secret = receipt.ext.recipientEphemeral → receipt.at_ ≤ issue.at_ + offerTtl

structure Aged (L : Libraries) (w : World) : Prop where
  sound : Sound L w
  timely : Timely L w

section Steps

variable {L : Libraries} {w next : World} {event : Event}

variable {offers : OfferTable PendingDirectedOffer}

theorem Sound.fewer (sound : Sound L w) (fewer : ∀ entry ∈ offers.entries, entry ∈ w.state.offers.entries) :
    Sound L { w with state := { w.state with offers := offers } } where
  offered entry member := sound.offered entry (fewer entry member)
  apart entry member other there := sound.apart entry (fewer entry member) other (fewer other there)
  unspent receipt noted entry member := sound.unspent receipt noted entry (fewer entry member)
  known := sound.known
  once := sound.once
  kept := sound.kept

theorem Sound.pub_issued (sound : Sound L w) (member : entry ∈ w.state.offers.entries) :
    ∃ issue ∈ w.issued, L.publicKey issue.secret = entry.offer.rEphPub := by
  obtain ⟨pub, issue, there, -, secret⟩ := sound.offered entry member
  exact ⟨issue, there, by rw [pub, secret]⟩

variable {peer : PeerId}

theorem Sound.offer (sound : Sound L w)
    (fresh : ∀ issue ∈ w.issued, L.publicKey issue.secret ≠ L.publicKey secret) :
    Sound L { w with
      state := { w.state with offers := (w.state.offers.insert peer offerId
        ⟨requestId, L.publicKey secret, secret⟩ w.secs).1 }
      issued := w.issued ++ [⟨peer, secret, w.secs⟩] } where
  offered entry member := by
    rcases mem_insert member with held | rfl
    · obtain ⟨pub, issue, there, facts⟩ := sound.offered entry held
      exact ⟨pub, issue, List.mem_append_left _ there, facts⟩
    · exact ⟨rfl, _, List.mem_append_right _ List.mem_cons_self, rfl, rfl⟩
  apart entry member other there same := by
    rcases mem_insert member with held | rfl <;> rcases mem_insert there with kept | rfl
    · exact sound.apart entry held other kept same
    · obtain ⟨issue, drawn, pub⟩ := sound.pub_issued held
      exact absurd (pub.trans same) (fresh issue drawn)
    · obtain ⟨issue, drawn, pub⟩ := sound.pub_issued kept
      exact absurd (pub.trans same.symm) (fresh issue drawn)
    · rfl
  unspent receipt noted entry member := by
    rcases mem_insert member with held | rfl
    · exact sound.unspent receipt noted entry held
    obtain ⟨issue, drawn, pub⟩ := sound.known receipt noted
    exact fun same => fresh issue drawn (pub.symm.trans same)
  known receipt noted := by
    obtain ⟨issue, there, pub⟩ := sound.known receipt noted
    exact ⟨issue, List.mem_append_left _ there, pub⟩
  once := sound.once
  kept id record fields held stored found secretly := by
    obtain ⟨receipt, noted, there, peer, pub, issue, drawn, facts⟩ :=
      sound.kept id record fields held stored found secretly
    exact ⟨receipt, noted, there, peer, pub, issue, List.mem_append_left _ drawn, facts⟩

variable {offer : PendingDirectedOffer}

theorem Sound.restore (sound : Sound L w) (taken : (w.state.offers.take peer offerId w.secs).1 = some offer) :
    Sound L { w with state := { w.state with
      offers := ((w.state.offers.take peer offerId w.secs).2.insert peer offerId offer w.secs).1 } } := by
  obtain ⟨entry, member, key, rfl, -⟩ := take_eq_some taken
  obtain ⟨rfl, rfl⟩ := Prod.mk.inj key
  have cases_ {held : Entry PendingDirectedOffer}
      (there : held ∈ ((w.state.offers.take entry.peer entry.id w.secs).2.insert entry.peer entry.id
        entry.offer w.secs).1.entries) :
      (held ∈ w.state.offers.entries ∧ held.key ≠ entry.key) ∨ held = ⟨entry.peer, entry.id, entry.offer, w.secs⟩ :=
    (mem_insert there).imp_left mem_take
  exact { sound with
    offered := fun held there => by
      rcases cases_ there with ⟨before, -⟩ | rfl
      · exact sound.offered held before
      · exact sound.offered entry member
    apart := fun held there other here same => by
      rcases cases_ there with ⟨before, away⟩ | rfl <;> rcases cases_ here with ⟨earlier, apart⟩ | rfl
      · exact sound.apart held before other earlier same
      · exact absurd (sound.apart held before entry member same) away
      · exact absurd (sound.apart entry member other earlier same).symm apart
      · rfl
    unspent := fun receipt noted held there => by
      rcases cases_ there with ⟨before, -⟩ | rfl
      · exact sound.unspent receipt noted held before
      · exact sound.unspent receipt noted entry member }

theorem Sound.store {hash : B32} (sound : Sound L w)
    (taken : (w.state.offers.take peer ext.offerId w.secs).1 = some offer)
    (ephemeral : ext.recipientEphemeral = offer.rEphPub)
    (files : records.files = w.state.records.files.insert envelope.envelopeId
      (newRecord L.texts envelope peer offer.rEphSecret hash draws now)) :
    Sound L (w.note ⟨(w.state.offers.take peer ext.offerId w.secs).2, records⟩ (some raised)
      ⟨peer, envelope, ext, w.secs⟩) := by
  obtain ⟨entry, member, key, rfl, -⟩ := take_eq_some taken
  obtain ⟨pub, issue, drawn, asked, made⟩ := sound.offered entry member
  have away {held : Entry PendingDirectedOffer}
      (there : held ∈ (w.state.offers.take peer ext.offerId w.secs).2.entries) :
      held ∈ w.state.offers.entries ∧ held.key ≠ entry.key := key ▸ mem_take there
  have noted {receipt : Receipt} (there : receipt ∈ w.receipts ++ [⟨peer, envelope, ext, w.secs⟩]) :
      receipt ∈ w.receipts ∨ receipt = ⟨peer, envelope, ext, w.secs⟩ := by simpa using there
  exact {
    offered := fun held there => sound.offered held (away there).1
    apart := fun held there other here => sound.apart held (away there).1 other (away here).1
    unspent := fun receipt there held here => by
      rcases noted there with before | rfl
      · exact sound.unspent receipt before held (away here).1
      intro same
      exact (away here).2 (sound.apart entry member held (away here).1 (ephemeral.symm.trans same)).symm
    known := fun receipt there => by
      rcases noted there with before | rfl
      · exact sound.known receipt before
      · exact ⟨issue, drawn, by rw [ephemeral, pub, made]⟩
    once := fun receipt there other here same => by
      rcases noted there with before | rfl <;> rcases noted here with earlier | rfl
      · exact sound.once receipt before other earlier same
      · exact absurd (same.trans ephemeral) (sound.unspent receipt before entry member)
      · exact absurd (same.symm.trans ephemeral) (sound.unspent other earlier entry member)
      · rfl
    kept := fun id held heldFields heldSecret stored local_ secretly => by
      rcases SortedMap.get?_insert_cases (files ▸ stored) with ⟨rfl, rfl⟩ | ⟨-, stored⟩
      · cases local_
        cases secretly
        exact ⟨⟨peer, envelope, ext, w.secs⟩, List.mem_append_right _ List.mem_cons_self, rfl,
          rfl, ephemeral.trans pub, issue, drawn, made,
          asked.trans (congrArg Prod.fst key)⟩
      · obtain ⟨receipt, there, facts⟩ := sound.kept id held heldFields heldSecret stored local_ secretly
        exact ⟨receipt, List.mem_append_left _ there, facts⟩ }

theorem Sound.evolve (sound : Sound L w) (evolve : ∀ id record, records.files.get? id = some record →
      ∃ before, w.state.records.files.get? id = some before ∧ Evolves before record) :
    Sound L { w with state := { w.state with records := records } } where
  offered := sound.offered
  apart := sound.apart
  unspent := sound.unspent
  known := sound.known
  once := sound.once
  kept id record fields secret stored found secretly := by
    obtain ⟨before, there, evolves⟩ := evolve id record stored
    obtain ⟨earlier, local_, same, sender⟩ := evolves.secret fields secret found secretly
    obtain ⟨receipt, noted, facts⟩ := sound.kept id before earlier secret there local_ same
    exact ⟨receipt, noted, sender ▸ facts⟩

theorem Sound.move (sound : Sound L w) (fresh : Fresh L w event) (moved : Moved L w event next) : Sound L next := by
  cases moved with
  | elapsed =>
    exact ⟨sound.offered, sound.apart, sound.unspent, sound.known, sound.once, sound.kept⟩
  | refused fewer => exact sound.fewer fewer
  | offered => exact sound.offer fresh
  | invited handles =>
    cases handles with
    | kept => exact sound
    | spent => exact sound.fewer fun _ member => (mem_take member).1
    | restored taken => exact sound.restore taken
    | stored taken ephemeral absent files => exact sound.store taken ephemeral files
  | idle => exact sound
  | stepped stepped => exact sound.evolve fun _ _ found => Records.step_get? stepped found

theorem Timely.fewer (timely : Timely L w) (fewer : ∀ entry ∈ offers.entries, entry ∈ w.state.offers.entries) :
    Timely L { w with state := { w.state with offers := offers } } :=
  ⟨fun entry member => timely.created entry (fewer entry member), timely.arrived⟩

theorem Timely.move (timely : Timely L w) (sound : Sound L w) (fresh : Fresh L w event)
    (prompt : Prompt w event) (moved : Moved L w event next) : Timely L next := by
  cases moved with
  | elapsed => exact ⟨timely.created, timely.arrived⟩
  | refused fewer => exact timely.fewer fewer
  | @offered =>
    refine ⟨fun entry member issue drawn same => ?_, fun receipt noted issue drawn same => ?_⟩
    · rcases mem_insert member with held | rfl <;> rcases mem_snoc.mp drawn with before | rfl
      · exact timely.created entry held issue before same
      · obtain ⟨earlier, there, pub⟩ := sound.pub_issued held
        exact absurd (pub.trans same.symm) (fresh earlier there)
      · exact absurd same (fresh issue before)
      · rfl
    · rcases mem_snoc.mp drawn with before | rfl
      · exact timely.arrived receipt noted issue before same
      obtain ⟨earlier, there, pub⟩ := sound.known receipt noted
      exact absurd (pub.symm.trans same.symm) (fresh earlier there)
  | @invited peer envelope ext disk draws wallSecs _ _ handles =>
    cases handles with
    | kept => exact timely
    | spent => exact timely.fewer fun _ member => (mem_take member).1
    | restored taken failed =>
      obtain ⟨entry, member, key, rfl, -⟩ := take_eq_some taken
      refine ⟨fun held there issue drawn same => ?_, timely.arrived⟩
      rcases mem_insert there with before | rfl
      · exact timely.created held (mem_take before).1 issue drawn same
      have made := prompt failed entry member key
      exact made.symm.trans (timely.created entry member issue drawn same)
    | stored taken ephemeral =>
      obtain ⟨entry, member, key, rfl, live⟩ := take_eq_some taken
      refine ⟨fun held there => timely.created held (mem_take there).1, fun receipt there issue drawn same => ?_⟩
      have there : receipt ∈ w.receipts ∨ receipt = ⟨peer, envelope, ext, w.secs⟩ := by
        simpa [World.note] using there
      rcases there with before | rfl
      · exact timely.arrived receipt before issue drawn same
      have made := timely.created entry member issue drawn (same.trans ephemeral)
      change w.secs ≤ issue.at_ + offerTtl
      omega
  | idle => exact timely
  | stepped => exact ⟨timely.created, timely.arrived⟩

/-- An invite changes no record, and one that became a record makes no other. -/
def Idempotent (node : Node) (L : Libraries) (w : World) : Event → Prop
  | .invite peer envelope ext disk draws wallSecs => ∀ next,
      w.step node L (.invite peer envelope ext disk draws wallSecs) = some next →
      (∀ id record, w.state.records.files.get? id = some record → next.state.records.files.get? id = some record) ∧
      ((∃ receipt ∈ w.receipts, receipt.envelope = envelope ∧ receipt.ext = ext) →
        next.state.records = w.state.records)
  | _ => True

theorem Sound.idempotent (sound : Sound L w) : Idempotent node L w event := by
  cases event with
  | elapse | prekey | step => trivial
  | invite =>
    intro next stepped
    cases moved stepped with
    | invited handles =>
      cases handles with
      | kept | spent | restored => exact ⟨fun _ _ stored => stored, fun _ => rfl⟩
      | stored taken ephemeral absent files =>
        refine ⟨fun id record stored => ?_, ?_⟩
        · simp only [World.note]
          rw [files, SortedMap.get?_insert, if_neg, stored]
          rintro rfl
          cases absent.symm.trans stored
        · rintro ⟨receipt, noted, -, rfl⟩
          obtain ⟨entry, member, -, rfl, -⟩ := take_eq_some taken
          exact absurd ephemeral (sound.unspent receipt noted entry member)

theorem sound_empty : Sound L .empty := by
  constructor <;> simp [World.empty, State.empty, OfferTable.empty, Records.empty]

theorem timely_empty : Timely L .empty := by
  constructor <;> simp [World.empty, State.empty, OfferTable.empty]

theorem aged_of_run (fresh : Along (World.step node L) (Fresh L) .empty events)
    (prompt : Along (World.step node L) Prompt .empty events)
    (ran : run (World.step node L) .empty events = some last) : Aged L last :=
  invariant_of_run (fun aged met stepped => ⟨aged.sound.move met.1 (moved stepped),
      aged.timely.move aged.sound met.1 met.2 (moved stepped)⟩)
    ⟨sound_empty, timely_empty⟩ (fresh.and prompt) ran

end Steps

/-- Over every run with secrets that are not drawn twice: records of different envelopes have
different secrets, a secret is in a record only if its invite came from the peer of the offer,
and no invite changes a record.  If no invite fails at the disk in a later second than the one
of its offer, it came within the lifetime of the offer. -/
theorem offers_single_use (node : Node) (L : Libraries) (events : List Event) {last : World}
    (fresh : Along (World.step node L) (Fresh L) .empty events)
    (ran : run (World.step node L) .empty events = some last) :
    (∀ id other record held fields heldFields secret, last.state.records.files.get? id = some record →
      last.state.records.files.get? other = some held →
      record.localFields = some fields → held.localFields = some heldFields →
      fields.rEphSecret = some secret → heldFields.rEphSecret = some secret → id = other) ∧
    (∀ id record fields secret, last.state.records.files.get? id = some record →
      record.localFields = some fields → fields.rEphSecret = some secret →
      ∃ issue ∈ last.issued, ∃ receipt ∈ last.receipts, issue.secret = secret ∧ receipt.envelope.envelopeId = id ∧
        receipt.peer = fields.senderPeerId ∧ receipt.peer = issue.peer ∧
        (Along (World.step node L) Prompt .empty events → receipt.at_ ≤ issue.at_ + offerTtl)) ∧
    Along (World.step node L) (Idempotent node L) .empty events := by
  have sound : Sound L last :=
    invariant_of_run (fun sound met stepped => sound.move met (moved stepped)) sound_empty fresh ran
  refine ⟨?_, ?_, ?_⟩
  · intro id other record held fields heldFields secret stored there found local_ mine theirs
    obtain ⟨receipt, noted, here, -, pub, -⟩ := sound.kept id record fields secret stored found mine
    obtain ⟨second, also, away, -, same, -⟩ := sound.kept other held heldFields secret there local_ theirs
    rw [← here, ← away, sound.once receipt noted second also (pub.trans same.symm)]
  · intro id record fields secret stored found secretly
    obtain ⟨receipt, noted, here, sender, pub, issue, drawn, made, asked⟩ :=
      sound.kept id record fields secret stored found secretly
    refine ⟨issue, drawn, receipt, noted, made, here, sender, asked.symm, fun prompt => ?_⟩
    exact (aged_of_run fresh prompt ran).timely.arrived receipt noted issue drawn (made ▸ pub.symm)
  · exact along_of_invariant (fun sound met stepped => sound.move met (moved stepped))
      (fun sound _ => sound.idempotent) sound_empty fresh

/-! ## On concrete invites -/

namespace Prekeys

/-- The libraries as simple functions: a key is its own public key and its own peer. -/
def libraries : Libraries where
  prim := .checksum
  blake3 := Primitives.checksum.deriveKey "hash"
  publicKey := id
  peerId key := some ⟨key.toList⟩
  texts := Shares.recipient.texts

def node : Node := ⟨.fill 32 9, some (.fill 32 2), true⟩

def signer : B32 := .fill 32 1

def sender : PeerId := ⟨signer.toList⟩

def envelope : DirectedEnvelope :=
  { Shares.envelope with version := 2, passwordAttemptsRemaining := 0, challengeAttemptsRemaining := 0 }

def offerId : OfferId := .fill 16 6

def secret : B32 := .fill 32 8

def unsigned : InviteExt where
  suite := 2
  kdf := ⟨1024, 1, 1⟩
  senderIdentity := signer
  senderBinding := libraries.signBinding signer envelope.senderPubkey
  recipientIdentity := .fill 32 9
  offerId := offerId
  recipientEphemeral := secret
  wrappedDek := []
  dekNonce := .fill 24 0
  signature := default

def ext : InviteExt :=
  { unsigned with signature := Primitives.checksum.sign signer (libraries.sigMsg envelope unsigned) }

def request : Event := .prekey sender (.fill 16 5) [2] secret offerId

def invite (disk : Disk) : Event := .invite sender envelope ext disk Shares.draws 1000

def full : Disk := { Disk.sound with writes := false }

/-- The write fails at once, succeeds five seconds later, and the invite comes again. -/
def prompt : List Event := [request, invite full, .elapse 5000, invite .sound, invite .sound]

/-- The write fails after fifteen seconds and the invite is sent again after thirty. -/
def late : List Event := [request, .elapse 15000, invite full, .elapse 15000, invite .sound]

end Prekeys

open Prekeys in
theorem offers_single_use_of_prompt : ∃ last, run (World.step node libraries) .empty prompt = some last ∧
      (last.state.records.files.get? envelope.envelopeId).any (fun record =>
        record.localFields.any (·.rEphSecret = some secret)) ∧
      ∃ issue ∈ last.issued, ∃ receipt ∈ last.receipts,
        issue.secret = secret ∧ receipt.at_ ≤ issue.at_ + offerTtl := by
  have observed : (run (World.step node libraries) .empty prompt).any (fun last =>
      (last.state.records.files.get? envelope.envelopeId).any (fun record =>
        record.localFields.any (·.rEphSecret = some secret))) = true := by
    decide +kernel
  have fresh : Along (World.step node libraries) (Fresh libraries) .empty prompt := by decide +kernel
  have met : Along (World.step node libraries) Prompt .empty prompt := by decide +kernel
  obtain ⟨last, ran, stored⟩ := (Option.any_eq_true _ _).mp observed
  obtain ⟨record, there, secretly⟩ := (Option.any_eq_true _ _).mp stored
  obtain ⟨fields, found, same⟩ := exists_of_any secretly
  obtain ⟨issue, drawn, receipt, noted, made, -, -, -, inTime⟩ :=
    (offers_single_use node libraries prompt fresh ran).2.1 envelope.envelopeId record fields secret
      there found (same)
  exact ⟨last, ran, stored, issue, drawn, receipt, noted, made, inTime met⟩

open Prekeys in
/-- An offer of the first second is put back after fifteen, and an invite is taken for it
after thirty. -/
theorem offer_outlives_lifetime : ∃ last, run (World.step node libraries) .empty late = some last ∧
      (last.state.records.files.get? envelope.envelopeId).any (fun record =>
        record.localFields.any (·.rEphSecret = some secret)) ∧
      last.issued = [⟨sender, secret, 0⟩] ∧ last.receipts = [⟨sender, envelope, ext, 30⟩] ∧
      offerTtl < 30 := by
  have observed : (run (World.step node libraries) .empty late).any (fun last =>
      (last.state.records.files.get? envelope.envelopeId).any (fun record =>
        record.localFields.any (·.rEphSecret = some secret)) ∧
      last.issued = [⟨sender, secret, 0⟩] ∧ last.receipts = [⟨sender, envelope, ext, 30⟩]) = true := by
    decide +kernel
  obtain ⟨last, ran, stored, issued, receipts⟩ := exists_of_any observed
  exact ⟨last, ran, stored, issued, receipts, by decide⟩

end Miasma.Directed.V2.SingleUse
