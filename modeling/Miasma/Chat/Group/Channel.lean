import Miasma.Chat.Engine.Required
import Miasma.Chat.Group.Engine
import Miasma.Chat.Pq.Ignored

namespace Miasma.Chat

open Data Protocol Chat.Pq Sample Envelope

/-! The two delivery channels of a device: both open an envelope the same way, and differ in what
they do with the plaintext. -/

structure Device (S : Suite) (X : Exchange S.Key) where
  chat : Core S X
  groups : Group.GroupCore

variable {S : Suite} {X : Exchange S.Key}

def Core.opened (c : Core S X) (peer : B32) (wire : Bytes) (ratchet : S.Secret)
    (fate : Fate) : Option Bytes :=
  match decode wire with
  | .error _ => none
  | .ok env => ((c.settleRollback peer fate).unlock peer env ratchet).2.toOption.map Unlocked.plain

namespace Device

/-- `ChatCore::accept`. -/
def acceptChat (d : Device S X) (peer : B32) (wire : Bytes) (now : UInt64)
    (draw : OpenDraw S X) (fate : Fate) : Device S X × AckStatus :=
  let (chat, outcome) := d.chat.accept peer wire now draw fate
  ({ d with chat := chat }, outcome.status)

/-- `GroupCore::accept`; the second answer is the list of contacts to wake. -/
def acceptGroup (P : Primitives) (d : Device S X) (faults : Group.Faults) (peer : B32)
    (wire : Bytes) (now : UInt64) (trusted : B32 → Bool) (draw : OpenDraw S X)
    (fate : Fate) : Device S X × AckStatus × List B32 :=
  let handle (plain : Bytes) := d.groups.handle P faults peer plain now trusted
  let (chat, status) := d.chat.acceptRaw peer wire (fun plain => (handle plain).2.1) draw fate
  match d.chat.opened peer wire draw.ratchet fate with
  | none => ({ d with chat := chat }, status, [])
  | some plain => (⟨chat, (handle plain).1⟩, status, (handle plain).2.2)

structure Alike (first second : Device S X × AckStatus) : Prop where
  status : first.2 = second.2
  pq : first.1.chat.pq = second.1.chat.pq
  sessions : first.1.chat.store = second.1.chat.store

end Device

/-! Writing a changed session. -/

namespace ChatStore

variable {st : ChatStore S} {peer : B32} {state : PeerState S}

theorem writePeer_frame (st : ChatStore S) :
    (st.writePeer state fate).1.peers = st.peers ∧
      (st.writePeer state fate).2 = (fate.begun && fate.session = .done) := by
  unfold writePeer
  cases fate.begun with
  | false => exact ⟨rfl, rfl⟩
  | true => cases fate.session <;> exact ⟨rfl, rfl⟩

theorem flushPeer_changed (found : st.peers.get? peer = some ⟨state, true⟩) :
    (st.flushPeer peer fate).2 = (fate.begun && fate.session = .done) ∧
      ∃ dirty, (st.flushPeer peer fate).1.peers.get? peer = some ⟨state, dirty⟩ := by
  obtain ⟨peers, written⟩ := st.writePeer_frame
  simp only [flushPeer, found, if_true]
  rw [← written]
  generalize st.writePeer state fate = result at peers
  obtain ⟨next, done⟩ := result
  cases done with
  | false => exact ⟨rfl, true, peers ▸ found⟩
  | true => exact ⟨rfl, false, SortedMap.get?_insert_self _⟩

end ChatStore

namespace Core

variable {c d : Core S X} {peer : B32} {env : Envelope} {u : Unlocked S} {fate : Fate}

theorem conclude_answer {c : Core S X} : (c.conclude peer u status fate).2.status =
      if (c.store.flushPeer peer fate).2 then status else .failed := by
  simp only [conclude, flushPeer]
  cases (c.store.flushPeer peer fate).2 <;> rfl

theorem commit_flushed (c : Core S X) :
    ((c.commit peer env u f).store.flushPeer peer fate).2 = (fate.begun && fate.session = .done) ∧
      ∃ dirty, ((c.commit peer env u f).store.flushPeer peer fate).1.peers.get? peer =
        some ⟨committed env u f (c.stateOf peer), dirty⟩ :=
  ChatStore.flushPeer_changed (SortedMap.get?_insert_self _)

theorem committed_knows (env : Envelope) (u : Unlocked S) (f : PeerState S → PeerState S)
    (st : PeerState S) : env.id ∈ (committed env u f st).recentEnv := by
  simp [committed, PeerState.rememberEnvelope, PeerState.remember]

theorem commit_moves {before : Core S X} (unlocked : before.unlock peer env ratchet = (c, .ok u))
    (f : PeerState S → PeerState S) (fate : Fate) :
    ((c.commit peer env u f).store.flushPeer peer fate).1 ≠ c.store := by
  intro same
  obtain ⟨dirty, held⟩ := (c.commit_flushed).2
  obtain ⟨unknown, -⟩ := unlock_ok unlocked
  obtain ⟨pq, frame⟩ := before.unlock_frame peer
  rw [unlocked] at frame
  replace frame : c = { before.loaded peer with pq := pq } := frame
  have state : c.stateOf peer = before.stateOf peer :=
    (congrArg (stateOf · peer) frame).trans (before.stateOf_loaded peer)
  have found : c.store.peers.get? peer = some (c.store.slot peer).2 := by
    rw [frame]
    exact ChatStore.slot_found.trans (by rw [← ChatStore.slot_slot]; rfl)
  rw [same, found] at held
  have known := committed_knows env u f (c.stateOf peer)
  have kept : committed env u f (c.stateOf peer) = c.stateOf peer :=
    (congrArg PeerSlot.state (Option.some.inj held)).symm
  rw [kept, state] at known
  exact unknown known

end Core

/-! What each channel makes of a record of the upgrade. -/

variable {kind : UInt8}

theorem Pq.kind_ne (upgrade : isPqKind kind = true) (foreign : isPqKind other = false) : kind ≠ other := by
  rintro rfl
  rw [upgrade] at foreign
  cases foreign

theorem Proto.decode_upgrade (upgrade : isPqKind kind = true) :
    Proto.Record.decode (kind :: body) = .ok (.unknown kind) := by
  have text : kind ≠ kindText := kind_ne upgrade (by decide)
  have read : kind ≠ kindRead := kind_ne upgrade (by decide)
  have zero : kind ≠ 0 := kind_ne upgrade (by decide)
  simp [Record.decode, text, read, zero]

theorem Group.decode_upgrade (upgrade : isPqKind kind = true) :
    Group.Record.decode P (kind :: body) = .error (.unknownKind kind) := by
  have text : kind ≠ kindText := kind_ne upgrade (by decide)
  have descs : kind ≠ kindDescs := kind_ne upgrade (by decide)
  have sync : kind ≠ kindSync := kind_ne upgrade (by decide)
  have offer : kind ≠ kindHistOffer := kind_ne upgrade (by decide)
  simp [Record.decode, Reader.u8_cons, text, descs, sync, offer]

theorem Group.handle_upgrade (P : Primitives) (core : Group.GroupCore) (faults : Group.Faults)
    (peer : B32) (body : Bytes) (now : UInt64)
    (trusted : B32 → Bool) (upgrade : isPqKind kind = true) :
    core.handle P faults peer (kind :: body) now trusted = (core, .unsupported, []) := by
  simp only [Group.GroupCore.handle, Group.decode_upgrade upgrade]

namespace Device

variable {d : Device S X} {c : Core S X} {peer : B32} {wire : Bytes} {env : Envelope}
  {u : Unlocked S} {kind : UInt8} {body : Bytes} {now : UInt64} {draw : OpenDraw S X}
  {fate : Fate}

theorem acceptChat_upgrade (decoded : decode wire = .ok env)
    (unlocked : (d.chat.settleRollback peer fate).unlock peer env draw.ratchet = (c, .ok u))
    (plain : u.plain = kind :: body) (upgrade : isPqKind kind = true) :
    (d.chat.accept peer wire now draw fate) = c.acceptUnknown peer env u now draw fate := by
  simp only [Core.accept, decoded, unlocked, Core.acceptRecord, plain, Proto.decode_upgrade upgrade]

theorem acceptGroup_upgrade (P : Primitives) (faults : Group.Faults) (trusted : B32 → Bool)
    (decoded : decode wire = .ok env)
    (unlocked : (d.chat.settleRollback peer fate).unlock peer env draw.ratchet = (c, .ok u))
    (plain : u.plain = kind :: body) (upgrade : isPqKind kind = true) :
    d.acceptGroup P faults peer wire now trusted draw fate =
      ({ d with chat := ((c.commit peer env u id).conclude peer u .unsupported fate).1 },
        ((c.commit peer env u id).conclude peer u .unsupported fate).2.status, []) := by
  have handled := fun core : Group.GroupCore =>
    Group.handle_upgrade P core faults peer body now trusted upgrade
  simp [acceptGroup, Core.acceptRaw, Core.opened, decoded, unlocked, plain, handled, Except.toOption]

end Device

open Device in
/-- Both channels answer a record of the upgrade alike exactly when the session cannot
be written and the hybrid state ignores the record. -/
theorem channels_alike_iff (P : Primitives) (d : Device S X) (faults : Group.Faults)
    (peer : B32) (wire : Bytes) (now : UInt64) (trusted : B32 → Bool)
    (draw : OpenDraw S X) (fate : Fate) (env : Envelope) (c : Core S X) (u : Unlocked S)
    (kind : UInt8) (body : Bytes)
    (decoded : decode wire = .ok env)
    (unlocked : (d.chat.settleRollback peer fate).unlock peer env draw.ratchet = (c, .ok u))
    (plain : u.plain = kind :: body) (upgrade : isPqKind kind = true) :
    Alike (d.acceptChat peer wire now draw fate) ((d.acceptGroup P faults peer wire now trusted draw fate).1,
          (d.acceptGroup P faults peer wire now trusted draw fate).2.1) ↔
      (fate.begun = false ∨ fate.session ≠ .done) ∧ c.pq.Ignores peer u.session.originEk ⟨kind, body⟩ now := by
  obtain ⟨flushed, -⟩ := c.commit_flushed
  have unwritten : (fate.begun = false ∨ fate.session ≠ .done) ↔ (fate.begun && fate.session = .done) = false := by
    cases fate.begun <;> simp
  rw [unwritten, ← flushed, ← PqState.onRecord_ignored_iff upgrade draw.coins fate.document]
  simp only [acceptChat, acceptChat_upgrade decoded unlocked plain upgrade,
    acceptGroup_upgrade P faults trusted decoded unlocked plain upgrade]
  obtain ⟨outbox, grouped⟩ := (c.commit peer env u id).conclude_frame peer u .unsupported fate
  have upgrades : u.plain.head?.any isPqKind = true := by simp [plain, upgrade]
  simp only [Core.acceptUnknown, upgrades, if_true, ← plain]
  generalize c.pq.onRecord peer u.session.originEk u.plain now draw.coins fate.document = record
  obtain ⟨pq, applied⟩ := record
  cases applied with
  | false =>
    refine ⟨fun alike => ?_, fun kept => absurd kept.2 (by simp)⟩
    have same := alike.sessions
    simp only [grouped] at same
    exact absurd same.symm (Core.commit_moves unlocked id fate)
  | true =>
    obtain ⟨sent, chatted⟩ :=
      (({ c with pq := pq } : Core S X).commit peer env u id).conclude_frame peer u .stored fate
    have stores : (({ c with pq := pq } : Core S X).commit peer env u id).store =
      (c.commit peer env u id).store := rfl
    constructor
    · intro alike
      have status := alike.status
      have kept := alike.pq
      simp only [if_true, Core.conclude_answer, stores] at status
      simp only [if_true, chatted, grouped] at kept
      refine ⟨?_, Prod.ext kept rfl⟩
      cases written : ((c.commit peer env u id).store.flushPeer peer fate).2 with
      | false => rfl
      | true => simp [written] at status
    · rintro ⟨unwritten, kept⟩
      refine ⟨?_, ?_, ?_⟩
      · simp only [if_true, Core.conclude_answer, stores, unwritten]
        rfl
      · simp only [if_true, chatted, grouped]
        exact congrArg Prod.fst kept
      · simp only [if_true, chatted, grouped, stores]

namespace Sample

def upgradeDevice (mode : PqcMode) : Device Symbolic.suite exchange :=
  let bobs := coreOf bob 100
  ⟨{ bobs with pq := { bobs.pq with mode := mode } }, .new .checksum bob.id 100 (.new ⟨true, 100, 30⟩)⟩

/-- The offer of `alice`, as the first envelope of a session of her own. -/
def offerWire : Bytes := (flights 10 [[kindOffer, 1]]).headD []

/-- The session file of `bob` cannot be made. -/
def fullDisk : Fate := { Fate.done default with begun := false }

end Sample

open Device in
/-- With the upgrade switched off, and the disk full, both channels fail. -/
theorem channels_alike_of_off : ∃ env c u, decode offerWire = .ok env ∧
      ((upgradeDevice .off).chat.settleRollback alice.id fullDisk).unlock
        alice.id env (opening 21).ratchet = (c, .ok u) ∧
      Alike ((upgradeDevice .off).acceptChat alice.id offerWire 1000 (opening 21) fullDisk)
        (((upgradeDevice .off).acceptGroup .checksum {} alice.id
            offerWire 1000 (fun _ => true) (opening 21) fullDisk).1,
          ((upgradeDevice .off).acceptGroup .checksum {} alice.id
            offerWire 1000 (fun _ => true) (opening 21) fullDisk).2.1) := by
  have observed : (match decode offerWire with
      | .error _ => false
      | .ok env =>
        match ((upgradeDevice .off).chat.settleRollback alice.id
            fullDisk).unlock alice.id env (opening 21).ratchet with
        | (c, .ok u) => decide (u.plain = [kindOffer, 1] ∧ c.pq.mode = .off)
        | (_, .error _) => false) = true := by decide +kernel
  split at observed
  · cases observed
  rename_i env decoded
  split at observed
  · rename_i c u unlocked
    obtain ⟨plain, off⟩ := of_decide_eq_true observed
    have alike := (channels_alike_iff .checksum (upgradeDevice .off) {}
      alice.id offerWire 1000 (fun _ => true) (opening 21) fullDisk
      env c u kindOffer [1] decoded unlocked plain (by decide)).mpr ⟨.inl rfl, .inl off⟩
    exact ⟨env, c, u, decoded, unlocked, alike⟩
  · cases observed

open Device in
/-- The offer of `alice` reaches a `bob` who requires the upgrade: over the private
channel it is stored, over the group channel it is answered as unknown and dropped. -/
theorem group_channel_refuses_offer :
    let d := upgradeDevice .require
    let chat := d.acceptChat alice.id offerWire 1000 (opening 21) (.done default)
    let group := d.acceptGroup .checksum {} alice.id offerWire 1000
      (fun _ => true) (opening 21) (.done default)
    d.chat.opened alice.id offerWire (opening 21).ratchet (.done default) = some [kindOffer, 1] ∧
      chat.2 = .stored ∧ group.2.1 = .unsupported ∧
      (chat.1.chat.pq.peers.get? alice.id).map Peer.peerOffer = some [1] ∧
      group.1.chat.pq.peers.get? alice.id = none ∧
      ¬ Alike chat (group.1, group.2.1) := by
  intro d chat group
  have opened : d.chat.opened alice.id offerWire (opening 21).ratchet
      (.done default) = some [kindOffer, 1] := by decide +kernel
  have stored : chat.2 = .stored := by decide +kernel
  have refused : group.2.1 = .unsupported := by decide +kernel
  have held : (chat.1.chat.pq.peers.get? alice.id).map Peer.peerOffer = some [1] := by
    decide +kernel
  have dropped : (group.1.chat.pq.peers.get? alice.id).isNone = true := by decide +kernel
  refine ⟨opened, stored, refused, held, Option.isNone_iff_eq_none.mp dropped, ?_⟩
  intro alike
  have same := alike.status
  rw [stored, refused] at same
  cases same

end Miasma.Chat
