import Mathlib.Data.List.MinMax
import Miasma.Data.Bytes
import Miasma.Data.Run
import Miasma.Data.SortedMap

namespace Miasma.Network

open Data SortedMap Option

/-! Peer descriptors (`network/descriptor.rs`) and their challenged exchange (`network/node.rs`).

A descriptor is kept under a pseudonym that its signer chooses, and two tables tie pseudonyms
and peers together.  They are written before the descriptor is accepted. -/

abbrev PeerId := ByteVec 38

structure CredentialPresentation where
  holderTag : B32
  proof : Bytes
deriving DecidableEq

structure PeerDescriptor where
  pseudonym : B32
  isRendezvous : Bool
  addresses : List String
  isRelay : Bool
  credential : Option CredentialPresentation
  publishedAt : Nat
  version : Nat
  signingPubkey : B32
  onionPubkey : Option B32
  signature : Bytes
deriving DecidableEq

namespace PeerDescriptor

variable (d : PeerDescriptor) (now : Nat)

def ageSecs : Nat := now - d.publishedAt

def maxAge : Nat := if d.isRendezvous then 1200 else 3600

def isFresh : Bool := d.ageSecs now < d.maxAge

end PeerDescriptor

def maxDescriptors : Nat := 10000

structure RelayInfo where
  peerId : PeerId
  onionPubkey : B32
  addr : String

structure DescriptorStore where
  descriptors : SortedMap B32 PeerDescriptor
  peerToPseudonym : SortedMap PeerId B32
  pseudonymToPeer : SortedMap B32 PeerId
  prevEpochPseudonyms : List B32
  trackedEpoch : Nat
  newPseudonymsThisEpoch : Nat

namespace DescriptorStore

def new : DescriptorStore := ⟨.empty, .empty, .empty, [], 0, 0⟩

variable (store : DescriptorStore) (listed : List B32) (now : Nat)

def pruneStale : DescriptorStore :=
  let descriptors := store.descriptors.filter (·.2.isFresh now)
  { store with
    descriptors
    peerToPseudonym := store.peerToPseudonym.filter (descriptors.contains ·.2)
    pseudonymToPeer := store.pseudonymToPeer.filter (descriptors.contains ·.1) }

/-- `listed` is the order in which the hash map lists its keys. -/
def evictOldest : DescriptorStore :=
  let entries := listed.filterMap fun key => (store.descriptors.get? key).map (key, ·)
  match entries.reverse.argmax (·.2.ageSecs now) with
  | none => store
  | some (oldest, _) => { store with
    descriptors := store.descriptors.erase oldest
    peerToPseudonym := store.peerToPseudonym.filter (·.2 ≠ oldest) }

def isFull (pseudonym : B32) : Bool :=
  !store.descriptors.contains pseudonym && maxDescriptors ≤ store.descriptors.size

def makeRoom (pseudonym : B32) : DescriptorStore := if store.isFull pseudonym then
    let pruned := store.pruneStale now
    if maxDescriptors ≤ pruned.descriptors.size then pruned.evictOldest listed now else pruned
  else store

def trackPseudonym (pseudonym : B32) : DescriptorStore :=
  if 0 < store.trackedEpoch ∧ pseudonym ∉ store.prevEpochPseudonyms then
    { store with newPseudonymsThisEpoch := store.newPseudonymsThisEpoch + 1 }
  else store

def insert (d : PeerDescriptor) : DescriptorStore :=
  { store with descriptors := store.descriptors.insert d.pseudonym d }

def upsert (d : PeerDescriptor) : DescriptorStore × Bool := if !d.isFresh now then (store, false)
  else if (store.descriptors.get? d.pseudonym).any (d.version ≤ ·.version) then (store, false)
  else
    let store := store.makeRoom listed now d.pseudonym
    let store := if store.descriptors.contains d.pseudonym then store else store.trackPseudonym d.pseudonym
    (store.insert d, true)

def registerPeerPseudonym (peer : PeerId) (pseudonym : B32) : DescriptorStore :=
  { store with
    peerToPseudonym := store.peerToPseudonym.insert peer pseudonym
    pseudonymToPeer := store.pseudonymToPeer.insert pseudonym peer }

def onEpochRotate (newEpoch : Nat) : DescriptorStore :=
  if newEpoch ≤ store.trackedEpoch ∧ 0 < store.trackedEpoch then store
  else { store with
    prevEpochPseudonyms := store.descriptors.keys
    trackedEpoch := newEpoch
    newPseudonymsThisEpoch := 0 }

def getByPeer (peer : PeerId) : Option PeerDescriptor := (store.peerToPseudonym.get? peer).bind store.descriptors.get?

/-- A key of zeros protects nothing. -/
def usable (key : B32) : Bool := key ≠ ByteVec.fill 32 0

def onionPubkeyForPeer (peer : PeerId) : Option B32 :=
  ((store.getByPeer peer).bind (·.onionPubkey)).filter usable

variable (tier : B32 → Nat)

def relays : List (PeerDescriptor × PeerId) :=
  ((store.descriptors.values.filter fun d => d.isRelay && d.isFresh now).filterMap fun d =>
    (store.pseudonymToPeer.get? d.pseudonym).map (d, ·)).mergeSort
      fun one two => tier two.1.pseudonym ≤ tier one.1.pseudonym

def relayPeerInfo : List (PeerId × List String) :=
  (store.relays now tier).map fun relay => (relay.2, relay.1.addresses)

def relayOnionInfo : List RelayInfo := (store.relays now tier).filterMap fun relay =>
    (relay.1.onionPubkey.filter usable).map (⟨relay.2, ·, relay.1.addresses.headD ""⟩)

end DescriptorStore

open DescriptorStore

structure Registries where
  verifiedIdentityPubkey : PeerId → Option B32
  /-- A peer id is the hash of its key. -/
  identity_inj : ∀ {p q key}, verifiedIdentityPubkey p = some key → verifiedIdentityPubkey q = some key → p = q
  verifySelf : PeerDescriptor → Bool
  /-- Against the challenge and the issuers, in the current epoch. -/
  verifyPresentation : CredentialPresentation → B32 → Bool

def Registries.SignedBy (R : Registries) (peer : PeerId) (d : PeerDescriptor) : Prop :=
  R.verifiedIdentityPubkey peer = some d.signingPubkey ∧ R.verifySelf d = true

instance (R : Registries) (peer : PeerId) (d : PeerDescriptor) :
    Decidable (R.SignedBy peer d) := inferInstanceAs (Decidable (_ ∧ _))

structure Exchanges where
  store : DescriptorStore
  /-- The requests under way, with the peer and the challenge of each. -/
  pending : SortedMap Nat (PeerId × B32)

inductive Exchange where
  | request (id : Nat) (peer : PeerId) (challenge : B32)
  | response (id : Nat) (peer : PeerId) (descriptor : Option PeerDescriptor)
      (listed : List B32) (now : Nat)
  | epochRotate (newEpoch : Nat)
  | prune (now : Nat)

namespace Exchanges

variable (R : Registries) (s : Exchanges)

def new : Exchanges := ⟨.new, .empty⟩

/-- What the handler checks of a descriptor before it is registered. -/
def accepts (peer : PeerId) (challenge : B32) (d : PeerDescriptor) : Bool :=
  R.SignedBy peer d && d.credential.all fun presentation =>
    presentation.holderTag = d.pseudonym && R.verifyPresentation presentation challenge

def handleResponse (id : Nat) (peer : PeerId) (descriptor : Option PeerDescriptor)
    (listed : List B32) (now : Nat) : Exchanges :=
  match s.pending.get? id with
  | none => s
  | some (expected, challenge) =>
    let s := { s with pending := s.pending.erase id }
    match descriptor with
    | none => s
    | some d =>
      if expected = peer ∧ accepts R peer challenge d then
        { s with store := ((s.store.registerPeerPseudonym peer d.pseudonym).upsert listed now d).1 }
      else s

def step : Exchange → Option Exchanges
  | .request id peer challenge => some { s with pending := s.pending.insert id (peer, challenge) }
  | .response id peer descriptor listed now =>
    if listed.Perm s.store.descriptors.keys then some (s.handleResponse R id peer descriptor listed now) else none
  | .epochRotate newEpoch => some { s with store := s.store.onEpochRotate newEpoch }
  | .prune now => some { s with store := s.store.pruneStale now }

def takes (id : Nat) (peer : PeerId) (d : PeerDescriptor) : Bool :=
  (s.pending.get? id).any fun asked => asked.1 = peer ∧ accepts R peer asked.2 d

/-- No other peer has a descriptor or an entry under the pseudonym of a response that passes. -/
def Unclaimed : Exchange → Prop
  | .response id peer (some d) _ _ => s.takes R id peer d = true →
    (∀ held ∈ s.store.descriptors.get? d.pseudonym, R.SignedBy peer held) ∧
      ∀ entry ∈ s.store.peerToPseudonym.entries, entry.2 = d.pseudonym → entry.1 = peer
  | _ => True

instance : DecidablePred (Unclaimed R s)
  | .response _ _ (some _) _ _ => inferInstanceAs (Decidable (_ → _))
  | .response _ _ none _ _ | .request .. | .epochRotate _ | .prune _ => .isTrue trivial

end Exchanges

namespace DescriptorStore

variable {R : Registries} {store before after : DescriptorStore} {listed : List B32} {now : Nat}
  {pseudonym key : B32} {peer p : PeerId} {d other : PeerDescriptor} {tier : B32 → Nat}

/-- Both tables lead from and to the peer that signed. -/
structure Bound (R : Registries) (store : DescriptorStore) : Prop where
  keyed : ∀ {key d}, store.descriptors.get? key = some d → d.pseudonym = key
  peers : ∀ {p key d}, store.peerToPseudonym.get? p = some key → store.descriptors.get? key = some d → R.SignedBy p d
  pseudonyms : ∀ {p key d}, store.pseudonymToPeer.get? key = some p → store.descriptors.get? key = some d →
    R.SignedBy p d

/-- `after` is `before` without some descriptors that are `gone`, and what is listed for those. -/
structure Room (gone : PeerDescriptor → Prop) (after before : DescriptorStore) : Prop where
  descriptors : ∀ {key d}, after.descriptors.get? key = some d → before.descriptors.get? key = some d
  peers : ∀ {p key}, after.peerToPseudonym.get? p = some key → before.peerToPseudonym.get? p = some key
  pseudonyms : ∀ {p key}, after.pseudonymToPeer.get? key = some p → before.pseudonymToPeer.get? key = some p
  kept : ∀ {key d}, before.descriptors.get? key = some d → after.descriptors.get? key = some d ∨ gone d
  keptPeers : ∀ {p key d}, before.peerToPseudonym.get? p = some key → after.descriptors.get? key = some d →
    after.peerToPseudonym.get? p = some key
  keptPseudonyms : ∀ {p key d}, before.pseudonymToPeer.get? key = some p → after.descriptors.get? key = some d →
    after.pseudonymToPeer.get? key = some p

section

variable {gone gone' : PeerDescriptor → Prop}

theorem Bound.room (bound : Bound R before) (room : Room gone after before) : Bound R after where
  keyed there := bound.keyed (room.descriptors there)
  peers mapped there := bound.peers (room.peers mapped) (room.descriptors there)
  pseudonyms mapped there := bound.pseudonyms (room.pseudonyms mapped) (room.descriptors there)

theorem Room.refl (gone : PeerDescriptor → Prop) (store : DescriptorStore) : Room gone store store :=
  ⟨id, id, id, .inl, fun mapped _ => mapped, fun mapped _ => mapped⟩

theorem Room.trans (second : Room gone' after store) (first : Room gone store before) :
    Room (fun d => gone d ∨ gone' d) after before where
  descriptors there := first.descriptors (second.descriptors there)
  peers mapped := first.peers (second.peers mapped)
  pseudonyms mapped := first.pseudonyms (second.pseudonyms mapped)
  kept there := (first.kept there).elim (fun still => (second.kept still).imp_right .inr) fun lost => .inr (.inl lost)
  keptPeers mapped there := second.keptPeers (first.keptPeers mapped (second.descriptors there)) there
  keptPseudonyms mapped there := second.keptPseudonyms (first.keptPseudonyms mapped (second.descriptors there)) there

theorem Room.mono (room : Room gone after before) (more : ∀ d, gone d → gone' d) : Room gone' after before :=
  { room with kept := fun there => (room.kept there).imp_right (more _) }

end

theorem room_pruneStale (store : DescriptorStore) (now : Nat) :
    Room (·.isFresh now = false) (store.pruneStale now) store where
  descriptors := get?_of_filter
  peers := get?_of_filter
  pseudonyms := get?_of_filter
  kept {key d} there := by
    cases fresh : d.isFresh now with
    | false => exact .inr rfl
    | true => exact .inl (get?_filter there fresh)
  keptPeers mapped there := get?_filter mapped (isSome_of_eq_some there)
  keptPseudonyms mapped there := get?_filter mapped (isSome_of_eq_some there)

theorem room_evictOldest (now : Nat) (all : ∀ {key d}, store.descriptors.get? key = some d → key ∈ listed) :
    Room (fun d => ∀ other ∈ store.descriptors.values, other.ageSecs now ≤ d.ageSecs now)
      (store.evictOldest listed now) store := by
  unfold evictOldest
  dsimp only
  split
  · exact .refl _ store
  rename_i oldest held chosen
  refine ⟨fun there => by grind [get?_erase], get?_of_filter, id, fun {key d} there => ?_,
    fun mapped there => get?_filter mapped (by grind [get?_erase]), fun mapped _ => mapped⟩
  by_cases same : key = oldest
  · refine .inr fun other member => ?_
    obtain ⟨place, found⟩ := mem_values_iff.mp member
    have mine := List.argmax_mem chosen
    have older := List.le_of_mem_argmax (a := (place, other)) (by simp [all found, found]) chosen
    simp only [List.mem_reverse, List.mem_filterMap, map_eq_some_iff] at mine
    grind
  · exact .inl (by grind [get?_erase])

/-- A full store drops what is stale and then the oldest. -/
def Evicts (before : DescriptorStore) (now : Nat) (pseudonym : B32) (d : PeerDescriptor) : Prop :=
  before.isFull pseudonym = true ∧ (d.isFresh now = false ∨
    ∀ other ∈ before.descriptors.values, other.isFresh now = true → other.ageSecs now ≤ d.ageSecs now)

theorem room_makeRoom (now : Nat) (all : ∀ {key d}, store.descriptors.get? key = some d → key ∈ listed)
    (pseudonym : B32) : Room (store.Evicts now pseudonym) (store.makeRoom listed now pseudonym) store := by
  have pruned := room_pruneStale store now
  unfold makeRoom
  dsimp only
  split_ifs with full more
  · have evicted := room_evictOldest now fun there => all (pruned.descriptors there)
    refine (evicted.trans pruned).mono fun d lost => ⟨full, ?_⟩
    refine lost.imp_right fun oldest other member young => oldest other ?_
    obtain ⟨place, found⟩ := mem_values_iff.mp member
    exact mem_values_iff.mpr ⟨place, get?_filter found young⟩
  · exact pruned.mono fun d stale => ⟨full, .inl stale⟩
  · exact .refl _ store

theorem mem_listed (permuted : listed.Perm store.descriptors.keys) (there : store.descriptors.get? key = some d) :
    key ∈ listed := permuted.mem_iff.mpr (List.mem_map_of_mem (get?_eq_some_iff.mp there))

/-- What `upsert` leaves: the store, or `d` in a store with room for it. -/
theorem upsert_cases (all : ∀ {key d}, store.descriptors.get? key = some d → key ∈ listed) :
    (store.upsert listed now d).1 = store ∨
      ∃ room, Room (store.Evicts now d.pseudonym) room store ∧ (store.upsert listed now d).1 = room.insert d := by
  have room := room_makeRoom now all d.pseudonym
  unfold upsert
  split
  · exact .inl rfl
  split
  · exact .inl rfl
  refine .inr ⟨_, ?_, rfl⟩
  unfold trackPseudonym
  split_ifs
  · exact room
  · exact { room with }
  · exact room

theorem getByPeer_eq_some : store.getByPeer p = some d ↔
    ∃ key, store.peerToPseudonym.get? p = some key ∧ store.descriptors.get? key = some d :=
  bind_eq_some_iff

theorem mem_relays : (d, p) ∈ store.relays now tier ↔
    ((∃ key, store.descriptors.get? key = some d) ∧ d.isRelay = true ∧ d.isFresh now = true) ∧
      store.pseudonymToPeer.get? d.pseudonym = some p := by
  simp [relays, mem_values_iff]

/-- What a response may do to the answers for another peer. -/
structure Spares (before : DescriptorStore) (gone : PeerDescriptor → Prop) (now : Nat) (p : PeerId)
    (after : DescriptorStore) : Prop where
  notReplaced : ∀ d, after.getByPeer p = some d → before.getByPeer p = some d
  notRemoved : ∀ d, before.getByPeer p = some d → after.getByPeer p = some d ∨ gone d
  notRelisted : ∀ tier d, (d, p) ∈ after.relays now tier → (d, p) ∈ before.relays now tier
  notUnlisted : ∀ tier d, (d, p) ∈ before.relays now tier → (d, p) ∈ after.relays now tier ∨ gone d

/-- Everything that is answered for a peer comes from a descriptor signed by that peer. -/
structure Owned (R : Registries) (store : DescriptorStore) : Prop where
  getByPeer : ∀ p d, store.getByPeer p = some d → R.SignedBy p d
  onionPubkey : ∀ p key, store.onionPubkeyForPeer p = some key → ∃ d, R.SignedBy p d ∧ d.onionPubkey = some key
  relayPeerInfo : ∀ now tier, ∀ entry ∈ store.relayPeerInfo now tier, ∃ d, R.SignedBy entry.1 d ∧ d.addresses = entry.2
  relayOnionInfo : ∀ now tier, ∀ info ∈ store.relayOnionInfo now tier,
    ∃ d, R.SignedBy info.peerId d ∧ d.onionPubkey = some info.onionPubkey ∧ d.addresses.headD "" = info.addr

theorem Bound.relay (bound : Bound R store) (listed : (d, p) ∈ store.relays now tier) : R.SignedBy p d := by
  obtain ⟨⟨⟨key, there⟩, -⟩, mapped⟩ := mem_relays.mp listed
  exact bound.pseudonyms mapped (bound.keyed there ▸ there)

theorem Bound.owned (bound : Bound R store) : Owned R store where
  getByPeer p d there := by
    obtain ⟨key, mapped, found⟩ := getByPeer_eq_some.mp there
    exact bound.peers mapped found
  onionPubkey p key there := by
    simp only [onionPubkeyForPeer, filter_eq_some_iff, bind_eq_some_iff] at there
    obtain ⟨⟨d, found, published⟩, -⟩ := there
    obtain ⟨key, mapped, found⟩ := getByPeer_eq_some.mp found
    exact ⟨d, bound.peers mapped found, published⟩
  relayPeerInfo now tier entry member := by
    obtain ⟨⟨d, p⟩, listed, rfl⟩ := List.mem_map.mp member
    exact ⟨d, bound.relay listed, rfl⟩
  relayOnionInfo now tier info member := by
    obtain ⟨⟨d, p⟩, listed, made⟩ := List.mem_filterMap.mp member
    simp only [map_eq_some_iff, filter_eq_some_iff] at made
    obtain ⟨key, ⟨published, -⟩, rfl⟩ := made
    exact ⟨d, bound.relay listed, published, rfl⟩

/-! One response of `peer`, whose descriptor `d` takes nothing from another peer. -/

section

variable (bound : Bound R store) (own : ∀ held ∈ store.descriptors.get? d.pseudonym, R.SignedBy peer held)
  (only : ∀ entry ∈ store.peerToPseudonym.entries, entry.2 = d.pseudonym → entry.1 = peer)
include bound own

theorem Bound.register : Bound R (store.registerPeerPseudonym peer d.pseudonym) where
  keyed := bound.keyed
  peers mapped there := by
    simp only [registerPeerPseudonym, get?_insert] at mapped there
    grind [bound.peers]
  pseudonyms mapped there := by
    simp only [registerPeerPseudonym, get?_insert] at mapped there
    grind [bound.pseudonyms]

omit bound own in
theorem peers_register (different : p ≠ peer) :
    (store.registerPeerPseudonym peer d.pseudonym).peerToPseudonym.get? p = store.peerToPseudonym.get? p :=
  get?_insert_of_ne different

theorem relays_register (different : p ≠ peer) :
    (other, p) ∈ (store.registerPeerPseudonym peer d.pseudonym).relays now tier ↔
      (other, p) ∈ store.relays now tier := by
  rw [mem_relays, mem_relays]
  refine and_congr_right fun ⟨⟨key, there⟩, _⟩ => ?_
  have place : other.pseudonym = key := bound.keyed there
  simp only [registerPeerPseudonym, get?_insert]
  split
  · rename_i taken
    refine ⟨fun mine => absurd (some.inj mine).symm different, fun theirs => ?_⟩
    have signed := bound.pseudonyms theirs (place ▸ there)
    exact absurd (R.identity_inj signed.1 (own other (taken ▸ place ▸ there)).1) different
  · rfl

theorem spares_register (different : p ≠ peer) :
    store.Spares gone now p (store.registerPeerPseudonym peer d.pseudonym) := by
  have same : (store.registerPeerPseudonym peer d.pseudonym).getByPeer p = store.getByPeer p := by
    unfold getByPeer
    rw [peers_register different]
    rfl
  exact ⟨fun _ there => same ▸ there, fun _ there => .inl (same ▸ there),
    fun _ _ => (relays_register bound own different).mp,
    fun _ _ there => .inl ((relays_register bound own different).mpr there)⟩

variable {room : DescriptorStore} {gone : PeerDescriptor → Prop}
  (made : Room gone room (store.registerPeerPseudonym peer d.pseudonym))
include only made

omit own bound in
/-- Nobody but `peer` is listed under the pseudonym of the response. -/
theorem listed_only : (∀ p, room.peerToPseudonym.get? p = some d.pseudonym → p = peer) ∧
    ∀ p, room.pseudonymToPeer.get? d.pseudonym = some p → p = peer := by
  refine ⟨fun p mapped => ?_, fun p mapped => ?_⟩
  · have there := made.peers mapped
    simp only [registerPeerPseudonym, get?_insert] at there
    split at there
    · assumption
    · exact only _ (get?_eq_some_iff.mp there) rfl
  · have there := made.pseudonyms mapped
    rw [registerPeerPseudonym, get?_insert_self] at there
    exact (some.inj there).symm

theorem Bound.insert (signed : R.SignedBy peer d) : Bound R (room.insert d) := by
  obtain ⟨peers, pseudonyms⟩ := listed_only only made
  have inner := (bound.register own).room made
  constructor <;> intros <;> simp only [DescriptorStore.insert, get?_insert] at *
  · grind [inner.keyed]
  · grind [inner.peers]
  · grind [inner.pseudonyms]

theorem spares_insert (different : p ≠ peer) : store.Spares gone now p (room.insert d) := by
  obtain ⟨peers, pseudonyms⟩ := listed_only only made
  have same : (store.registerPeerPseudonym peer d.pseudonym).peerToPseudonym.get? p = store.peerToPseudonym.get? p :=
    peers_register different
  have elsewhere : ∀ {key}, key ≠ d.pseudonym → (room.insert d).descriptors.get? key = room.descriptors.get? key :=
    get?_insert_of_ne
  refine ⟨fun other there => ?_, fun other there => ?_, fun tier other there => ?_, fun tier other there => ?_⟩
  · obtain ⟨key, mapped, found⟩ := getByPeer_eq_some.mp there
    rw [elsewhere fun taken => different (peers p (taken ▸ mapped))] at found
    exact getByPeer_eq_some.mpr ⟨key, same ▸ made.peers mapped, made.descriptors found⟩
  · obtain ⟨key, mapped, found⟩ := getByPeer_eq_some.mp there
    refine (made.kept found).imp_left fun still => ?_
    have listed := made.keptPeers (same.trans mapped) still
    rw [getByPeer_eq_some]
    exact ⟨key, listed, (elsewhere fun taken => different (peers p (taken ▸ listed))).trans still⟩
  · obtain ⟨⟨⟨key, found⟩, fit⟩, mapped⟩ := mem_relays.mp there
    have apart : other.pseudonym ≠ d.pseudonym := fun taken => different (pseudonyms p (taken ▸ mapped))
    apply (relays_register bound own different).mp
    refine mem_relays.mpr ⟨⟨⟨key, made.descriptors ?_⟩, fit⟩, made.pseudonyms mapped⟩
    simp only [DescriptorStore.insert, get?_insert] at found
    grind
  · obtain ⟨⟨⟨key, found⟩, fit⟩, mapped⟩ := mem_relays.mp ((relays_register bound own different).mpr there)
    have place : other.pseudonym = key := bound.keyed found
    refine (made.kept found).imp_left fun still => ?_
    have listed := made.keptPseudonyms mapped (place ▸ still)
    have apart : key ≠ d.pseudonym := fun taken => different (pseudonyms p (taken ▸ place ▸ listed))
    exact mem_relays.mpr ⟨⟨⟨key, (elsewhere apart).trans still⟩, fit⟩, listed⟩

end

end DescriptorStore

namespace Exchanges

variable {R : Registries} {s next last : Exchanges}

open DescriptorStore in
/-- What a response can do: nothing to the store, or register the peer and insert its descriptor. -/
theorem handleResponse_cases {id : Nat}
    (stepped : s.step R (.response id peer descriptor listed now) = some next) :
    next.store = s.store ∨ ∃ d, descriptor = some d ∧ s.takes R id peer d = true ∧ R.SignedBy peer d ∧
      (next.store = s.store.registerPeerPseudonym peer d.pseudonym ∨
      ∃ room, Room (s.store.Evicts now d.pseudonym) room (s.store.registerPeerPseudonym peer d.pseudonym) ∧
        next.store = room.insert d) := by
  obtain ⟨permuted, made⟩ := ite_none_right_eq_some.mp stepped
  cases made
  unfold handleResponse
  split
  · exact .inl rfl
  rename_i asked
  split
  · exact .inl rfl
  rename_i d
  split
  · rename_i accepted
    refine .inr ⟨d, rfl, by simp [takes, asked, accepted], ?_⟩
    simp only [accepts, Bool.and_eq_true, decide_eq_true_eq] at accepted
    exact ⟨accepted.2.1, upsert_cases fun there => mem_listed permuted there⟩
  · exact .inl rfl

theorem bound_step (bound : s.store.Bound R) (unclaimed : Unclaimed R s event)
    (stepped : s.step R event = some next) : next.store.Bound R := by
  cases event with
  | request =>
    cases stepped
    exact bound
  | response =>
    rcases handleResponse_cases stepped with same | ⟨d, rfl, taken, signed, same | ⟨room, made, same⟩⟩
    · exact same ▸ bound
    · exact same ▸ bound.register (unclaimed taken).1
    · exact same ▸ bound.insert (unclaimed taken).1 (unclaimed taken).2 made signed
  | epochRotate =>
    cases stepped
    dsimp only [onEpochRotate]
    split
    · exact bound
    · exact { bound with }
  | prune now =>
    cases stepped
    exact bound.room (room_pruneStale s.store now)

/-- As long as no response that passes names a pseudonym that another peer has, whatever is answered for a peer
is signed by it, and a response of one peer costs another one its answers at capacity only. -/
theorem descriptors_stay_own_of_unclaimed (R : Registries) (events : List Exchange) (last : Exchanges)
    (unclaimed : Along (step R) (Unclaimed R) .new events) (ran : run (step R) .new events = some last) :
    last.store.Owned R ∧ ∀ id peer d listed now next, Unclaimed R last (.response id peer (some d) listed now) →
      last.step R (.response id peer (some d) listed now) = some next →
      ∀ p ≠ peer, last.store.Spares (last.store.Evicts now d.pseudonym) now p next.store := by
  have bound := invariant_of_run (I := fun s => s.store.Bound R) bound_step ⟨nofun, nofun, nofun⟩ unclaimed ran
  refine ⟨bound.owned, fun id peer d listed now next allowed stepped p different => ?_⟩
  rcases handleResponse_cases stepped with same | ⟨_, equal, taken, -, same | ⟨room, made, same⟩⟩ <;> rw [same]
  · exact ⟨fun _ there => there, fun _ => .inl, fun _ _ there => there, fun _ _ => .inl⟩
  · cases equal
    exact spares_register bound (allowed taken).1 different
  · cases equal
    exact spares_insert bound (allowed taken).1 (allowed taken).2 made different

namespace Sample

def alice : PeerId := .fill 38 1

def mallory : PeerId := .fill 38 2

def registries : Registries where
  verifiedIdentityPubkey p := if p = alice then some (.fill 32 1) else if p = mallory then some (.fill 32 2) else none
  identity_inj {p q key} first second := by grind [show ByteVec.fill 32 1 ≠ ByteVec.fill 32 2 by decide]
  verifySelf d := d.signature = d.signingPubkey.toList
  verifyPresentation _ _ := false

/-- A descriptor of the peer whose key is `signer`, with the onion key `signer`. -/
def descriptor (signer pseudonym : UInt8) (version : Nat) : PeerDescriptor :=
  ⟨.fill 32 pseudonym, false, [], true, none, 100, version, .fill 32 signer, some (.fill 32 signer),
    List.replicate 32 signer⟩

/-- The two peers answer one after the other, the second one under `pseudonym`. -/
def answers (pseudonym : UInt8) : List Exchange :=
  [.request 0 alice (.fill 32 0), .response 0 alice (some (descriptor 1 7 1)) [] 100,
    .request 1 mallory (.fill 32 0), .response 1 mallory (some (descriptor 2 pseudonym 2)) [.fill 32 7] 100]

end Sample

open Sample

theorem descriptors_stay_own_of_two : ∃ last, run (step registries) .new (answers 8) = some last ∧
    last.store.onionPubkeyForPeer alice = some (.fill 32 1) ∧ last.store.Owned registries := by
  have observed : (run (step registries) .new (answers 8)).any
      (fun last => last.store.onionPubkeyForPeer alice = some (.fill 32 1)) = true := by decide +kernel
  obtain ⟨last, ran, key⟩ := exists_of_any observed
  exact ⟨last, ran, key, (descriptors_stay_own_of_unclaimed _ _ _ (by decide +kernel) ran).1⟩

/-- A response under the pseudonym of another peer, with a higher version, answers for that peer. -/
theorem descriptor_taken_over : ∃ last, run (step registries) .new (answers 7) = some last ∧
    last.store.onionPubkeyForPeer alice = some (.fill 32 2) ∧ ¬ last.store.Owned registries := by
  have observed : (run (step registries) .new (answers 7)).any (fun last =>
      last.store.onionPubkeyForPeer alice = some (.fill 32 2) ∧
        last.store.getByPeer alice = some (descriptor 2 7 2)) = true := by decide +kernel
  obtain ⟨last, ran, key, held⟩ := exists_of_any observed
  exact ⟨last, ran, key, fun owned => absurd (owned.getByPeer _ _ held) (by decide +kernel)⟩

end Exchanges

end Miasma.Network
