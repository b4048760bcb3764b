import Miasma.Chat.Crypto.Receive
import Miasma.Chat.Engine.Frames

namespace Miasma.Chat

open Data Protocol Chat.Pq Chat.Core Session

/-! A session is written before an envelope is, so every envelope that got out lies behind the
place the session file stands at. -/

variable {S : Suite} {X : Exchange S.Key}

/-! The place of a session: its ratchet key and the index of its next message. -/

variable {me : Identity S}

namespace Session

variable {s next : Session S} {env : Envelope} {layer : Option S.Key} {fresh : S.Secret} {plain : Bytes}

theorem skipKeys_place (dh : B32) (count : Nat) (s : Session S) (ck : S.Key) :
    (skipKeys dh count s ck).dhsPub = s.dhsPub ∧ (skipKeys dh count s ck).ns = s.ns := by
  induction count generalizing s ck with
  | zero => exact ⟨rfl, rfl⟩
  | succ count ih => exact ih _ _

theorem skipUntil_place (skipped : s.skipUntil bound = .ok next) :
    next.dhsPub = s.dhsPub ∧ next.ns = s.ns := by
  unfold skipUntil at skipped
  split at skipped
  · cases skipped
    exact ⟨rfl, rfl⟩
  split at skipped
  · cases skipped
    exact ⟨rfl, rfl⟩
  split at skipped
  · cases skipped
  split at skipped
  · cases skipped
  cases skipped
  exact skipKeys_place _ _ _ _

/-- Opening leaves the place, or turns to the fresh key. -/
def Moved (s next : Session S) (fresh : S.Secret) : Prop :=
  (next.dhsPub = s.dhsPub ∧ next.ns = s.ns) ∨ (next.dhsPub = S.publicKey fresh ∧ next.ns = 0)

theorem turnTo_turned (differs : s.dhr ≠ some header.dhPub) (turned : s.turnTo header fresh = .ok next) :
    next.dhsPub = S.publicKey fresh ∧ next.ns = 0 := by
  rw [turnTo, if_pos differs] at turned
  obtain ⟨skipped, -, turned⟩ := bind_ok_iff.mp turned
  obtain ⟨first, second, -, -, same⟩ := dhRatchet_ok turned
  rw [same]
  exact ⟨rfl, rfl⟩

theorem openNext_place (opened : s.openNext env layer fresh = .ok (next, plain)) :
    ∃ turned, s.turnTo env.header fresh = .ok turned ∧ next.dhsPub = turned.dhsPub ∧ next.ns = turned.ns := by
  obtain ⟨turned, reached, ckr, padded, turning, reaching, -, -, -, -, same⟩ := openNext_ok opened
  obtain ⟨key, place⟩ := skipUntil_place reaching
  rw [same]
  exact ⟨turned, turning, key, place⟩

theorem openWith_moved (opened : s.openWith env layer fresh = (next, .ok plain)) : s.Moved next fresh := by
  unfold openWith at opened
  split at opened
  · split at opened
    · cases opened
    · cases opened
      exact .inl ⟨rfl, rfl⟩
  split at opened
  · cases opened
  rename_i after text read
  cases opened
  obtain ⟨turned, turning, key, place⟩ := openNext_place read
  by_cases differs : s.dhr ≠ some env.header.dhPub
  · obtain ⟨fresh, zero⟩ := turnTo_turned differs turning
    exact .inr ⟨key.trans fresh, place.trans zero⟩
  rw [turnTo, if_neg differs] at turning
  split at turning
  · cases turning
  cases turning
  exact .inl ⟨key, place⟩

theorem accept_turned (opened : accept me peer env fresh = .ok (next, plain)) :
    next.dhsPub = S.publicKey fresh ∧ next.ns = 0 := by
  unfold accept at opened
  split at opened
  · cases opened
  obtain ⟨start, made, opened⟩ := bind_ok_iff.mp opened
  have blank : start.dhr = none ∧ start.skipped = [] := by
    obtain ⟨peerDh, -, made⟩ := bind_ok_iff.mp made
    obtain ⟨dh1, -, made⟩ := bind_ok_iff.mp made
    obtain ⟨dh2, -, made⟩ := bind_ok_iff.mp made
    cases made
    exact ⟨rfl, rfl⟩
  split at opened
  · cases opened
  rename_i after text read
  cases opened
  simp only [openWith, blank.2, List.find?_nil] at read
  split at read
  · cases read
  rename_i final body done
  cases read
  obtain ⟨turned, turning, key, place⟩ := openNext_place done
  obtain ⟨fresh, zero⟩ := turnTo_turned (by rw [blank.1]; nofun) turning
  exact ⟨key.trans fresh, place.trans zero⟩

theorem newInitiator_place (made : newInitiator me peer ek ratchet = .ok s) :
    s.dhsPub = S.publicKey ratchet ∧ s.ns = 0 := by
  obtain ⟨peerDh, -, made⟩ := bind_ok_iff.mp made
  obtain ⟨dh1, -, made⟩ := bind_ok_iff.mp made
  obtain ⟨dh2, -, made⟩ := bind_ok_iff.mp made
  obtain ⟨shared, -, made⟩ := bind_ok_iff.mp made
  cases made
  exact ⟨rfl, rfl⟩

end Session

namespace SingleUse

/-! What the state of a contact says about the envelopes made so far. -/

/-- The ratchet key was drawn for the contact, and every envelope made with it lies
behind the next index. -/
structure Ahead (issued : List Envelope) (drawn : List (B32 × B32))
    (peer : B32) (s : Session S) : Prop where
  own : (peer, s.dhsPub) ∈ drawn
  behind : ∀ env ∈ issued, env.header.dhPub = s.dhsPub → env.header.n < s.ns

structure Placed (S : Suite) (issued : List Envelope) (drawn : List (B32 × B32))
    (peer : B32) (st : PeerState S) : Prop where
  named : st.peer = peer
  ahead : ∀ {s}, st.session = some s → Ahead issued drawn peer s

/-- Envelopes made so far, and the ratchet keys drawn, with the contact. -/
structure Books (issued : List Envelope) (drawn : List (B32 × B32)) : Prop where
  owner : ∀ {peer other key}, (peer, key) ∈ drawn → (other, key) ∈ drawn → peer = other
  once : ∀ env ∈ issued, ∀ other ∈ issued, env.header.position = other.header.position → env = other
  known : ∀ env ∈ issued, ∃ peer, (peer, env.header.dhPub) ∈ drawn
  fits : ∀ env ∈ issued, env.Fits

variable {issued : List Envelope} {drawn : List (B32 × B32)} {peer key : B32}
  {s next : Session S} {st : PeerState S} {c : Core S X}

theorem Placed.loadable : Loadable (Placed S issued drawn) where
  new _ := ⟨rfl, nofun⟩
  drop _ placed := ⟨placed.named, nofun⟩
  named placed := placed.named

theorem Ahead.draw (ahead : Ahead issued drawn peer s) (more : List (B32 × B32)) :
    Ahead issued (drawn ++ more) peer s :=
  ⟨List.mem_append_left _ ahead.own, ahead.behind⟩

theorem Placed.draw (placed : Placed S issued drawn peer st) : Placed S issued (drawn ++ more) peer st :=
  ⟨placed.named, fun held => (placed.ahead held).draw more⟩

theorem Books.empty : Books [] [] := ⟨nofun, nofun, nofun, nofun⟩

theorem Books.draw (books : Books issued drawn) (fresh : ∀ pair ∈ drawn, pair.2 ≠ key) :
    Books issued (drawn ++ [(peer, key)]) where
  owner {first second other} one two := by
    rcases mem_snoc.mp one with one | one <;> rcases mem_snoc.mp two with two | two
    · exact books.owner one two
    · cases two
      exact absurd rfl (fresh _ one)
    · cases one
      exact absurd rfl (fresh _ two)
    cases one
    cases two
    rfl
  once := books.once
  known env there := by
    obtain ⟨peer, drawn⟩ := books.known env there
    exact ⟨peer, List.mem_append_left _ drawn⟩
  fits := books.fits

theorem Books.ahead_fresh (books : Books issued drawn) (fresh : ∀ pair ∈ drawn, pair.2 ≠ key)
    (place : s.dhsPub = key) : Ahead issued (drawn ++ [(peer, key)]) peer s := by
  constructor
  · rw [place]
    simp
  intro env there same
  obtain ⟨other, known⟩ := books.known env there
  exact absurd (same.trans place) (fresh _ known)

theorem Ahead.of_place (ahead : Ahead issued drawn peer s) (key : next.dhsPub = s.dhsPub)
    (index : next.ns = s.ns) : Ahead issued drawn peer next :=
  ⟨key ▸ ahead.own, fun env there same => index ▸ ahead.behind env there (same.trans key)⟩

theorem Ahead.sealed (ahead : Ahead issued drawn peer s) {id : B16}
    (made : s.sealWith id plain layer = (next, .ok env)) :
    Ahead (issued ++ [env]) drawn peer next ∧ (∀ other ∈ issued, other.header.position ≠ env.header.position) ∧
      env.header.dhPub = next.dhsPub := by
  obtain ⟨dh, n, key, below, index, -⟩ := sealWith_ok made
  have step := toNat_succ below
  refine ⟨⟨key ▸ ahead.own, ?_⟩, ?_, dh.trans key.symm⟩
  · intro other there same
    rw [UInt32.lt_iff_toNat_lt, index, step]
    rcases mem_snoc.mp there with old | rfl
    · have before := UInt32.lt_iff_toNat_lt.mp (ahead.behind other old (same.trans key))
      omega
    · rw [n]
      omega
  · intro other there same
    obtain ⟨keys, indices⟩ := Prod.mk.inj same
    have before := ahead.behind other there (keys.trans dh)
    rw [indices, n] at before
    exact absurd before (UInt32.lt_irrefl _)

theorem Books.issue (books : Books issued drawn) (own : (peer, env.header.dhPub) ∈ drawn)
    (apart : ∀ other ∈ issued, other.header.position ≠ env.header.position) (fits : env.Fits) :
    Books (issued ++ [env]) drawn where
  owner := books.owner
  once first one second two same := by
    rcases mem_snoc.mp one with old | rfl <;> rcases mem_snoc.mp two with old' | rfl
    · exact books.once first old second old' same
    · exact absurd same (apart first old)
    · exact absurd same.symm (apart second old')
    · rfl
  known := forall_mem_snoc books.known ⟨peer, own⟩
  fits := forall_mem_snoc books.fits fits

/-! The operations of the engine, on the store. -/

variable {fate : Fate} {env : Envelope} {ratchet : S.Secret} {u : Unlocked S}

theorem withPeer_found (c : Core S X) (peer : B32) (f : PeerState S → PeerState S) :
    (c.withPeer peer f).store.peers.get? peer = some ⟨f (c.stateOf peer), true⟩ :=
  SortedMap.get?_insert_self _

theorem sessionFor_ahead (books : Books issued drawn) (placed : Placed S issued drawn peer st)
    (fresh : ∀ pair ∈ drawn, pair.2 ≠ S.publicKey draw.ratchet)
    (started : sessionFor me peer draw st.session = .ok s) :
    Ahead issued (drawn ++ [(peer, S.publicKey draw.ratchet)]) peer s := by
  cases session : st.session with
  | some held =>
    rw [session] at started
    cases started
    exact (placed.ahead session).draw _
  | none =>
    rw [session] at started
    exact books.ahead_fresh fresh (newInitiator_place started).1

structure Safe (c : Core S X) (issued : List Envelope) (drawn : List (B32 × B32)) : Prop where
  books : Books issued drawn
  placed : c.store.Holds (Placed S issued drawn)

namespace Safe

variable {f : PeerState S → PeerState S}

theorem committed_place (kept : ∀ st, (f st).peer = st.peer ∧ (f st).session = st.session) :
    (committed env u f st).peer = st.peer ∧ (committed env u f st).session = some u.session := by
  unfold committed
  cases u.newEk with
  | none => exact kept _
  | some ek =>
    have same := kept (PeerState.rememberEk { st with session := some u.session } ek)
    have moved : (PeerState.rememberEk { st with session := some u.session } ek).peer = st.peer ∧
        (PeerState.rememberEk { st with session := some u.session } ek).session = some u.session := by
      unfold PeerState.rememberEk
      split <;> exact ⟨rfl, rfl⟩
    exact ⟨same.1.trans moved.1, same.2.trans moved.2⟩

section

variable (safe : Safe c issued drawn)
include safe

theorem stateOf (peer : B32) : Placed S issued drawn peer (c.stateOf peer) :=
  (safe.placed.slot Placed.loadable).2

theorem loaded (peer : B32) : Safe (c.loaded peer) issued drawn :=
  ⟨safe.books, (safe.placed.slot Placed.loadable).1⟩

theorem draw (fresh : ∀ pair ∈ drawn, pair.2 ≠ key) : Safe c issued (drawn ++ [(peer, key)]) :=
  ⟨safe.books.draw fresh, safe.placed.mono (·.draw)⟩

theorem settleRollback (peer : B32) (fate : Fate) : Safe (c.settleRollback peer fate) issued drawn := by
  obtain ⟨outbox, pq, same⟩ := c.settleRollback_frame peer
  rw [same]
  exact ⟨safe.books, safe.placed.takeRollback Placed.loadable⟩

theorem withPeer (named : (f (c.stateOf peer)).peer = (c.stateOf peer).peer)
    (ahead : ∀ {s}, (f (c.stateOf peer)).session = some s → Ahead issued drawn peer s) :
    Safe (c.withPeer peer f) issued drawn :=
  ⟨safe.books, safe.placed.withPeer Placed.loadable ⟨named.trans (safe.stateOf peer).named, ahead⟩⟩

theorem flushPeer (peer : B32) (fate : Fate) : Safe (c.flushPeer peer fate).1 issued drawn :=
  ⟨safe.books, safe.placed.flushPeer Placed.loadable peer fate⟩

theorem conclude : Safe (c.conclude peer u status fate).1 issued drawn := by
  obtain ⟨outbox, same⟩ := c.conclude_frame peer u status fate
  rw [same]
  exact ⟨safe.books, safe.placed.flushPeer Placed.loadable peer fate⟩

theorem recordMessage (peer : B32) (m : StoredMessage)
    (fate : Fate) : Safe (c.recordMessage peer m fate).1 issued drawn := by
  have counted : Safe (c.withPeer peer (countMessage m)) issued drawn :=
    safe.withPeer rfl (fun held => (safe.stateOf peer).ahead held)
  unfold Core.recordMessage
  split
  · exact ⟨counted.books, counted.placed⟩
  · exact counted

theorem commit (ahead : Ahead issued drawn peer u.session)
    (kept : ∀ st, (f st).peer = st.peer ∧ (f st).session = st.session) :
    Safe ((c.commit peer env u f).conclude peer u status fate).1 issued drawn := by
  obtain ⟨named, session⟩ := committed_place kept
  apply conclude
  apply safe.withPeer named
  intro s held
  rw [session] at held
  cases held
  exact ahead

theorem opening (fresh : ∀ pair ∈ drawn, pair.2 ≠ S.publicKey ratchet) (opening : Opening c peer env ratchet u) :
    Ahead issued (drawn ++ [(peer, S.publicKey ratchet)]) peer u.session := by
  cases opening with
  | existing session opened =>
    have ahead := ((safe.stateOf peer).ahead session).draw [(peer, S.publicKey ratchet)]
    cases openWith_moved opened with
    | inl place => exact ahead.of_place place.1 place.2
    | inr turned => exact safe.books.ahead_fresh fresh turned.1
  | first opened => exact safe.books.ahead_fresh fresh (accept_turned opened).1

theorem unlock (fresh : ∀ pair ∈ drawn, pair.2 ≠ S.publicKey ratchet) {next : Core S X}
    (unlocked : c.unlock peer env ratchet = (next, result)) :
    Safe next issued (drawn ++ [(peer, S.publicKey ratchet)]) ∧ ∀ u, result = .ok u →
        Ahead issued (drawn ++ [(peer, S.publicKey ratchet)]) peer u.session := by
  obtain ⟨pq, frame⟩ := c.unlock_frame peer
  rw [unlocked] at frame
  change next = _ at frame
  have loaded : Safe (c.loaded peer) issued (drawn ++ [(peer, S.publicKey ratchet)]) := (safe.loaded peer).draw fresh
  constructor
  · rw [frame]
    exact ⟨loaded.books, loaded.placed⟩
  intro u ok
  subst ok
  exact safe.opening fresh (unlock_ok unlocked).2

end

theorem arrival :
    Arrival (fun c : Core S X => Safe c issued drawn) (Ahead issued drawn peer ·.session) peer fate where
  loaded safe := safe.loaded peer
  hybrid _ _ _ _ safe := ⟨safe.books, safe.placed⟩
  recorded m safe := safe.recordMessage peer m fate
  committed _ _ _ ahead kept safe := safe.commit ahead kept

theorem accept (safe : Safe c issued drawn) {draw : OpenDraw S X}
    (fresh : ∀ pair ∈ drawn, pair.2 ≠ S.publicKey draw.ratchet) :
    Safe (c.accept peer wire now draw fate).1 issued (drawn ++ [(peer, S.publicKey draw.ratchet)]) :=
  arrival.accept (safe.draw fresh) fun unlocked =>
    (safe.settleRollback peer fate).unlock fresh unlocked

theorem acceptRaw (safe : Safe c issued drawn) {draw : OpenDraw S X}
    (fresh : ∀ pair ∈ drawn, pair.2 ≠ S.publicKey draw.ratchet) :
    Safe (c.acceptRaw peer wire handle draw fate).1 issued (drawn ++ [(peer, S.publicKey draw.ratchet)]) :=
  arrival.acceptRaw (safe.draw fresh) fun unlocked =>
    (safe.settleRollback peer fate).unlock fresh unlocked

/-! Sending. -/

variable {draw : SealDraw S} {plain : Bytes} {after : Core S X}

section

variable (safe : Safe c issued drawn)
include safe

section

variable (fresh : ∀ pair ∈ drawn, pair.2 ≠ S.publicKey draw.ratchet)
include fresh

theorem loaded_draw (peer : B32) : Safe (c.loaded peer) issued (drawn ++ [(peer, S.publicKey draw.ratchet)]) :=
  (safe.loaded peer).draw fresh

theorem renewed (ahead : Ahead issued (drawn ++ [(peer, S.publicKey draw.ratchet)]) peer next) :
    Safe ((c.loaded peer).withPeer peer (fun st => { st with session := some next })) issued
      (drawn ++ [(peer, S.publicKey draw.ratchet)]) := by
  apply (safe.loaded_draw fresh peer).withPeer rfl
  intro held same
  cases same
  exact ahead

theorem sealOn_error (refused : c.sealOn peer plain draw = (after, .error e)) :
    Safe after issued (drawn ++ [(peer, S.publicKey draw.ratchet)]) := by
  rcases c.sealOn_cases peer plain draw with ⟨_, same⟩ | ⟨s, next, result, started, made, same⟩
  · rw [same] at refused
    cases refused
    have loaded := safe.loaded_draw fresh peer
    exact loaded.withPeer rfl (fun held => (loaded.stateOf peer).ahead held)
  rw [same] at refused
  cases refused
  obtain ⟨key, index⟩ := sealWith_error made
  have ahead := (sessionFor_ahead safe.books (safe.stateOf peer) fresh started).of_place key index
  have moved := safe.renewed fresh ahead
  exact ⟨moved.books, moved.placed⟩

theorem sealOn_flushed (tagged : S.Tagged) (sealed : c.sealOn peer plain draw = (after, .ok env))
    (flushed : after.flushPeer peer fate = (last, written)) :
    Safe last (if written then issued ++ [env] else issued) (drawn ++ [(peer, S.publicKey draw.ratchet)]) := by
  have loaded := safe.loaded_draw fresh peer
  rcases c.sealOn_cases peer plain draw with ⟨_, same⟩ | ⟨s, next, result, started, made, same⟩
  · rw [same] at sealed
    cases sealed
  rw [same] at sealed
  cases sealed
  have start := sessionFor_ahead safe.books (safe.stateOf peer) fresh started
  obtain ⟨ahead, apart, key⟩ := start.sealed made
  have moved := safe.renewed fresh ⟨ahead.own, fun env there => ahead.behind env (List.mem_append_left _ there)⟩
  have store : ((c.loaded peer).withPeer peer (fun st =>
      { st with session := some next })).store.flushPeer peer fate = (last.store, written) :=
    congrArg (fun pair => (pair.1.store, pair.2)) flushed
  cases written with
  | false =>
    have kept := moved.placed.flushPeer Placed.loadable peer fate
    rw [store] at kept
    exact ⟨moved.books, kept⟩
  | true =>
    have own : (peer, env.header.dhPub) ∈ drawn ++ [(peer, S.publicKey draw.ratchet)] := by
      rw [key]
      exact ahead.own
    refine ⟨moved.books.issue own apart (sealWith_fits tagged made), ?_⟩
    have found := withPeer_found (c.loaded peer) peer (fun st => { st with session := some next })
    refine moved.placed.flushed store found (loaded.stateOf peer).named ?_ ?_
    · refine ⟨(loaded.stateOf peer).named, ?_⟩
      intro held same
      cases same
      exact ahead
    · intro other held different placed
      refine ⟨placed.named, fun session => ⟨(placed.ahead session).own, ?_⟩⟩
      refine forall_mem_snoc (placed.ahead session).behind fun same => ?_
      -- The key of the new envelope was drawn for `peer`.
      have theirs := (placed.ahead session).own
      rw [← same] at theirs
      exact absurd (moved.books.owner theirs own) different

end

theorem finish {id : B16} : Safe (c.finish id state reason now fate) issued drawn := by
  unfold Core.finish
  split
  · exact safe
  rename_i e _
  split
  · exact ⟨safe.books, safe.placed⟩
  have recorded := safe.recordMessage e.peer ⟨true, e.id, e.seq, e.sentMs, now, state, reason, e.text⟩ fate
  split <;>
  · rename_i next result
    have same := congrArg Prod.fst result
    change _ = next at same
    have after : Safe next issued drawn := same ▸ recorded
    exact ⟨after.books, after.placed⟩

section

variable (peer : B32)

theorem enqueue {id : B16} : Safe (c.enqueue peer text now id fate).1 issued drawn := by
  have numbered : Safe ((c.loaded peer).withPeer peer (fun _ => (c.stateOf peer).nextSeq.1)) issued drawn :=
    (safe.loaded peer).withPeer (by rw [stateOf_loaded]; rfl) (fun held => (safe.stateOf peer).ahead held)
  have flushed := numbered.flushPeer peer fate
  unfold Core.enqueue
  split
  · exact safe
  split
  · exact safe
  split
  · exact safe
  dsimp only
  split
  · rename_i next result
    have same := congrArg Prod.fst result
    exact same ▸ flushed
  · rename_i next result
    have same := congrArg Prod.fst result
    change _ = next at same
    have after : Safe next issued drawn := same ▸ flushed
    split <;> exact ⟨after.books, after.placed⟩

theorem resetSession : Safe (c.resetSession peer fate) issued drawn := by
  have dropped : Safe (c.withPeer peer (fun st => { st with session := none })) issued drawn :=
    safe.withPeer rfl nofun
  have flushed := dropped.flushPeer peer fate
  exact ⟨flushed.books, flushed.placed⟩

theorem deleteConversation : Safe (c.deleteConversation peer fate).1 issued drawn := by
  have counted : Safe (c.withPeer peer (fun st => { st with count := 0, lastMs := 0 })) issued
      drawn := safe.withPeer rfl (fun held => (safe.stateOf peer).ahead held)
  have flushed := counted.flushPeer peer fate
  unfold Core.deleteConversation
  dsimp only
  split
  · exact ⟨safe.books, safe.placed⟩
  split <;>
  · rename_i next result
    have same := congrArg (·.1.store) result
    exact ⟨flushed.books, same ▸ flushed.placed⟩

theorem pqStep {draw : Draw X} : Safe (c.pqStep peer haveText now draw fate).1 issued drawn :=
  ⟨safe.books, (safe.loaded peer).placed⟩

theorem pqSent : Safe (c.pqSent peer out outcome now fate) issued drawn := by
  unfold Core.pqSent
  dsimp only
  split <;> exact ⟨safe.books, (safe.loaded peer).placed⟩

theorem evict : Safe (c.evict peer fate) issued drawn :=
  ⟨safe.books, safe.placed.evict Placed.loadable⟩

end

theorem restart : Safe (c.restart now mode fate) issued drawn :=
  ⟨safe.books, safe.placed.restart⟩

end

end Safe

end SingleUse

end Miasma.Chat
