import Miasma.Chat.Engine

namespace Miasma.Chat

open Data SortedMap

/-! Properties of every contact state of a store, in memory and on disk. -/

variable {S : Suite} {P Q : B32 → PeerState S → Prop}

structure Loadable (P : B32 → PeerState S → Prop) : Prop where
  new : ∀ peer, P peer (PeerState.new S peer)
  drop : ∀ {peer st} (floor : UInt64), P peer st → P peer { st with session := none, sendSeq := floor }
  named : ∀ {peer st}, P peer st → st.peer = peer

structure ChatStore.Holds (st : ChatStore S) (P : B32 → PeerState S → Prop) : Prop where
  memory : ∀ {peer slot}, st.peers.get? peer = some slot → P peer slot.state
  disk : ∀ {peer file state}, st.files.get? peer = some file → file.content = some state → P peer state

namespace ChatStore

variable {st next : ChatStore S} {peer : B32} {fate : Fate}

theorem Holds.new {anchor : Option Anchor} : (ChatStore.new S anchor).Holds P where
  memory found := by simp [ChatStore.new] at found
  disk found := by simp [ChatStore.new] at found

theorem judge_same (st : ChatStore S) (peer : B32) (disk : Fingerprint) (sendSeq : UInt64) :
    (st.judge peer disk sendSeq).1.peers = st.peers ∧ (st.judge peer disk sendSeq).1.files = st.files := by
  unfold judge
  split <;> simp

variable {state : PeerState S}

theorem slot_found {st : ChatStore S} : (st.slot peer).1.peers.get? peer = some (st.slot peer).2 := by
  unfold slot
  split
  · assumption
  · simp

theorem slot_of_found {slot : PeerSlot S} (found : st.peers.get? peer = some slot) : st.slot peer = (st, slot) := by
  simp only [ChatStore.slot, found]

theorem slot_slot {st : ChatStore S} : (st.slot peer).1.slot peer = st.slot peer := slot_of_found slot_found

theorem writePeer_written (written : st.writePeer state fate = (next, true)) :
    next.peers = st.peers ∧ ∃ fingerprint, next.files = st.files.insert state.peer ⟨fingerprint, some state⟩ := by
  unfold writePeer at written
  split at written
  · cases written
  split at written
  · cases written
  · cases written
  cases written
  exact ⟨rfl, _, rfl⟩

theorem flushPeer_written (written : st.flushPeer peer fate = (next, true))
    (found : st.peers.get? peer = some ⟨state, true⟩) (named : state.peer = peer) :
    next.peers = st.peers.insert peer ⟨state, false⟩ ∧
      ∃ fingerprint, next.files = st.files.insert peer ⟨fingerprint, some state⟩ := by
  subst named
  simp only [flushPeer, found, if_true] at written
  split at written
  · rename_i after wrote
    obtain ⟨peers, fingerprint, files⟩ := writePeer_written wrote
    cases written
    exact ⟨by simp [setSlot, peers], fingerprint, files⟩
  · cases written

section

variable (holds : st.Holds P)
include holds

theorem Holds.mono (weaker : ∀ {peer state}, P peer state → Q peer state) : st.Holds Q where
  memory found := weaker (holds.memory found)
  disk found content := weaker (holds.disk found content)

theorem Holds.of_same (peers : next.peers = st.peers) (files : next.files = st.files) : next.Holds P where
  memory found := holds.memory (peers ▸ found)
  disk found content := holds.disk (files ▸ found) content

theorem Holds.found (found : st.found peer = some (file, state)) : P peer state := by
  simp only [ChatStore.found, Option.bind_eq_some_iff] at found
  obtain ⟨other, there, held, content, same⟩ := found
  split at same
  · cases same
    exact holds.disk there content
  · cases same

theorem Holds.setSlot {slot : PeerSlot S} (met : P peer slot.state) : (st.setSlot peer slot).Holds P where
  memory found := by
    rcases get?_insert_cases found with ⟨rfl, rfl⟩ | ⟨-, old⟩
    · exact met
    · exact holds.memory old
  disk found content := holds.disk found content

theorem Holds.replaceFile (met : P peer state) {next : Fingerprint} :
    (st.replaceFile peer next state).Holds P where
  memory found := holds.memory found
  disk found content := by
    rcases get?_insert_cases found with ⟨rfl, rfl⟩ | ⟨-, old⟩
    · cases content
      exact met
    · exact holds.disk old content

theorem Holds.writePeer (met : P state.peer state) (fate : Fate) : (st.writePeer state fate).1.Holds P := by
  have before : (st.beforeWrite state.peer fate.fingerprint state.sendSeq).Holds P := holds.of_same rfl rfl
  unfold ChatStore.writePeer
  split
  · exact holds
  split
  · exact before
  · exact before.replaceFile met
  · exact (before.replaceFile met).of_same rfl rfl

section

variable (loadable : Loadable P)
include loadable

theorem Holds.loadPeer : (st.loadPeer peer).1.Holds P ∧ P peer (st.loadPeer peer).2.1 := by
  have kept : (if (st.found peer).isNone then { st with files := st.files.erase peer } else st).Holds P := by
    split
    · constructor
      · exact fun found => holds.memory found
      · exact fun found content => holds.disk (get?_of_erase found) content
    · exact holds
  have state : P peer ((st.found peer).elim (PeerState.new S peer) Prod.snd) := by
    cases found : st.found peer with
    | none => exact loadable.new peer
    | some pair => exact holds.found found
  simp only [ChatStore.loadPeer]
  generalize (if (st.found peer).isNone then { st with files := st.files.erase peer } else st) = base at kept
  generalize (st.found peer).elim (PeerState.new S peer) Prod.snd = loaded at state
  generalize (st.found peer).elim noFile (·.1.fingerprint) = disk
  obtain ⟨peers, files⟩ := judge_same base peer disk loaded.sendSeq
  cases judged : base.judge peer disk loaded.sendSeq with
  | mk after verdict =>
    rw [judged] at peers files
    cases verdict with
    | fine => exact ⟨kept.of_same peers files, state⟩
    | behind => exact ⟨kept.of_same peers files, loadable.drop _ state⟩

theorem Holds.slot : (st.slot peer).1.Holds P ∧ P peer (st.slot peer).2.state := by
  unfold ChatStore.slot
  split
  · rename_i slot found
    exact ⟨holds, holds.memory found⟩
  obtain ⟨loaded, state⟩ := holds.loadPeer loadable
  have set : ((st.loadPeer peer).1.setSlot peer
      ⟨(st.loadPeer peer).2.1, (st.loadPeer peer).2.2⟩).Holds P := loaded.setSlot state
  exact ⟨set.of_same rfl rfl, state⟩

theorem Holds.withPeer (met : P peer (f (st.slot peer).2.state)) : (st.withPeer peer f).Holds P :=
  (holds.slot loadable).1.setSlot met

theorem Holds.takeRollback : (st.takeRollback peer).1.Holds P :=
  (holds.slot loadable).1.of_same rfl rfl

theorem Holds.flushPeer (peer : B32) (fate : Fate) : (st.flushPeer peer fate).1.Holds P := by
  unfold ChatStore.flushPeer
  split
  · exact holds
  rename_i slot found
  have met := holds.memory found
  have own : P slot.state.peer slot.state := (loadable.named met).symm ▸ met
  have written := holds.writePeer own fate
  split
  · split
    · rename_i same
      rw [same] at written
      exact written.setSlot met
    · rename_i same
      rw [same] at written
      exact written
  · exact holds

theorem Holds.evict : (st.evict peer fate).Holds P := by
  have erased : ∀ {st : ChatStore S}, st.Holds P →
      ({ st with peers := st.peers.erase peer } : ChatStore S).Holds P := by
    intro st holds
    constructor
    · exact fun found => holds.memory (get?_of_erase found)
    · exact fun found content => holds.disk found content
  unfold ChatStore.evict
  split
  · exact holds
  rename_i slot found
  have met := holds.memory found
  split
  · exact erased (holds.writePeer ((loadable.named met).symm ▸ met) fate)
  · exact erased holds

end

theorem Holds.restart : st.restart.Holds P where
  memory found := by simp [ChatStore.restart] at found
  disk found content := holds.disk found content

/-- A new property that holds of the flushed contact holds everywhere, if the
other contacts meet it anyway. -/
theorem Holds.flushed (written : st.flushPeer peer fate = (next, true))
    (found : st.peers.get? peer = some ⟨state, true⟩) (named : state.peer = peer)
    (here : Q peer state) (elsewhere : ∀ {other held}, other ≠ peer → P other held → Q other held) :
    next.Holds Q := by
  obtain ⟨peers, fingerprint, files⟩ := flushPeer_written written found named
  constructor
  · intro other slot there
    rcases get?_insert_cases (peers ▸ there) with ⟨rfl, rfl⟩ | ⟨different, old⟩
    · exact here
    · exact elsewhere different (holds.memory old)
  · intro other file held there content
    rcases get?_insert_cases (files ▸ there) with ⟨rfl, rfl⟩ | ⟨different, old⟩
    · cases content
      exact here
    · exact elsewhere different (holds.disk old content)

end

end ChatStore

end Miasma.Chat
