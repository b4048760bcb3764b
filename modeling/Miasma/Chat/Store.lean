import Miasma.Chat.Anchor
import Miasma.Chat.Peer

namespace Miasma.Chat

open Data

/-! The per-contact states of a conversation store and their session files
(`ChatStore` of `chat/store.rs`). -/

/-- A session file: the fingerprint of its bytes, and the state they hold if they
can be opened and parsed. -/
structure SessionFile (S : Suite) where
  fingerprint : Fingerprint
  content : Option (PeerState S)

structure PeerSlot (S : Suite) where
  state : PeerState S
  dirty : Bool

structure ChatStore (S : Suite) where
  /-- Session files on disk, by contact. -/
  files : SortedMap B32 (SessionFile S)
  /-- Contacts held in memory. -/
  peers : SortedMap B32 (PeerSlot S)
  anchor : Option Anchor
  /-- Contacts whose session file was found to be older than the one written
  last. -/
  rolledBack : List B32

namespace ChatStore

variable {S : Suite}

def new (S : Suite) (anchor : Option Anchor) : ChatStore S where
  files := SortedMap.empty
  peers := SortedMap.empty
  anchor := anchor
  rolledBack := []

variable (st : ChatStore S) (peer : B32)

def found : Option (SessionFile S × PeerState S) := (st.files.get? peer).bind fun file =>
    file.content.bind fun state => if state.peer = peer then some (file, state) else none

def judge (disk : Fingerprint) (sendSeq : UInt64) : ChatStore S × Check := match st.anchor with
  | none => (st, .fine)
  | some a =>
    let (a, verdict) := a.check peer disk sendSeq
    ({ st with anchor := some a }, verdict)

/-- The state of `peer` from disk, and whether it is older than the last one
written.  A file that cannot be used is set aside. -/
def loadPeer : ChatStore S × PeerState S × Bool :=
  let found := st.found peer
  let st := if found.isNone then { st with files := st.files.erase peer } else st
  let disk := found.elim noFile (·.1.fingerprint)
  let state := found.elim (PeerState.new S peer) Prod.snd
  match st.judge peer disk state.sendSeq with
  | (st, .fine) => (st, state, false)
  -- Its keys may have been used: a new session starts, and no number is used
  -- twice.
  | (st, .behind floor) =>
    (st, { state with session := none, sendSeq := max state.sendSeq floor }, true)

def slot : ChatStore S × PeerSlot S := match st.peers.get? peer with
  | some slot => (st, slot)
  | none =>
    let (st, state, behind) := st.loadPeer peer
    let slot : PeerSlot S := ⟨state, behind⟩
    let rolledBack := if behind then peer :: st.rolledBack else st.rolledBack
    ({ st with peers := st.peers.insert peer slot, rolledBack := rolledBack }, slot)

/-! `write_peer`, in the order of its steps. -/

/-- The record is written before the file is replaced. -/
def beforeWrite (next : Fingerprint) (sendSeq : UInt64) : ChatStore S :=
  { st with anchor := st.anchor.map (fun a => (a.beforeWrite peer next sendSeq).1) }

def replaceFile (next : Fingerprint) (state : PeerState S) : ChatStore S :=
  { st with files := st.files.insert peer ⟨next, some state⟩ }

def afterWrite (next : Fingerprint) (sendSeq : UInt64) : ChatStore S :=
  { st with anchor := st.anchor.map (·.afterWrite peer next sendSeq) }

def setSlot (slot : PeerSlot S) : ChatStore S := { st with peers := st.peers.insert peer slot }

/-- `with_peer`: the state is marked changed. -/
def withPeer (f : PeerState S → PeerState S) : ChatStore S :=
  let (st, slot) := st.slot peer
  st.setSlot peer ⟨f slot.state, true⟩

def restart : ChatStore S where
  files := st.files
  peers := SortedMap.empty
  anchor := st.anchor.map Anchor.restart
  rolledBack := []

end ChatStore

end Miasma.Chat
