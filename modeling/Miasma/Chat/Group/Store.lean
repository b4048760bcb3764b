import Miasma.Chat.Group.State

namespace Miasma.Chat.Group

open Data

/-! Files of the group chat (`chat/group/store.rs`).  In ephemeral mode the messages are kept in a
bounded ring in memory and never written. -/

def entryOverhead : Nat := 160

/-- One group message as stored and shown. -/
structure GroupMsg where
  ord : UInt64
  outgoing : Bool
  sender : B32
  counter : UInt64
  id : B16
  sentMs : UInt64
  atMs : UInt64
  epoch : UInt32
  text : String
  sharedBy : Option B32
deriving DecidableEq

def GroupMsg.cost (m : GroupMsg) : Nat := m.text.utf8ByteSize + entryOverhead

structure StoreSettings where
  historySave : Bool
  ephemeralBytes : Nat
  maxMessagesPerConversation : Nat

/-- What the files answer during one call: for each kind of write, the error it
ends with, if any. -/
structure Faults where
  write : Option String := none
  append : Option String := none
  rewrite : Option String := none
  deleteState : Option String := none
  deleteHistory : Option String := none

structure GroupStore where
  settings : StoreSettings
  documents : SortedMap B16 Bytes
  /-- The message logs, oldest first; each message with the group it belongs to. -/
  logs : List (B16 × GroupMsg)
  ring : List (B16 × GroupMsg)

namespace GroupStore

def new (settings : StoreSettings) : GroupStore := ⟨settings, SortedMap.empty, [], []⟩

variable (store : GroupStore)

/-- The state after the process ended: the ring was only in memory. -/
def reopen : GroupStore := { store with ring := [] }

/-- Every group on disk.  A document that cannot be read is set aside. -/
def loadAll (P : Primitives) (store : GroupStore) : GroupStore × List GroupState :=
  let readable (entry : B16 × Bytes) : Option GroupState :=
    (GroupState.decode P entry.2).filter (·.gid == entry.1)
  ({ store with documents := store.documents.filter (fun entry => (readable entry).isSome) },
    store.documents.entries.filterMap readable)

def writeState (faults : Faults) (s : GroupState) : GroupStore × Except String Unit := match faults.write with
  | some e => (store, .error e)
  | none => ({ store with documents := store.documents.insert s.gid s.encode }, .ok ())

def deleteGroup (faults : Faults) (gid : B16) : GroupStore × Except String Unit :=
  let store := { store with ring := store.ring.filter (·.1 != gid) }
  match faults.deleteState with
  | some e => (store, .error e)
  | none =>
    let store := { store with documents := store.documents.erase gid }
    match faults.deleteHistory with
    | some e => (store, .error e)
    | none => ({ store with logs := store.logs.filter (·.1 != gid) }, .ok ())

def group (gid : B16) (list : List (B16 × GroupMsg)) : List GroupMsg :=
  (list.filter (·.1 == gid)).map Prod.snd

def messages (gid : B16) : List GroupMsg :=
  group gid (if store.settings.historySave then store.logs else store.ring)

/-- The largest `ord` held and the number of messages. -/
def maxOrd (gid : B16) : UInt64 × UInt64 :=
  (store.messages gid).foldl (fun (most, n) m => (max most m.ord, n + 1)) (0, 0)

def ringBytes (ring : List (B16 × GroupMsg)) : Nat := (ring.map (·.2.cost)).sum

/-- Drops the oldest messages of the ring while it is above its size. -/
def trimRing (limit : Nat) : List (B16 × GroupMsg) → List (B16 × GroupMsg)
  | [] => []
  | oldest :: rest => if ringBytes (oldest :: rest) > limit then trimRing limit rest else oldest :: rest

def record (faults : Faults) (gid : B16) (m : GroupMsg)
    (countAfter : UInt64) : GroupStore × Except String Unit :=
  if !store.settings.historySave then
    ({ store with ring := trimRing store.settings.ephemeralBytes (store.ring ++ [(gid, m)]) }, .ok ())
  else
    match faults.append with
    | some e => (store, .error e)
    | none =>
      let store := { store with logs := store.logs ++ [(gid, m)] }
      let cap := store.settings.maxMessagesPerConversation
      if countAfter.toNat > cap + cap / 10 then
        match faults.rewrite with
        | some e => (store, .error e)
        | none =>
          let keep (e : B16 × GroupMsg) : Bool := e.1 != gid || e.2.ord + UInt64.ofNat cap > m.ord
          ({ store with logs := store.logs.filter keep }, .ok ())
      else (store, .ok ())

/-- Keep only the messages `keep` accepts; returns how many remain. -/
def retain (faults : Faults) (gid : B16) (keep : GroupMsg → Bool) : GroupStore × Except String UInt64 :=
  let kept := UInt64.ofNat ((store.messages gid).filter keep).length
  let stays (e : B16 × GroupMsg) : Bool := e.1 != gid || keep e.2
  if !store.settings.historySave then
    ({ store with ring := store.ring.filter stays }, .ok kept)
  else
    match faults.rewrite with
    | some e => (store, .error e)
    | none => ({ store with logs := store.logs.filter stays }, .ok kept)

/-- Puts `m` in its place by `ord`, unless that `ord` is taken. -/
def insertByOrd (m : GroupMsg) : List GroupMsg → List GroupMsg
  | [] => [m]
  | first :: rest =>
    if first.ord < m.ord then first :: insertByOrd m rest
    else if first.ord = m.ord then first :: rest
    else m :: first :: rest

def takeIntoPage (upper : UInt64) (limit : Nat) (win : List GroupMsg) (m : GroupMsg) : List GroupMsg :=
  if m.ord ≥ upper then win
  else if win.length = limit ∧ win.head?.any (m.ord < ·.ord) then win
  else
    let grown := insertByOrd m win
    if grown.length > limit then grown.tail else grown

/-- The newest `limit` messages of `gid` with `ord` below `before`, oldest first. -/
def page (gid : B16) (before : Option UInt64) (limit : Nat) : List GroupMsg :=
  (store.messages gid).foldl (takeIntoPage (before.getD 0xffffffffffffffff) limit) []

end GroupStore

end Miasma.Chat.Group
