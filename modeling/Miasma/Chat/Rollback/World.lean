import Miasma.Chat.Store
import Miasma.Data.Run

namespace Miasma.Chat.Rollback

open Data

/-! A store whose data folder can be put back to an earlier copy.

A crash can come between any two of the three steps of a write, and a session file can be
replaced by an earlier version of itself.  A `Past` is what happened to a contact, beside the store. -/

variable {S : Suite}

structure Past (S : Suite) where
  /-- Every file that was ever put on disk. -/
  versions : List (SessionFile S)
  /-- Files that were on disk before a write that completed. -/
  superseded : List Fingerprint
  /-- The send counters of the completed writes. -/
  completed : List UInt64
  lastCompleted : Fingerprint
  /-- The write that was in progress at the last crash since, and the file it was
  about to replace. -/
  interrupted : Option (Fingerprint × Fingerprint)
  /-- Files a load found to be the latest. -/
  accepted : List Fingerprint
  /-- The file this process found or wrote last. -/
  current : Fingerprint
  /-- The file this process found was behind, and it has not written one since. -/
  rejected : Bool

/-- The file is the most recently completed write, the write in progress at the
last crash, or the file that write was about to replace if it had itself been
found to be the latest. -/
def Past.Latest (past : Past S) (disk : Fingerprint) : Prop :=
  disk = past.lastCompleted ∨ ∃ pair, past.interrupted = some pair ∧
    (disk = pair.1 ∨ (disk = pair.2 ∧ disk ∈ past.accepted))

instance (past : Past S) (disk : Fingerprint) : Decidable (past.Latest disk) :=
  decidable_of_iff (disk = past.lastCompleted ∨ past.interrupted.any (fun pair =>
    disk = pair.1 ∨ (disk = pair.2 ∧ disk ∈ past.accepted))) (by
      simp only [Past.Latest, Option.any_eq_true, decide_eq_true_eq])

def Past.none (S : Suite) : Past S where
  versions := []
  superseded := []
  completed := []
  lastCompleted := noFile
  interrupted := Option.none
  accepted := []
  current := noFile
  rejected := false

structure Writing (S : Suite) where
  peer : B32
  fingerprint : Fingerprint
  state : PeerState S
  placed : Bool

/-- One load of a session file, and the history at that moment. -/
structure Loaded (S : Suite) where
  peer : B32
  disk : Fingerprint
  fine : Bool
  state : PeerState S
  past : Past S

structure World (S : Suite) where
  store : ChatStore S
  writing : Option (Writing S)
  past : B32 → Past S
  /-- Fingerprints of every file sealed so far. -/
  used : List Fingerprint
  loads : List (Loaded S)

inductive Event (S : Suite) where
  | load (peer : B32)
  | change (peer : B32) (state : PeerState S)
  | evict (peer : B32)
  | beforeWrite (peer : B32) (fingerprint : Fingerprint)
  | replaceFile
  | afterWrite
  | crash
  | putBack (peer : B32) (version : Option Nat)

namespace World

def start (S : Suite) : World S where
  store := ChatStore.new S (some ⟨some SortedMap.empty, true, SortedMap.empty, false⟩)
  writing := none
  past _ := Past.none S
  used := []
  loads := []

variable (w : World S) (peer : B32)

def setPast (past : Past S) : World S := { w with past := fun other => if other = peer then past else w.past other }

def disk : Fingerprint := (w.store.found peer).elim noFile (·.1.fingerprint)

def load : World S :=
  let disk := w.disk peer
  let past := w.past peer
  let (store, slot) := w.store.slot peer
  let past' := if slot.dirty then { past with current := disk, rejected := true }
    else { past with current := disk, rejected := false, accepted := disk :: past.accepted }
  let loaded : Loaded S := ⟨peer, disk, !slot.dirty, slot.state, past⟩
  { w with store := store, loads := w.loads ++ [loaded] }.setPast peer past'

def beforeWrite (state : PeerState S) (fingerprint : Fingerprint) : World S :=
  { w with
    store := w.store.beforeWrite peer fingerprint state.sendSeq
    writing := some ⟨peer, fingerprint, state, false⟩
    used := fingerprint :: w.used }

def replaceFile (writing : Writing S) : World S :=
  let past := w.past writing.peer
  let file : SessionFile S := ⟨writing.fingerprint, some writing.state⟩
  { w with
    store := w.store.replaceFile writing.peer writing.fingerprint writing.state
    writing := some { writing with placed := true } }.setPast writing.peer
      { past with versions := past.versions ++ [file] }

def afterWrite (writing : Writing S) : World S :=
  let past := w.past writing.peer
  let older := noFile :: (past.versions.map SessionFile.fingerprint).filter (· ≠ writing.fingerprint)
  let store := w.store.afterWrite writing.peer writing.fingerprint writing.state.sendSeq
  { w with
    store := store.setSlot writing.peer ⟨writing.state, false⟩
    writing := none }.setPast writing.peer { past with
        superseded := older ++ past.superseded
        completed := writing.state.sendSeq :: past.completed
        lastCompleted := writing.fingerprint
        interrupted := none
        current := writing.fingerprint
        rejected := false }

/-- The process ends; a write in progress stays as far as it got. -/
def crash : World S := { w with
    store := w.store.restart
    writing := none
    past := fun peer =>
      let past := { w.past peer with rejected := false }
      match w.writing with
      | some writing =>
        if writing.peer = peer then
          { past with interrupted := some (writing.fingerprint, past.current) }
        else past
      | none => past }

/-- The session file becomes an earlier version of itself, or is gone. -/
def putBack (file : Option (SessionFile S)) : World S :=
  { w with store := { w.store with files := match file with
      | some file => w.store.files.insert peer file
      | none => w.store.files.erase peer } }

/-- Nothing but a crash or a change of the data folder comes between the steps of a
write.  The state of a contact changes in memory only; its send counter never
falls. -/
def step : Event S → Option (World S)
  | .load peer =>
    if w.writing.isSome ∨ (w.store.peers.get? peer).isSome then none else some (w.load peer)
  | .change peer state =>
    match w.store.peers.get? peer with
    | some slot =>
      if w.writing.isNone ∧ state.peer = peer ∧ slot.state.sendSeq ≤ state.sendSeq then
        some { w with store := w.store.setSlot peer ⟨state, true⟩ }
      else none
    | none => none
  | .evict peer =>
    match w.store.peers.get? peer with
    | some slot =>
      if w.writing.isNone ∧ slot.dirty = false then
        some { w with store := { w.store with peers := w.store.peers.erase peer } }
      else none
    | none => none
  | .beforeWrite peer fingerprint =>
    match w.store.peers.get? peer with
    | some slot =>
      if w.writing.isNone ∧ slot.dirty ∧ fingerprint ≠ noFile ∧ fingerprint ∉ w.used then
        some (w.beforeWrite peer slot.state fingerprint)
      else none
    | none => none
  | .replaceFile =>
    match w.writing with
    | some writing => if writing.placed then none else some (w.replaceFile writing)
    | none => none
  | .afterWrite =>
    match w.writing with
    | some writing => if writing.placed then some (w.afterWrite writing) else none
    | none => none
  | .crash => some w.crash
  | .putBack peer none => some (w.putBack peer none)
  | .putBack peer (some version) =>
    (w.past peer).versions[version]?.map (fun file => w.putBack peer (some file))

end World

/-- What a load may give: only the latest file is found fine, the session of a
superseded one is never used, and no number of a completed write comes again. -/
structure Loaded.Safe (l : Loaded S) : Prop where
  latest : l.fine = true → l.past.Latest l.disk
  unused : l.state.session.isSome → l.disk ∉ l.past.superseded
  counted : ∀ seq ∈ l.past.completed, seq ≤ l.state.sendSeq

/-- No crash falls into the first write after a load that found its file behind. -/
def Undisturbed (w : World S) : Event S → Prop
  | .crash => ∀ writing, w.writing = some writing → (w.past writing.peer).rejected = false
  | _ => True

instance (w : World S) (event : Event S) : Decidable (Undisturbed w event) := match event with
  | .crash =>
    match h : w.writing with
    | some writing =>
      decidable_of_iff ((w.past writing.peer).rejected = false) (by simp [Undisturbed, h])
    | none => .isTrue (by simp [Undisturbed, h])
  | .load _ | .change .. | .evict _ | .beforeWrite .. | .replaceFile | .afterWrite
  | .putBack .. => .isTrue trivial

end Miasma.Chat.Rollback
