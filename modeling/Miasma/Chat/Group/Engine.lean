import Miasma.Chat.Group.Store

namespace Miasma.Chat.Group

open Data

/-! The group engine without the network (`chat/group/engine.rs`).  A call that fails may leave
changes behind in memory, so every operation returns the engine with its result. -/

def maxGroups : Nat := 32
def maxInvites : Nat := 8
def unverifiedMaxText : Nat := 2048
def eventCap : Nat := 200
def maxHistPerHandover : Nat := maxPending

inductive GroupError where
  | empty
  | tooBig
  | notFound
  | notJoined
  | notAdmin
  | notMember
  | alreadyMember
  | tooManyGroups
  | tooManyMembers
  | lastAdmin
  | queueFull
  | invalid
  | storage (reason : String)
deriving DecidableEq

def GroupError.ofDesc : DescError → GroupError
  | .tooManyMembers => .tooManyMembers
  | .noAdmin => .lastAdmin
  | .notAuthorized => .notAdmin
  | _ => .invalid

inductive GroupEventKind where
  | received
  | invited
  | joined
  | changed

structure GroupEvent where
  seq : UInt64
  gid : B16
  kind : GroupEventKind
  message : Option GroupMsg

inductive Work where
  | text (gid id : B16)
  | descs (gid : B16)
  | sync (gid : B16)
  | hist (gid : B16) (dest : B32) (seq : UInt64)
deriving DecidableEq

structure Outgoing where
  work : Work
  plain : Bytes

/-- One past message queued to hand over to a member; in memory only. -/
structure HistJob where
  seq : UInt64
  plain : Bytes

structure GroupCore where
  key : B32
  own : B32
  maxText : Nat
  autoJoin : Bool
  store : GroupStore
  groups : SortedMap B16 GroupState
  nextEvent : UInt64
  events : List GroupEvent
  hist : SortedMap B32 (List HistJob)
  histSeq : UInt64

/-- `char::is_whitespace`: the Unicode property White_Space. -/
def isWhitespace (c : Char) : Bool :=
  let n := c.val
  (0x9 ≤ n && n ≤ 0xd) || n == 0x20 || n == 0x85 || n == 0xa0 || n == 0x1680 ||
    (0x2000 ≤ n && n ≤ 0x200a) || n == 0x2028 || n == 0x2029 || n == 0x202f || n == 0x205f ||
    n == 0x3000

def trim (text : String) : String :=
  String.ofList ((text.toList.dropWhile isWhitespace).reverse.dropWhile isWhitespace).reverse

/-- The longest front of `chars` that fits in `room` bytes. -/
def takeBytes (room : Nat) : List Char → List Char
  | [] => []
  | c :: rest => if c.utf8Size ≤ room then c :: takeBytes (room - c.utf8Size) rest else []

def trimHint (hint : String) : String := String.ofList (takeBytes maxHintBytes (trim hint).toList)

namespace GroupState

variable (s : GroupState)

def oweEach (dests : List B32) (kind : CtrlKind) (arg : UInt32) : GroupState :=
  dests.foldl (fun s dest => (s.owe dest kind arg).1) s

def others (own : B32) : List B32 :=
  (s.chain.latest.members.map Member.id).filter (· != own)

/-- Copies that will never be delivered, counted for their messages. -/
def noteFailed (dropped : List (B16 × UInt8)) : GroupState := dropped.foldl (fun s entry =>
    s.changeLedger entry.1 (fun l => { l with failed := saturatingAdd l.failed entry.2 })) s

/-- After a member list shrank: stop owing copies to people who are gone. -/
def prune : GroupState :=
  let listed := s.chain.latest.members.map Member.id
  let remaining (p : PendingMsg) : List B32 := p.dest.filter (listed.contains ·)
  let dropped := s.pending.filterMap (fun p =>
    let gone := p.dest.length - (remaining p).length
    if gone > 0 then some (p.id, UInt8.ofNat gone) else none)
  let shrunk := s.pending.map (fun p => { p with dest := remaining p })
  let s := { s with pending := shrunk.filter (!·.dest.isEmpty) }
  let s := s.noteFailed dropped
  { s with ctrl := s.ctrl.filter (listed.contains ·.dest) }

/-- `latest().is_member(peer) && confirm(peer)`. -/
def confirmMember (peer : B32) : GroupState × Bool :=
  if s.chain.latest.isMember peer then s.confirm peer else (s, false)

/-- `vectors.entry(sender).or_default().mark(counter)`. -/
def markCounter (sender : B32) (counter : UInt64) : GroupState :=
  let vector := ((s.vectors.get? sender).getD default).mark counter
  { s with vectors := s.vectors.insert sender vector }

def queueMessage (id : B16) (text : String) (now : UInt64) (recipients : List B32) : GroupState :=
  let s := { s with myCounter := s.myCounter + 1 }
  if recipients.isEmpty then s
  else
    let owed : PendingMsg := ⟨id, s.myCounter, s.chain.latest.epoch, now, text, recipients⟩
    pushLedger { s with pending := s.pending ++ [owed] } ⟨id, UInt8.ofNat recipients.length, 0, 0⟩

def becomeMember (own addedBy : B32) : GroupState × List B32 :=
  let s := { s with status := .joined, addedBy := some addedBy }
  (s.oweEach (s.others own) .sync s.chain.epoch, s.others own)

end GroupState

namespace GroupCore

variable (P : Primitives)

/-- `GroupCore::new`, with the message limit the chat was configured with. -/
def new (key : B32) (maxMessageBytes : Nat) (store : GroupStore) : GroupCore :=
  let loaded := store.loadAll P
  { key := key
    own := P.verifyingKey key
    maxText := max 1 (min maxMessageBytes maxTextBytes)
    autoJoin := true
    store := loaded.1
    groups := loaded.2.foldl (fun groups s => groups.insert s.gid s) SortedMap.empty
    nextEvent := 1
    events := []
    hist := SortedMap.empty
    histSeq := 1 }

variable (core : GroupCore)

def pushEvent (gid : B16) (kind : GroupEventKind) (m : Option GroupMsg) : GroupCore :=
  let kept := if core.events.length ≥ eventCap then core.events.tail else core.events
  { core with
    nextEvent := core.nextEvent + 1
    events := kept ++ [⟨core.nextEvent, gid, kind, m⟩] }

def putGroup (gid : B16) (s : GroupState) : GroupCore := { core with groups := core.groups.insert gid s }

variable (faults : Faults)

def save (s : GroupState) : GroupCore × Except GroupError Unit := match core.store.writeState faults s with
  | (store, .ok ()) => ({ core with store := store }, .ok ())
  | (store, .error e) => ({ core with store := store }, .error (.storage e))

/-- The last steps of a change: the state is in memory, is written, and an event
says so. -/
def commit (core : GroupCore) (faults : Faults) (gid : B16) (s : GroupState)
    (result : α) : GroupCore × Except GroupError α :=
  match (core.putGroup gid s).save faults s with
  | (core, .error e) => (core, .error e)
  | (core, .ok ()) => (core.pushEvent gid .changed none, .ok result)

def liveGroup (gid : B16) : Except GroupError GroupState := match core.groups.get? gid with
  | none => .error .notFound
  | some s => if s.status ≠ .joined then .error .notJoined else .ok s

/-! ## Changing a group -/

/-- The member list of a new group: `list` so far, then the given people. -/
def createList (own : B32) : List Member → List (B32 × String) → Except GroupError (List Member)
  | list, [] => .ok list
  | list, (id, hint) :: rest =>
    if id = own ∨ list.any (·.id == id) then .error .invalid
    else createList own (list ++ [⟨id, .member, trimHint hint⟩]) rest

/-- Create a group; `gid` is the random ID drawn for it. -/
def create (gid : B16) (name : String)
    (members : List (B32 × String)) (now : UInt64) : GroupCore × Except GroupError B16 :=
  let name := trim name
  if name.isEmpty ∨ name.utf8ByteSize > maxNameBytes then (core, .error .invalid)
  else if members.length + 1 > maxMembers then (core, .error .tooManyMembers)
  else match createList core.own [⟨core.own, .admin, ""⟩] members with
  | .error e => (core, .error e)
  | .ok list =>
    let d : Descriptor := Descriptor.signed P
      { gid := gid
        epoch := 1
        name := name
        createdMs := now
        prevHash := ByteVec.fill 32 0
        members := list
        signer := ByteVec.fill 32 0
        sig := ByteVec.fill 64 0 } core.key
    match Chain.fromRoot P d with
    | .error e => (core, .error (.ofDesc e))
    | .ok chain =>
      let s := { GroupState.new chain .joined with lastMs := now }
      let s := s.oweEach (s.others core.own) .descs 0
      if core.groups.size ≥ maxGroups then (core, .error .tooManyGroups)
      else match core.save faults s with
      | (core, .error e) => (core, .error e)
      | (core, .ok ()) => (core.putGroup gid s, .ok gid)

/-- `epoch + 1` wraps around as in a release build. -/
def nextDescriptor (before : Descriptor) (members : List Member) (key : B32) : Descriptor :=
  Descriptor.signed P
    { gid := before.gid
      epoch := before.epoch + 1
      name := before.name
      createdMs := before.createdMs
      prevHash := before.hash P
      members := members
      signer := ByteVec.fill 32 0
      sig := ByteVec.fill 64 0 } key

def addList : List Member → List (B32 × String × Bool) → Except GroupError (List Member)
  | members, [] => .ok members
  | members, (id, hint, admin) :: rest =>
    if members.any (·.id == id) then .error .alreadyMember
    else addList (members ++ [⟨id, if admin then .admin else .member, trimHint hint⟩]) rest

def add (gid : B16)
    (new : List (B32 × String × Bool)) : GroupCore × Except GroupError (List B32) :=
  match core.liveGroup gid with
  | .error e => (core, .error e)
  | .ok s =>
    let latest := s.chain.latest
    if !latest.isAdmin core.own then (core, .error .notAdmin)
    else if latest.members.length + new.length > maxMembers then (core, .error .tooManyMembers)
    else match addList latest.members new with
    | .error e => (core, .error e)
    | .ok members =>
      match s.chain.push P (nextDescriptor P latest members core.key) with
      | .error e => (core, .error (.ofDesc e))
      | .ok (chain, _) =>
        let s := { s with chain := chain }
        let others := s.others core.own
        core.commit faults gid (s.oweEach others .descs 0) others

def remove (gid : B16) (who : B32) : GroupCore × Except GroupError (List B32) :=
  match core.liveGroup gid with
  | .error e => (core, .error e)
  | .ok s =>
    let latest := s.chain.latest
    if !latest.isAdmin core.own then (core, .error .notAdmin)
    else if who = core.own then (core, .error .invalid)
    else if !latest.isMember who then (core, .error .notMember)
    else
      let members := latest.members.filter (·.id != who)
      match s.chain.push P (nextDescriptor P latest members core.key) with
      | .error e => (core, .error (.ofDesc e))
      | .ok (chain, _) =>
        let s := { s with chain := chain }.prune
        let notify := s.others core.own ++ [who]
        core.commit faults gid (s.oweEach notify .descs 0) notify

def leave (gid : B16) : GroupCore × Except GroupError (List B32) := match core.liveGroup gid with
  | .error e => (core, .error e)
  | .ok s =>
    let latest := s.chain.latest
    let members := latest.members.filter (·.id != core.own)
    let others := members.map Member.id
    if members.isEmpty then
      let s := { s with status := .left }
      match (core.putGroup gid s).save faults s with
      | (core, .error e) => (core, .error e)
      | (core, .ok ()) => (core, .ok others)
    else if latest.isAdmin core.own && !members.any (·.role == .admin) then
      (core, .error .lastAdmin)
    else match s.chain.push P (nextDescriptor P latest members core.key) with
    | .error e => (core, .error (.ofDesc e))
    | .ok (chain, _) =>
      let s := { s with chain := chain, status := .left }
      core.commit faults gid (s.oweEach others .descs 0) others

def acceptInvite (gid : B16) : GroupCore × Except GroupError (List B32) :=
  match core.groups.get? gid with
  | none => (core, .error .notFound)
  | some s =>
    match s.status with
    | .pending invitedBy =>
      let (s, others) := s.becomeMember core.own invitedBy
      core.commit faults gid s others
    | .joined => (core, .ok [])
    | _ => (core, .error .notJoined)

/-- Decline an invitation, or drop a group we left or were removed from. -/
def forget (gid : B16) : GroupCore × Except GroupError Unit := match core.groups.get? gid with
  | none => (core, .error .notFound)
  | some s =>
    if s.status = .joined then (core, .error .invalid)
    else match core.store.deleteGroup faults gid with
    | (store, .error e) => ({ core with store := store }, .error (.storage e))
    | (store, .ok ()) => ({ core with store := store, groups := core.groups.erase gid }, .ok ())

/-! ## Sending -/

def numberMessage (store : GroupStore) (s : GroupState) (m : GroupMsg) : GroupState × GroupMsg :=
  let s := if s.nextOrd = 0 then
      let (most, n) := store.maxOrd s.gid
      { s with nextOrd := most + 1, count := n }
    else s
  ({ s with nextOrd := s.nextOrd + 1, count := s.count + 1, lastMs := max s.lastMs m.atMs },
    { m with ord := s.nextOrd })

/-- Appends a message to the history.  The group state is changed also when the
write fails. -/
def recordLocked (store : GroupStore) (faults : Faults) (s : GroupState) (m : GroupMsg) :
    GroupStore × GroupState × Except GroupError Unit :=
  let (s, m) := numberMessage store s m
  match store.record faults s.gid m s.count with
  | (store, .ok ()) => (store, s, .ok ())
  | (store, .error e) => (store, s, .error (.storage e))

/-- Accept a message for the group: number it, keep it for every member and
write it to our own history.  `id` is the random ID drawn for it. -/
def send (gid id : B16) (text : String) (now : UInt64) :
    GroupCore × Except GroupError (B16 × List B32) :=
  if text.isEmpty then (core, .error .empty)
  else if text.utf8ByteSize > core.maxText then (core, .error .tooBig)
  else match core.liveGroup gid with
  | .error e => (core, .error e)
  | .ok s =>
    if s.pending.length ≥ maxPending then (core, .error .queueFull)
    else
      let recipients := s.others core.own
      let epoch := s.chain.latest.epoch
      let counter := s.myCounter + 1
      let s := s.queueMessage id text now recipients
      let m : GroupMsg :=
        { ord := 0, outgoing := true, sender := core.own, counter := counter, id := id, sentMs := now,
          atMs := now, epoch := epoch, text := text, sharedBy := none }
      match recordLocked core.store faults s m with
      | (store, s, .error e) => ({ core with store := store }.putGroup gid s, .error e)
      | (store, s, .ok ()) =>
        match ({ core with store := store }.putGroup gid s).save faults s with
        | (core, .error e) => (core, .error e)
        | (core, .ok ()) => (core, .ok (id, recipients))

variable (peer : B32)

/-- The pending message with the smallest counter among those owed to `peer`. -/
def firstOwed (pending : List PendingMsg) : Option PendingMsg :=
  (pending.filter (·.dest.contains peer)).foldl (fun best p =>
    match best with
    | none => some p
    | some held => if p.counter < held.counter then some p else some held) none

/-- The control item owed to `peer` in the first group that has one. -/
def nextCtrl (peer : B32) : List GroupState → Option (Option Outgoing)
  | [] => none
  | s :: rest =>
    match s.ctrl.find? (·.dest == peer) with
    | none => nextCtrl peer rest
    | some c =>
      match c.kind with
      | .descs =>
        some ((encodeDescs (newestThatFit s.chain.items)).toOption.map (⟨.descs s.gid, ·⟩))
      | .sync => some (some ⟨.sync s.gid, encodeSync s.gid c.arg⟩)

def nextText (peer : B32) : List GroupState → Option (Option Outgoing)
  | [] => none
  | s :: rest =>
    match firstOwed peer s.pending with
    | none => nextText peer rest
    | some p =>
      let t : GroupText := ⟨s.gid, p.epoch, p.counter, p.id, p.sentMs, p.text⟩
      some (t.encode.toOption.map (⟨.text s.gid p.id, ·⟩))

/-- The next item owed to `peer`: descriptors and requests before messages, and
handed-over history last. -/
def nextFor : Option Outgoing := match nextCtrl peer core.groups.values with
  | some outgoing => outgoing
  | none =>
    match nextText peer core.groups.values with
    | some outgoing => outgoing
    | none =>
      match core.hist.get? peer with
      | some (job :: _) =>
        some ⟨.hist ((histGid job.plain).getD default) peer job.seq, job.plain⟩
      | _ => none

def settlePending (pending : List PendingMsg) (peer : B32) (id : B16) : List PendingMsg :=
  let shrink (p : PendingMsg) : PendingMsg := { p with dest := p.dest.filter (· != peer) }
  (updateFirst (·.id == id) shrink pending).filter (!·.dest.isEmpty)

def settleState (s : GroupState) (peer : B32) (work : Work) (delivered : Bool) : GroupState := match work with
  | .descs _ => { s with ctrl := s.ctrl.filter (fun c => !(c.dest == peer && c.kind == .descs)) }
  | .sync _ => { s with ctrl := s.ctrl.filter (fun c => !(c.dest == peer && c.kind == .sync)) }
  | .text _ id =>
    let s := { s with pending := settlePending s.pending peer id }
    let s := if delivered then (s.confirm peer).1 else s
    s.changeLedger id (fun l =>
      if delivered then { l with delivered := saturatingAdd l.delivered 1 }
      else { l with failed := saturatingAdd l.failed 1 })
  | .hist _ _ _ => s

def Work.gid : Work → B16
  | .text gid _ => gid
  | .descs gid => gid
  | .sync gid => gid
  | .hist gid _ _ => gid

/-- `delivered` and `gave_up`. -/
def settle (work : Work) (delivered : Bool) : GroupCore := match work with
  | .hist _ dest seq =>
    match core.hist.get? dest with
    | none => core
    | some queue =>
      let kept := queue.filter (·.seq != seq)
      { core with hist := if kept.isEmpty then core.hist.erase dest else core.hist.insert dest kept }
  | work =>
    match core.groups.get? (Work.gid work) with
    | none => core
    | some s =>
      let s := settleState s peer work delivered
      ((core.putGroup (Work.gid work) s).save faults s).1

/-! ## Receiving -/

/-- What a received record led to: the engine, the answer, and the members that
now have something waiting for them. -/
abbrev Handled := GroupCore × AckStatus × List B32

variable (gid : B16)

/-- Appends a received message and marks its counter.  A failed append leaves
the group state as it was. -/
def takeMessage (s : GroupState) (m : GroupMsg) (after : GroupState → GroupState) : Handled :=
  match recordLocked core.store faults s m with
  | (store, _, .error _) => ({ core with store := store }, .failed, [])
  | (store, s, .ok ()) =>
    let s := after (s.markCounter m.sender m.counter)
    match ({ core with store := store }.putGroup gid s).save faults s with
    | (core, .error _) => (core, .failed, [])
    | (core, .ok ()) =>
      (core.pushEvent gid .received (some { m with ord := s.nextOrd - 1 }), .stored, [])

def handleText (t : GroupText) (now : UInt64) (trusted : B32 → Bool) : Handled :=
  match core.groups.get? t.gid with
  | none => (core, .notAllowed, [])
  | some s =>
    match s.status with
    | .pending _ => (core, .busy, [])
    | .left => (core, .notAllowed, [])
    | .removed => (core, .notAllowed, [])
    | .joined =>
      let cur := s.chain.epoch
      if t.epoch > cur then
        -- The sender is ahead of us: ask for what we are missing.
        match s.owe peer .sync cur with
        | (s, true) => (((core.putGroup t.gid s).save faults s).1, .busy, [peer])
        | (s, false) => (core.putGroup t.gid s, .busy, [])
      else if !s.chain.latest.isMember peer then (core, .notAllowed, [])
      else if t.text.utf8ByteSize > core.maxText ∨
          (!trusted peer ∧ t.text.utf8ByteSize > unverifiedMaxText) then (core, .tooBig, [])
      else if (s.vectors.get? peer).any (!·.isNew t.counter) then (core, .duplicate, [])
      else if !s.vectors.contains peer ∧ s.vectors.size ≥ maxVectors then (core, .busy, [])
      else
        core.takeMessage faults t.gid s
          { ord := 0, outgoing := false, sender := peer, counter := t.counter, id := t.id,
            sentMs := t.sentMs, atMs := now, epoch := t.epoch, text := t.text, sharedBy := none }
          (fun s => (s.confirm peer).1)

/-- A member handed us a past message: recorded as its author's, marked as
shared by `peer`. -/
def handleHistOffer (o : HistOffer) (now : UInt64) : Handled := match core.groups.get? o.gid with
  | none => (core, .notAllowed, [])
  | some s =>
    match s.status with
    | .pending _ => (core, .busy, [])
    | .left => (core, .notAllowed, [])
    | .removed => (core, .notAllowed, [])
    | .joined =>
      if !s.chain.latest.isMember peer then (core, .notAllowed, [])
      else if o.originalSender = core.own ∨ !s.chain.everMember o.originalSender then
        (core, .notAllowed, [])
      else if o.text.utf8ByteSize > core.maxText then (core, .tooBig, [])
      else if (s.vectors.get? o.originalSender).any (!·.isNew o.originalCounter) then
        (core, .duplicate, [])
      else if !s.vectors.contains o.originalSender ∧ s.vectors.size ≥ maxVectors then
        (core, .busy, [])
      else
        core.takeMessage faults o.gid s
          { ord := 0, outgoing := false, sender := o.originalSender, counter := o.originalCounter,
            id := o.originalId, sentMs := o.originalSentMs, atMs := now, epoch := o.originEpoch,
            text := o.text, sharedBy := some peer }
          id

def handleSync : Handled := match core.groups.get? gid with
  | none => (core, .notAllowed, [])
  | some s =>
    if !s.chain.everMember peer then (core, .notAllowed, [])
    else if s.status.isPending then (core, .busy, [])
    else
      -- Only a device that joined asks for descriptors.
      let (s, news) := s.confirmMember peer
      let (s, owed) := s.owe peer .descs 0
      let kick := if owed then [peer] else []
      let core := core.putGroup gid s
      if owed || news then
        match core.save faults s with
        | (core, .error _) => (core, .failed, kick)
        | (core, .ok ()) => (core, .stored, kick)
      else (core, .stored, kick)

def ascending : List Descriptor → Bool
  | first :: second :: rest => first.epoch < second.epoch && ascending (second :: rest)
  | _ => true

/-- Our standing after the newest descriptor changed.  The last two results say
whether we joined at once and whom to wake. -/
def standing (s : GroupState) (own peer : B32) (trusted autoJoin : Bool) :
    GroupState × Bool × List B32 :=
  match s.status, s.chain.latest.isMember own with
  | .joined, false => ({ s with status := .removed }, false, [])
  | .pending _, false => ({ s with status := .removed }, false, [])
  | .joined, true => (s, false, [])
  | .pending _, true => (s, false, [])
  | _, false => (s, false, [])
  | _, true =>
    -- Added again: join at once, or ask first, as for a new invitation.
    if trusted then
      let s := (GroupState.confirmMember { s with confirmed := [] } peer).1
      if autoJoin then
        let (s, kick) := s.becomeMember own peer
        (s, true, kick)
      else ({ s with status := .pending peer }, false, [])
    else (s, false, [])

def updateGroup (s : GroupState) (ds : List Descriptor) (trusted : B32 → Bool) : Handled :=
  let was := s.status
  match s.chain.pushAll P ds with
  | (chain, .error .gap) => (core.putGroup gid { s with chain := chain }, .badRequest, [])
  | (chain, .error _) => (core.putGroup gid { s with chain := chain }, .notAllowed, [])
  | (chain, .ok false) =>
    let s := { s with chain := chain }
    match s.confirmMember peer with
    | (s, true) => (((core.putGroup gid s).save faults s).1, .duplicate, [])
    | (s, false) => (core.putGroup gid s, .duplicate, [])
  | (chain, .ok true) =>
    let s := { s with chain := chain }
    let s := (s.confirmMember peer).1
    let (s, joinedNow, kick) := standing s core.own peer (trusted peer) core.autoJoin
    let s := s.prune
    match (core.putGroup gid s).save faults s with
    | (core, .error _) => (core, .failed, kick)
    | (core, .ok ()) =>
      let kind := if joinedNow then .joined
        else if s.status.isPending && !was.isPending then .invited
        else .changed
      (core.pushEvent gid kind none, .stored, kick)

/-- The chain that an invitation brings: from the first descriptor that can be a
root and that the others follow. -/
def inviteChain : List Descriptor → Option Chain
  | [] => none
  | d :: rest =>
    match Chain.fromRoot P d with
    | .error _ => inviteChain rest
    | .ok chain =>
      match chain.pushAll P rest with
      | (chain, .ok _) => some chain
      | (chain, .error _) => if rest.isEmpty then some chain else inviteChain rest

/-- Descriptors of a group we do not know: only a trusted contact who is an
admin and signed the newest one may invite us. -/
def invite (ds : List Descriptor) (latest : Descriptor) (now : UInt64) (trusted : B32 → Bool) : Handled :=
  if !trusted peer ∨ latest.signer ≠ peer then (core, .notAllowed, [])
  else if !latest.isMember core.own ∨ !latest.isAdmin peer then (core, .notAllowed, [])
  else if core.groups.size ≥ maxGroups ∨
      (core.groups.values.filter (·.status.isPending)).length ≥ maxInvites then
    (core, .busy, [])
  else match inviteChain P ds with
  | none => (core, .notAllowed, [])
  | some chain =>
    if chain.epoch ≠ latest.epoch then (core, .notAllowed, [])
    else
      let s := { GroupState.new chain (.pending peer) with lastMs := now }
      let s := (s.confirm peer).1
      let (s, kick) := if core.autoJoin then s.becomeMember core.own peer else (s, [])
      match core.save faults s with
      | (core, .error _) => (core, .failed, kick)
      | (core, .ok ()) =>
        let kind := if core.autoJoin then .joined else .invited
        ((core.putGroup gid s).pushEvent gid kind none, .stored, kick)

def handleDescs (ds : List Descriptor) (now : UInt64) (trusted : B32 → Bool) : Handled :=
  match ds.head?, ds.getLast? with
  | some first, some latest =>
    if ds.any (·.gid != first.gid) || !ascending ds then (core, .badRequest, [])
    else match core.groups.get? first.gid with
    | some s =>
      if !s.chain.everMember peer ∧ latest.signer ≠ peer then (core, .notAllowed, [])
      else core.updateGroup P faults peer first.gid s ds trusted
    | none => core.invite P faults peer first.gid ds latest now trusted
  | _, _ => (core, .badRequest, [])

def handle (plain : Bytes) (now : UInt64) (trusted : B32 → Bool) : Handled :=
  match Record.decode P plain with
  | .error (.unknownKind _) => (core, .unsupported, [])
  | .error .malformed => (core, .badRequest, [])
  | .ok (.text t) => core.handleText faults peer t now trusted
  | .ok (.descs ds) => core.handleDescs P faults peer ds now trusted
  | .ok (.histOffer o) => core.handleHistOffer faults peer o now
  | .ok (.sync gid _) => core.handleSync faults peer gid

/-! ## History -/

/-- The offers of one hand-over round, newest message first. -/
def handoverOffers (store : GroupStore) (gid : B16) (dest : B32) : List Bytes :=
  let shareable (m : GroupMsg) : Bool := m.sender != dest && m.sharedBy.isNone && !m.text.isEmpty
  ((store.page gid none maxHistPerHandover).reverse.filter shareable).filterMap (fun m =>
    let offer : HistOffer := ⟨gid, m.epoch, m.sender, m.counter, m.id, m.sentMs, m.text⟩
    offer.encode.toOption)

def numberJobs : UInt64 → List Bytes → List HistJob
  | _, [] => []
  | seq, plain :: rest => ⟨seq, plain⟩ :: numberJobs (seq + 1) rest

/-- Offer recent history to a current member, at most once per epoch. -/
def handover (dest : B32) : GroupCore × Except GroupError Nat :=
  if dest = core.own then (core, .error .notMember)
  else match core.liveGroup gid with
  | .error e => (core, .error e)
  | .ok s =>
    let latest := s.chain.latest
    if !latest.isMember dest then (core, .error .notMember)
    else match s.markHandover dest latest.epoch with
    | (_, false) => (core, .ok 0)
    | (s, true) =>
      match (core.putGroup gid s).save faults s with
      | (core, .error e) =>
        -- The marker is undone so that a later retry is still allowed.
        let undone := s.handed.filter (fun h => !(h.dest == dest && h.epoch == latest.epoch))
        (core.putGroup gid { s with handed := undone }, .error e)
      | (core, .ok ()) =>
        let offers := handoverOffers core.store gid dest
        if offers.isEmpty then (core, .ok 0)
        else
          let queue := (core.hist.get? dest).getD []
          ({ core with
              hist := core.hist.insert dest (queue ++ numberJobs core.histSeq offers)
              histSeq := core.histSeq + UInt64.ofNat offers.length },
            .ok offers.length)

def sweepGroup (cutoff : UInt64) (core : GroupCore) (gid : B16) : GroupCore :=
  match core.store.retain faults gid (cutoff ≤ ·.atMs) with
  | (store, .error _) => { core with store := store }
  | (store, .ok kept) =>
    let core := { core with store := store }
    match core.groups.get? gid with
    | none => core
    | some s => core.putGroup gid { s with count := kept }

def sweepRetention (cutoff : UInt64) : GroupCore := core.groups.keys.foldl (sweepGroup faults cutoff) core

def flushAll : GroupCore := core.groups.values.foldl (fun core s => (core.save faults s).1) core

/-! ## Runs -/

/-- Everything that can happen to an engine.  `restart` ends the process and
starts a new one on the same files. -/
inductive Op where
  | create (gid : B16) (name : String) (members : List (B32 × String)) (now : UInt64)
  | add (gid : B16) (new : List (B32 × String × Bool))
  | remove (gid : B16) (who : B32)
  | leave (gid : B16)
  | acceptInvite (gid : B16)
  | forget (gid : B16)
  | send (gid id : B16) (text : String) (now : UInt64)
  | settle (peer : B32) (work : Work) (delivered : Bool)
  | handle (peer : B32) (plain : Bytes) (now : UInt64) (trusted : B32 → Bool)
  | handover (gid : B16) (dest : B32)
  | sweepRetention (cutoff : UInt64)
  | setAutoJoin (on : Bool)
  | flushAll
  | restart (maxMessageBytes : Nat)

def step : Op → GroupCore
  | .create gid name members now => (core.create P faults gid name members now).1
  | .add gid new => (core.add P faults gid new).1
  | .remove gid who => (core.remove P faults gid who).1
  | .leave gid => (core.leave P faults gid).1
  | .acceptInvite gid => (core.acceptInvite faults gid).1
  | .forget gid => (core.forget faults gid).1
  | .send gid id text now => (core.send faults gid id text now).1
  | .settle peer work delivered => core.settle faults peer work delivered
  | .handle peer plain now trusted => (core.handle P faults peer plain now trusted).1
  | .handover gid dest => (core.handover faults gid dest).1
  | .sweepRetention cutoff => core.sweepRetention faults cutoff
  | .setAutoJoin on => { core with autoJoin := on }
  | .flushAll => core.flushAll faults
  | .restart maxMessageBytes => new P core.key maxMessageBytes core.store.reopen

/-- The engine after a run of operations, each with what the files answer. -/
def run (ops : List (Faults × Op)) : GroupCore := ops.foldl (fun core op => core.step P op.1 op.2) core

end GroupCore

end Miasma.Chat.Group
