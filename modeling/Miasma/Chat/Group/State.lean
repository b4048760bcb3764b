import Miasma.Chat.Group.Record
import Miasma.Data.Applied
import Miasma.Data.SortedMap

namespace Miasma.Chat.Group

open Data Reader

/-! What a device remembers about one group (`chat/group/state.rs`), and its
encoding on disk. -/

def stateVersion : UInt8 := 3
def stateVersionV2 : UInt8 := 2
def stateVersionV1 : UInt8 := 1
def maxHanded : Nat := 256
def maxPending : Nat := 100
def maxLedger : Nat := 200
def maxCtrl : Nat := 256
def maxAbove : Nat := 256
def maxVectors : Nat := 256

inductive Status where
  | pending (invitedBy : B32)
  | joined
  | left
  | removed
deriving DecidableEq

def Status.isPending : Status → Bool
  | .pending _ => true
  | _ => false

/-- Which counters of one sender were applied. -/
abbrev SenderVec := Applied maxAbove

structure PendingMsg where
  id : B16
  counter : UInt64
  epoch : UInt32
  sentMs : UInt64
  text : String
  dest : List B32

structure LedgerEntry where
  id : B16
  total : UInt8
  delivered : UInt8
  failed : UInt8
deriving DecidableEq

inductive CtrlKind where
  | descs
  | sync
deriving DecidableEq

structure Ctrl where
  dest : B32
  kind : CtrlKind
  arg : UInt32

structure HandOver where
  dest : B32
  epoch : UInt32

structure GroupState where
  chain : Chain
  status : Status
  myCounter : UInt64
  nextOrd : UInt64
  count : UInt64
  lastMs : UInt64
  vectors : SortedMap B32 SenderVec
  pending : List PendingMsg
  ledger : List LedgerEntry
  ctrl : List Ctrl
  addedBy : Option B32
  confirmed : List B32
  handed : List HandOver

def updateFirst (found : α → Bool) (change : α → α) : List α → List α
  | [] => []
  | first :: rest => if found first then change first :: rest else first :: updateFirst found change rest

/-- `u8::saturating_add`. -/
def saturatingAdd (value more : UInt8) : UInt8 := if value.toNat + more.toNat > 255 then 255 else value + more

namespace GroupState

def new (chain : Chain) (status : Status) : GroupState where
  chain := chain
  status := status
  myCounter := 0
  nextOrd := 0
  count := 0
  lastMs := 0
  vectors := SortedMap.empty
  pending := []
  ledger := []
  ctrl := []
  addedBy := none
  confirmed := []
  handed := []

variable (s : GroupState)

def gid : B16 := s.chain.gid

/-- Note that `peer` is in the group.  True when this was news. -/
def confirm (peer : B32) : GroupState × Bool :=
  if s.confirmed.contains peer || s.confirmed.length ≥ maxMembers then (s, false)
  else ({ s with confirmed := s.confirmed ++ [peer] }, true)

/-- True when a hand-over round to `dest` at `epoch` is allowed now. -/
def markHandover (dest : B32) (epoch : UInt32) : GroupState × Bool :=
  if s.handed.any (fun h => h.dest == dest && h.epoch == epoch) then (s, false)
  else
    let kept := if s.handed.length ≥ maxHanded then s.handed.tail else s.handed
    ({ s with handed := kept ++ [⟨dest, epoch⟩] }, true)

def pushLedger (entry : LedgerEntry) : GroupState :=
  let kept := if s.ledger.length ≥ maxLedger then s.ledger.tail else s.ledger
  { s with ledger := kept ++ [entry] }

/-- `ledger_mut`: the newest entry of a message, changed in place. -/
def changeLedger (id : B16) (change : LedgerEntry → LedgerEntry) : GroupState :=
  { s with ledger := (updateFirst (·.id == id) change s.ledger.reverse).reverse }

def owe (dest : B32) (kind : CtrlKind) (arg : UInt32) : GroupState × Bool :=
  let same (c : Ctrl) : Bool := c.dest == dest && c.kind == kind
  if s.ctrl.any same then
    if kind = .sync then
      ({ s with ctrl := updateFirst same (fun c => { c with arg := arg }) s.ctrl }, false)
    else (s, false)
  else if s.ctrl.length ≥ maxCtrl then (s, false)
  else ({ s with ctrl := s.ctrl ++ [⟨dest, kind, arg⟩] }, true)

end GroupState

def Status.encode : Status → Bytes
  | .pending invitedBy => putU8 0 ++ invitedBy.toList
  | .joined => putU8 1
  | .left => putU8 2
  | .removed => putU8 3

def Status.read : Reader Status := do
  let code ← u8
  if code = 0 then
    let invitedBy ← arr 32
    return .pending invitedBy
  else if code = 1 then return .joined
  else if code = 2 then return .left
  else if code = 3 then return .removed
  else failure

def encodeVector (entry : B32 × SenderVec) : Bytes :=
  entry.1.toList ++ putU64 entry.2.floor ++ putList16 putU64 entry.2.above

def readVector : Reader (B32 × SenderVec) := do
  let id ← arr 32
  let floor ← u64
  let above ← list16 maxAbove u64
  let vector ← lift (Applied.ofParts? maxAbove floor above)
  return (id, vector)

def PendingMsg.encode (p : PendingMsg) : Bytes :=
  p.id.toList ++ putU64 p.counter ++ putU32 p.epoch ++ putU64 p.sentMs ++ putText16 p.text ++
    putList8 ByteVec.toList p.dest

def PendingMsg.read : Reader PendingMsg := do
  let id ← arr 16
  let counter ← u64
  let epoch ← u32
  let sentMs ← u64
  let text ← text16 1 maxTextBytes
  let dest ← list8 0 maxMembers (arr 32)
  return { id, counter, epoch, sentMs, text, dest }

def LedgerEntry.encode (e : LedgerEntry) : Bytes :=
  e.id.toList ++ putU8 e.total ++ putU8 e.delivered ++ putU8 e.failed

def LedgerEntry.read : Reader LedgerEntry := do
  let id ← arr 16
  let total ← u8
  let delivered ← u8
  let failed ← u8
  return { id, total, delivered, failed }

def CtrlKind.code : CtrlKind → UInt8
  | .descs => 1
  | .sync => 2

def CtrlKind.fromCode (code : UInt8) : Option CtrlKind :=
  if code = 1 then some .descs else if code = 2 then some .sync else none

def Ctrl.encode (c : Ctrl) : Bytes := c.dest.toList ++ putU8 c.kind.code ++ putU32 c.arg

def Ctrl.read : Reader Ctrl := do
  let dest ← arr 32
  let code ← u8
  let kind ← lift (CtrlKind.fromCode code)
  let arg ← u32
  return { dest, kind, arg }

def encodeAddedBy : Option B32 → Bytes
  | some id => putU8 1 ++ id.toList
  | none => putU8 0

def readAddedBy : Reader (Option B32) := do
  let code ← u8
  if code = 0 then return none
  else if code = 1 then
    let id ← arr 32
    return some id
  else failure

def HandOver.encode (h : HandOver) : Bytes := h.dest.toList ++ putU32 h.epoch

def HandOver.read : Reader HandOver := do
  let dest ← arr 32
  let epoch ← u32
  return { dest, epoch }

namespace GroupState

def encode (s : GroupState) : Bytes :=
  putU8 stateVersion ++ s.status.encode ++ putU64 s.myCounter ++ putU64 s.nextOrd ++
    putU64 s.count ++ putU64 s.lastMs ++ putList8 Descriptor.encodeItem s.chain.items ++
    putList16 encodeVector s.vectors.entries ++ putList16 PendingMsg.encode s.pending ++
    putList16 LedgerEntry.encode s.ledger ++ putList16 Ctrl.encode s.ctrl ++
    encodeAddedBy s.addedBy ++ putList8 ByteVec.toList s.confirmed ++
    putList16 HandOver.encode s.handed

/-- Documents of the older versions end before the newer fields. -/
def readSince (version first : UInt8) (reader : Reader α) (absent : α) : Reader α :=
  if version ≥ first then reader else pure absent

def read (P : Primitives) : Reader GroupState := do
  let version ← u8
  check (version = stateVersion ∨ version = stateVersionV2 ∨ version = stateVersionV1)
  let status ← Status.read
  let myCounter ← u64
  let nextOrd ← u64
  let count ← u64
  let lastMs ← u64
  let items ← list8 1 maxChain (Descriptor.readItem P)
  let chain ← lift (Chain.fromItems P items).toOption
  let vectors ← list16 maxVectors readVector
  let pending ← list16 maxPending PendingMsg.read
  let ledger ← list16 maxLedger LedgerEntry.read
  let ctrl ← list16 maxCtrl Ctrl.read
  let addedBy ← readSince version 2 readAddedBy none
  let confirmed ← readSince version 2 (list8 0 maxMembers (arr 32)) []
  let handed ← readSince version 3 (list16 maxHanded HandOver.read) []
  return { chain, status, myCounter, nextOrd, count, lastMs, vectors := SortedMap.ofList vectors,
           pending, ledger, ctrl, addedBy, confirmed, handed }

def decode (P : Primitives) (bytes : Bytes) : Option GroupState := (read P).complete bytes

end GroupState

end Miasma.Chat.Group
