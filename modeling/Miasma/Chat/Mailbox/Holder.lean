import Miasma.Chat.Crypto
import Miasma.Chat.Mailbox.Client
import Miasma.Data.SortedMap
import Mathlib.Data.List.Sort

namespace Miasma.Chat.Mailbox

open Data

/-! The custody store (`chat/mailbox/holder.rs`).  The hash map of the items is the list of its
bindings, oldest first; nothing depends on its order. -/

def hardMaxTotalBytes : Nat := 4 * 1024 * 1024
def hardMaxItems : Nat := 1024
def hardMaxTtlMs : UInt64 := 30 * 86400000
def maxList : Nat := 64
def maxFrameBody : Nat := 1 + maxHeaderBytes + 4 + maxCiphertext
/-- Largest item: a sealed envelope and the id of its sender in front. -/
def maxItemBytes : Nat := maxFrameBody + 32
def snapshotVersion : UInt8 := 1

structure CustodyLimits where
  enabled : Bool
  maxItemBytes : Nat
  maxTotalBytes : Nat
  maxItems : Nat
  maxItemsPerDepositor : Nat
  maxBytesPerDepositor : Nat
  ttlMs : UInt64

namespace CustodyLimits

def default : CustodyLimits := ⟨false, Mailbox.maxItemBytes, 2 * 1024 * 1024, 256, 64, 512 * 1024, 14 * 86400000⟩

def clamped (limits : CustodyLimits) : CustodyLimits :=
  { limits with
    maxItemBytes := min limits.maxItemBytes Mailbox.maxItemBytes
    maxTotalBytes := min limits.maxTotalBytes hardMaxTotalBytes
    maxItems := min limits.maxItems hardMaxItems
    ttlMs := min limits.ttlMs hardMaxTtlMs }

end CustodyLimits

structure Held where
  depositor : B32
  blob : Bytes
  expiresMs : UInt64
  order : Nat

structure Inner where
  items : List ((RecipientTag × ItemId) × Held)
  bytes : Nat
  /-- Items and bytes of each depositor. -/
  perDepositor : SortedMap B32 (Nat × Nat)
  nextOrder : Nat

namespace Inner

def empty : Inner := ⟨[], 0, SortedMap.empty, 0⟩

variable (inner : Inner) (key : RecipientTag × ItemId)

def find : Option Held := (inner.items.find? (·.1 = key)).map Prod.snd

def used (depositor : B32) : Nat × Nat := (inner.perDepositor.get? depositor).getD (0, 0)

def remove : Inner × Bool := match inner.find key with
  | none => (inner, false)
  | some h =>
    let perDepositor := match inner.perDepositor.get? h.depositor with
      | none => inner.perDepositor
      | some (n, b) =>
        if n - 1 = 0 then inner.perDepositor.erase h.depositor
        else inner.perDepositor.insert h.depositor (n - 1, b - h.blob.length)
    ({ inner with
      items := inner.items.filter (·.1 ≠ key)
      bytes := inner.bytes - h.blob.length
      perDepositor := perDepositor }, true)

def removeWhere (gone : Held → Bool) : Inner × Nat :=
  let keys := (inner.items.filter (gone ·.2)).map Prod.fst
  (keys.foldl (fun inner key => (inner.remove key).1) inner, keys.length)

def sweep (now : UInt64) : Inner × Nat := inner.removeWhere (·.expiresMs ≤ now)

/-- `entry` is counted and put into the map; what the map held under the key is
replaced. -/
def add (depositor : B32) (blob : Bytes) (expiresMs : UInt64) : Inner :=
  let (n, b) := inner.used depositor
  { items := inner.items.filter (·.1 ≠ key) ++ [(key, ⟨depositor, blob, expiresMs, inner.nextOrder⟩)]
    bytes := inner.bytes + blob.length
    perDepositor := inner.perDepositor.insert depositor (n + 1, b + blob.length)
    nextOrder := inner.nextOrder + 1 }

def overBudget (limits : CustodyLimits) (depositor : B32) (length : Nat) : Bool :=
  limits.maxItemsPerDepositor < (inner.used depositor).1 + 1 ||
    limits.maxBytesPerDepositor < (inner.used depositor).2 + length

def isFull (limits : CustodyLimits) (length : Nat) : Bool :=
  limits.maxItems < inner.items.length + 1 || limits.maxTotalBytes < inner.bytes + length

end Inner

structure MemoryCustody where
  limits : CustodyLimits
  trusted : List B32
  inner : Inner

/-! ## Snapshots -/

structure SnapshotItem where
  tag : RecipientTag
  item : ItemId
  depositor : B32
  expiresMs : UInt64
  blob : Bytes
deriving DecidableEq

namespace SnapshotItem

def key (record : SnapshotItem) : RecipientTag × ItemId := (record.tag, record.item)

def encode (record : SnapshotItem) : Bytes :=
  record.tag.bytes.toList ++ (record.item.bytes.toList ++ (record.depositor.toList ++
    (putU64 record.expiresMs ++ (putU32 (UInt32.ofNat record.blob.length) ++ record.blob))))

def read : Reader SnapshotItem := do
  let tag ← Reader.arr 16
  let item ← Reader.arr 16
  let depositor ← Reader.arr 32
  let expiresMs ← Reader.u64
  let length ← Reader.u32
  let blob ← Reader.bytes length.toNat
  return ⟨⟨tag⟩, ⟨item⟩, depositor, expiresMs, blob⟩

def ofEntry (entry : (RecipientTag × ItemId) × Held) : SnapshotItem :=
  ⟨entry.1.1, entry.1.2, entry.2.depositor, entry.2.expiresMs, entry.2.blob⟩

/-- At most `count` records; the first that is cut short ends the list. -/
def readEach : Nat → Bytes → List SnapshotItem
  | 0, _ => []
  | count + 1, bytes =>
    match read bytes with
    | none => []
    | some (record, rest) => record :: readEach count rest

def readAll (bytes : Bytes) : List SnapshotItem := match Reader.u8 bytes with
  | none => []
  | some (version, rest) =>
    if version ≠ snapshotVersion then []
    else match Reader.u32 rest with
      | none => []
      | some (count, rest) => readEach count.toNat rest

/-- Not expired, and of an allowed size. -/
def keeps (limits : CustodyLimits) (now : UInt64) (record : SnapshotItem) : Bool :=
  now < record.expiresMs && !record.blob.isEmpty && record.blob.length ≤ limits.maxItemBytes

end SnapshotItem

namespace Inner

def contents (inner : Inner) : List SnapshotItem :=
  (inner.items.insertionSort (·.2.order ≤ ·.2.order)).map SnapshotItem.ofEntry

def readmit (limits : CustodyLimits) (now : UInt64) (inner : Inner) (record : SnapshotItem) : Inner :=
  if !record.keeps limits now then inner
  else if inner.overBudget limits record.depositor record.blob.length ||
      inner.isFull limits record.blob.length then inner
  else inner.add record.key record.depositor record.blob record.expiresMs

end Inner

namespace MemoryCustody

def new (limits : CustodyLimits) : MemoryCustody := ⟨limits.clamped, [], Inner.empty⟩

variable (s : MemoryCustody)

def snapshot : Bytes := putU8 snapshotVersion ++ (putU32 (UInt32.ofNat s.inner.contents.length) ++
    s.inner.contents.flatMap SnapshotItem.encode)

def restore (bytes : Bytes) (now : UInt64) : MemoryCustody :=
  { s with inner := (SnapshotItem.readAll bytes).foldl (Inner.readmit s.limits now) Inner.empty }

/-! ## The verbs -/

variable (who : B32)

def check : Except CustodyError Unit := if !s.limits.enabled then .error .disabled
  else if who ∉ s.trusted then .error .notTrusted
  else .ok ()

def trust (id : B32) : MemoryCustody := { s with trusted := id :: s.trusted.filter (· ≠ id) }

def revoke (id : B32) : MemoryCustody :=
  { s with
    trusted := s.trusted.filter (· ≠ id)
    inner := (s.inner.removeWhere (·.depositor = id)).1 }

def sweep (now : UInt64) : MemoryCustody × Nat :=
  let (inner, count) := s.inner.sweep now
  ({ s with inner := inner }, count)

/-- `u64::saturating_add`. -/
def expiry (now ttlMs : UInt64) : UInt64 :=
  if now.toNat + ttlMs.toNat < 2 ^ 64 then now + ttlMs else UInt64.ofNat (2 ^ 64 - 1)

variable (tag : RecipientTag)

def deposit (item : ItemId) (blob : Bytes) (now : UInt64) : MemoryCustody × Except CustodyError DepositOutcome :=
  match s.check who with
  | .error e => (s, .error e)
  | .ok () =>
    if blob = [] ∨ s.limits.maxItemBytes < blob.length then (s, .error .tooBig)
    else
      let s := (s.sweep now).1
      if (s.inner.find (tag, item)).isSome then (s, .ok .duplicate)
      else if s.inner.overBudget s.limits who blob.length then (s, .error .depositorBudget)
      else if s.inner.isFull s.limits blob.length then (s, .error .full)
      else
        let inner := s.inner.add (tag, item) who blob (expiry now s.limits.ttlMs)
        ({ s with inner := inner }, .ok .stored)

def list (now : UInt64) : MemoryCustody × Except CustodyError (List ItemId) := match s.check who with
  | .error e => (s, .error e)
  | .ok () =>
    let s := (s.sweep now).1
    let waiting := (s.inner.items.filter (·.1.1 = tag)).map (fun entry => (entry.2.order, entry.1.2))
    let sorted := waiting.insertionSort (fun first second =>
      first.1 < second.1 ∨ first.1 = second.1 ∧ first.2.bytes ≤ second.2.bytes)
    (s, .ok ((sorted.take maxList).map Prod.snd))

def fetch (item : ItemId) (now : UInt64) : MemoryCustody × Except CustodyError (Option Bytes) :=
  match s.check who with
  | .error e => (s, .error e)
  | .ok () =>
    let s := (s.sweep now).1
    (s, .ok ((s.inner.find (tag, item)).map Held.blob))

def delete (item : ItemId) : MemoryCustody × Except CustodyError Bool := match s.check who with
  | .error e => (s, .error e)
  | .ok () =>
    let (inner, removed) := s.inner.remove (tag, item)
    ({ s with inner := inner }, .ok removed)

inductive Event where
  | trust (id : B32)
  | deposit (who : B32) (tag : RecipientTag) (item : ItemId) (blob : Bytes)
      (now : UInt64)
  | list (who : B32) (tag : RecipientTag) (now : UInt64)
  | fetch (who : B32) (tag : RecipientTag) (item : ItemId) (now : UInt64)
  | delete (who : B32) (tag : RecipientTag) (item : ItemId)
  | sweep (now : UInt64)
  | revoke (id : B32)
  | restore (bytes : Bytes) (now : UInt64)

def step : Event → MemoryCustody
  | .trust id => s.trust id
  | .deposit who tag item blob now => (s.deposit who tag item blob now).1
  | .list who tag now => (s.list who tag now).1
  | .fetch who tag item now => (s.fetch who tag item now).1
  | .delete who tag item => (s.delete who tag item).1
  | .sweep now => (s.sweep now).1
  | .revoke id => s.revoke id
  | .restore bytes now => s.restore bytes now

end MemoryCustody

end Miasma.Chat.Mailbox
