import Miasma.Data.Bytes
import Miasma.Data.SortedMap

namespace Miasma.Chat

open Data

/-! The record, kept outside the data folder, of which version of a contact's
session file was written last (`chat/anchor.rs`). -/

abbrev Fingerprint := B16

/-- The fingerprint of a session file that does not exist. -/
def noFile : Fingerprint := ByteVec.fill 16 0

structure Record where
  /-- The session file that was on disk before the last write began. -/
  cur : Fingerprint
  /-- The session file that the last write put (or was about to put) there. -/
  next : Fingerprint
  sendSeqHwm : UInt64

inductive Check where
  | fine
  | behind (sendSeqFloor : UInt64)

structure Seen where
  onDisk : Fingerprint
  seqHwm : UInt64

structure Anchor where
  /-- The record files, by contact; `none` keeps only the marks in memory. -/
  dir : Option (SortedMap B32 Record)
  /-- Whether a record can be written at the moment. -/
  writable : Bool
  /-- Marks of this run. -/
  seen : SortedMap B32 Seen
  /-- Set after a record could not be written. -/
  off : Bool

namespace Anchor

variable (a : Anchor) (peer : B32)

def read : Option Record := a.dir.bind (·.get? peer)

def write (rec : Record) : Anchor × Bool := match a.dir with
  | none => (a, false)
  | some dir =>
    if a.writable then ({ a with dir := some (dir.insert peer rec) }, true) else (a, false)

def switchOff : Anchor := { a with off := true, dir := a.dir.map (·.erase peer) }

def mark (seen : Seen) : Anchor := { a with seen := a.seen.insert peer seen }

/-- Judge the session file just loaded for `peer`: `disk` is its fingerprint and
`sendSeq` the counter it holds. -/
def check (disk : Fingerprint) (sendSeq : UInt64) : Anchor × Check := if a.off then (a, .fine)
  else
    let record := a.read peer
    match a.seen.get? peer with
    -- Known from earlier in this run: the file must be the one written (or
    -- found) last.
    | some s =>
      if s.onDisk = disk then (a, .fine)
      else
        let floor := max s.seqHwm (record.elim 0 Record.sendSeqHwm)
        (a.mark peer ⟨disk, floor⟩, .behind floor)
    | none =>
      match record with
      | some rec =>
        if disk = rec.cur ∨ disk = rec.next then
          let hwm := max rec.sendSeqHwm sendSeq
          let a := a.mark peer ⟨disk, hwm⟩
          -- A write was cut short: settle the record on what is there.
          if rec.cur ≠ rec.next ∨ disk ≠ rec.next then
            ((a.write peer ⟨disk, disk, hwm⟩).1, .fine)
          else (a, .fine)
        else (a.mark peer ⟨disk, rec.sendSeqHwm⟩, .behind rec.sendSeqHwm)
      | none =>
        let a := a.mark peer ⟨disk, sendSeq⟩
        if disk ≠ noFile then ((a.write peer ⟨disk, disk, sendSeq⟩).1, .fine)
        else (a, .fine)

/-- Before the session file of `peer` is replaced by the one with fingerprint
`next`. -/
def beforeWrite (next : Fingerprint) (sendSeq : UInt64) : Anchor × Bool := if a.off then (a, false)
  else
    let entry : Record := match a.seen.get? peer with
      | none => ⟨noFile, next, sendSeq⟩
      | some s => ⟨s.onDisk, next, max s.seqHwm sendSeq⟩
    if a.dir.isSome then
      let (a, written) := a.write peer entry
      if written then (a, true) else (a.switchOff peer, false)
    else (a, true)

/-- After the session file with fingerprint `next` was put in place. -/
def afterWrite (next : Fingerprint) (sendSeq : UInt64) : Anchor :=
  let hwm := match a.seen.get? peer with
    | none => sendSeq
    | some s => max s.seqHwm sendSeq
  let a := a.mark peer ⟨next, hwm⟩
  if !a.off && a.dir.isSome then
    let (a, written) := a.write peer ⟨next, next, hwm⟩
    -- The earlier record still accepts the file just written.
    if written then a else a.switchOff peer
  else a

def restart : Anchor := { a with seen := SortedMap.empty, off := false }

/-! What the operations do to the entries of one contact while the record folder
is in use. -/

structure Active (a : Anchor) : Prop where
  on : a.off = false
  writable : a.writable = true
  kept : a.dir.isSome

variable {a : Anchor}

theorem read_write (active : a.Active) {peer other : B32} :
    (a.write peer entry).1.read other = if other = peer then some entry else a.read other := by
  obtain ⟨dir, folder⟩ := Option.isSome_iff_exists.mp active.kept
  simp only [write, folder, active.writable, if_true, read, Option.bind_some, SortedMap.get?_insert]

theorem write_frame (active : a.Active) (peer : B32) (entry : Record) :
    (a.write peer entry).1.Active ∧ (a.write peer entry).1.seen = a.seen ∧ (a.write peer entry).2 = true := by
  obtain ⟨dir, folder⟩ := Option.isSome_iff_exists.mp active.kept
  simp only [write, folder, active.writable, if_true, and_self, and_true]
  exact ⟨active.on, rfl, rfl⟩

theorem mark_active (active : a.Active) (peer : B32) (seen : Seen) :
    (a.mark peer seen).Active := ⟨active.on, active.writable, active.kept⟩

@[simp] theorem read_mark {a : Anchor} {peer other : B32} {seen : Seen} :
    (a.mark peer seen).read other = a.read other := rfl

theorem seen_mark {a : Anchor} {peer other : B32} {seen : Seen} :
    (a.mark peer seen).seen.get? other = if other = peer then some seen else a.seen.get? other :=
  SortedMap.get?_insert a.seen

def checkEntry (record : Option Record) (seen : Option Seen) (disk : Fingerprint)
    (sendSeq : UInt64) : Option Record × Seen × Check :=
  match seen, record with
  | some s, record =>
    if s.onDisk = disk then (record, s, .fine)
    else
      let floor := max s.seqHwm (record.elim 0 Record.sendSeqHwm)
      (record, ⟨disk, floor⟩, .behind floor)
  | none, some entry =>
    let hwm := max entry.sendSeqHwm sendSeq
    if disk = entry.cur ∨ disk = entry.next then
      (if entry.cur ≠ entry.next ∨ disk ≠ entry.next then some ⟨disk, disk, hwm⟩ else some entry, ⟨disk, hwm⟩, .fine)
    else (some entry, ⟨disk, entry.sendSeqHwm⟩, .behind entry.sendSeqHwm)
  | none, none =>
    (if disk ≠ noFile then some ⟨disk, disk, sendSeq⟩ else none, ⟨disk, sendSeq⟩, .fine)

/-- Contacts do not disturb each other. -/
structure Touches (a next : Anchor) (peer : B32) : Prop where
  active : next.Active
  read_other : ∀ other, other ≠ peer → next.read other = a.read other
  seen_other : ∀ other, other ≠ peer → next.seen.get? other = a.seen.get? other

theorem check_eq (active : a.Active) {peer : B32} :
    a.Touches (a.check peer disk sendSeq).1 peer ∧ checkEntry (a.read peer) (a.seen.get? peer) disk sendSeq =
        ((a.check peer disk sendSeq).1.read peer, ((a.check peer disk sendSeq).1.seen.get? peer).getD
          ⟨disk, sendSeq⟩, (a.check peer disk sendSeq).2) ∧
      ((a.check peer disk sendSeq).1.seen.get? peer).isSome := by
  have touch_mark : ∀ seen, a.Touches (a.mark peer seen) peer := fun seen =>
    ⟨mark_active active peer seen, fun other _ => rfl, fun other different => by rw [seen_mark, if_neg different]⟩
  have touch_write : ∀ seen entry, a.Touches ((a.mark peer seen).write peer entry).1 peer := by
    intro seen entry
    have marked := mark_active active peer seen
    obtain ⟨written, sameSeen, -⟩ := write_frame marked peer entry
    exact ⟨written, fun other different => by rw [read_write marked, if_neg different, read_mark],
      fun other different => by rw [sameSeen, seen_mark, if_neg different]⟩
  unfold check
  rw [active.on]
  simp only [Bool.false_eq_true, if_false]
  cases marked : a.seen.get? peer with
  | some s =>
    simp only [checkEntry]
    by_cases same : s.onDisk = disk
    · rw [if_pos same, if_pos same]
      refine ⟨⟨active, fun _ _ => rfl, fun _ _ => rfl⟩, ?_, ?_⟩
      · rw [marked]
        rfl
      · rw [marked]
        rfl
    · rw [if_neg same, if_neg same]
      refine ⟨touch_mark _, ?_, ?_⟩ <;> simp [seen_mark]
  | none =>
    cases known : a.read peer with
    | some entry =>
      simp only [checkEntry]
      by_cases match_ : disk = entry.cur ∨ disk = entry.next
      · rw [if_pos match_, if_pos match_]
        by_cases cut : entry.cur ≠ entry.next ∨ disk ≠ entry.next
        · rw [if_pos cut, if_pos cut]
          obtain ⟨-, sameSeen, -⟩ := write_frame (mark_active active peer ⟨disk, max entry.sendSeqHwm sendSeq⟩) peer
            ⟨disk, disk, max entry.sendSeqHwm sendSeq⟩
          refine ⟨touch_write _ _, ?_, ?_⟩
          · simp [sameSeen, seen_mark, read_write (mark_active active peer _)]
          · simp [sameSeen, seen_mark]
        · rw [if_neg cut, if_neg cut]
          refine ⟨touch_mark _, ?_, ?_⟩ <;> simp [seen_mark, known]
      · rw [if_neg match_, if_neg match_]
        refine ⟨touch_mark _, ?_, ?_⟩ <;> simp [seen_mark, known]
    | none =>
      simp only [checkEntry]
      by_cases there : disk ≠ noFile
      · rw [if_pos there, if_pos there]
        obtain ⟨-, sameSeen, -⟩ := write_frame (mark_active active peer ⟨disk, sendSeq⟩) peer ⟨disk, disk, sendSeq⟩
        refine ⟨touch_write _ _, ?_, ?_⟩
        · simp [sameSeen, seen_mark, read_write (mark_active active peer _)]
        · simp [sameSeen, seen_mark]
      · rw [if_neg there, if_neg there]
        refine ⟨touch_mark _, ?_, ?_⟩ <;> simp [seen_mark, known]

section

variable (active : a.Active) {peer : B32} {s : Seen} (marked : a.seen.get? peer = some s)
    (next : Fingerprint) (sendSeq : UInt64)
include active marked

theorem beforeWrite_eq :
    a.Touches (a.beforeWrite peer next sendSeq).1 peer ∧ (a.beforeWrite peer next sendSeq).1.read peer =
        some ⟨s.onDisk, next, max s.seqHwm sendSeq⟩ ∧
      (a.beforeWrite peer next sendSeq).1.seen.get? peer = some s := by
  obtain ⟨written, sameSeen, ok⟩ := write_frame active peer ⟨s.onDisk, next, max s.seqHwm sendSeq⟩
  have result : (a.beforeWrite peer next sendSeq).1 = (a.write peer ⟨s.onDisk, next, max s.seqHwm sendSeq⟩).1 := by
    simp only [beforeWrite, active.on, marked, active.kept, ok, if_true, Bool.false_eq_true, if_false]
  rw [result]
  refine ⟨⟨written, ?_, ?_⟩, ?_, ?_⟩
  · intro other different
    rw [read_write active, if_neg different]
  · intro other _
    rw [sameSeen]
  · rw [read_write active, if_pos rfl]
  · rw [sameSeen, marked]

theorem afterWrite_eq : a.Touches (a.afterWrite peer next sendSeq) peer ∧ (a.afterWrite peer next sendSeq).read peer =
        some ⟨next, next, max s.seqHwm sendSeq⟩ ∧
      (a.afterWrite peer next sendSeq).seen.get? peer = some ⟨next, max s.seqHwm sendSeq⟩ := by
  have moved := mark_active active peer ⟨next, max s.seqHwm sendSeq⟩
  obtain ⟨written, sameSeen, ok⟩ := write_frame moved peer ⟨next, next, max s.seqHwm sendSeq⟩
  have result : a.afterWrite peer next sendSeq = ((a.mark peer ⟨next, max s.seqHwm sendSeq⟩).write peer
        ⟨next, next, max s.seqHwm sendSeq⟩).1 := by
    simp only [afterWrite, marked, moved.on, moved.kept, ok, Bool.not_false, Bool.and_self, if_true]
  rw [result]
  refine ⟨⟨written, ?_, ?_⟩, ?_, ?_⟩
  · intro other different
    rw [read_write moved, if_neg different, read_mark]
  · intro other different
    rw [sameSeen, seen_mark, if_neg different]
  · rw [read_write moved, if_pos rfl]
  · rw [sameSeen, seen_mark, if_pos rfl]

end

end Anchor

end Miasma.Chat
