import Miasma.Data.Crash
import Miasma.Transfer.Manifest

namespace Miasma.Transfer

open Data Dissolution Network

/-! The files of a receive (`transfer/journal.rs` and the file calls of `transfer/receive.rs`).

Calls take effect in program order; a call that fails ends the run, and leaves the files as a
crash at that call does.  A failed write is answered by more than that.  The source ignores that the
partial file cannot be removed; here removing succeeds. -/

structure ShareId where
  mid : B32
  publisher : B32
  isProtected : Bool
deriving DecidableEq

/-- A journal that loads, with what a receive reads and writes of it. -/
structure ReceiveJournal where
  mid : ContentId
  outputPath : String
  dataShards : UInt8
  totalShards : UInt8
  segmentCount : Nat
  totalBytes : UInt64
  manifestHash : Option B32
  nextSegment : Nat
  bytesDone : Nat
  startedAt : UInt64
  updatedAt : UInt64
  lastError : Option String
  shareId : Option ShareId

structure Disk where
  output : Option Bytes
  /-- `<output>.part`. -/
  part : Option Bytes
  journals : ContentId → Option ReceiveJournal

namespace Disk

variable (disk : Disk)

/-- Opening with `create` and without `truncate`. -/
def createPart : Disk := { disk with part := some (disk.part.getD []) }

def removePart : Disk := { disk with part := none }

def setLen (len : Nat) : Disk := { disk with part := disk.part.map (resize · len 0) }

/-- Writing at a position, which may lie inside the file or past its end. -/
def writeAt (position : Nat) (data : Bytes) : Disk :=
  let written (bytes : Bytes) := resize bytes position 0 ++ data ++ bytes.drop (position + data.length)
  { disk with part := disk.part.map written }

def setJournal (mid : ContentId) (journal : Option ReceiveJournal) : Disk :=
  { disk with journals := fun other => if other = mid then journal else disk.journals other }

def rename : Disk := match disk.part with
  | none => disk
  | some bytes => { disk with output := some bytes, part := none }

end Disk

/-! ## What a receive asks of its surroundings

The moments count the questions of one run. -/

structure Surroundings where
  /-- `check_output_target`, the folder and the file name. -/
  outputTarget : Except MiasmaError Unit
  /-- `progress.is_cancelled()`. -/
  cancelled : Nat → Bool
  now : Nat → UInt64
  /-- `PieceSource::fetch_piece`. -/
  fetchPiece : Nat → ContentId → UInt32 → UInt16 → ShardLocation → Except MiasmaError (Option MiasmaShare)
  /-- A write that fails: how many bytes are in the file by then, and the reason. -/
  writeFailure : Nat → Option (Nat × String)
  /-- The text of a task that panicked. -/
  joinError : String

abbrev Engine := Program Disk Nat MiasmaError

namespace Surroundings

variable (W : Surroundings)

def isCancelled : Engine Bool := .recalling W.cancelled (· + 1)

def nowSecs : Engine UInt64 := .recalling W.now (· + 1)

def fetch (mid : ContentId) (seg : UInt32) (slot : UInt16) (holder : ShardLocation) :
    Engine (Except MiasmaError (Option MiasmaShare)) :=
  .recalling (W.fetchPiece · mid seg slot holder) (· + 1)

end Surroundings

def removePart : Engine Unit := .write Disk.removePart

/-- Part of the data may be in the file when the program stops. -/
def append (position : Nat) (data : Bytes) : Engine Unit :=
  .writeThrough (fun disk => (List.range data.length).map fun count =>
    disk.writeAt position (data.take count)) (Disk.writeAt · position data)

def writeSegment (W : Surroundings) (position : Nat) (data : Bytes) : Engine (Except String Unit) := do
  match ← Program.recalling W.writeFailure (· + 1) with
  | none =>
    append position data
    return .ok ()
  | some (count, reason) =>
    append position (data.take count)
    return .error reason

namespace ReceiveJournal

def save (journal : ReceiveJournal) : Engine Unit := .write (Disk.setJournal · journal.mid (some journal))

def remove (mid : ContentId) : Engine Unit := .write (Disk.setJournal · mid none)

end ReceiveJournal

/-- `check_output_target`: the partial file is opened as the receive will, and removed again
if it was not there. -/
def checkOutputTarget (W : Surroundings) : Engine Unit := do
  Program.ofExcept W.outputTarget
  let existed ← Program.reading fun disk => disk.part.isSome
  Program.write Disk.createPart
  if existed then return () else removePart

/-! ## Writing at the end -/

variable {disk : Disk} {bytes : Bytes}

@[simp] theorem resize_length : resize bytes bytes.length 0 = bytes := by
  simp [resize]

theorem part_setLen (there : disk.part = some bytes) (inside : len ≤ bytes.length) :
    (disk.setLen len).part = some (bytes.take len) := by
  simp [Disk.setLen, there, resize, List.take_append_of_le_length inside]

theorem part_writeAt (there : disk.part = some bytes) (data : Bytes) :
    (disk.writeAt bytes.length data).part = some (bytes ++ data) := by
  simp [Disk.writeAt, there]

end Miasma.Transfer
