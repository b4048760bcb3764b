import Miasma.Transfer.Prepare

namespace Miasma.Transfer

open Data Dissolution Network

/-! The receive engine (`transfer/receive.rs`). -/

inductive ReceiveOutcome where
  | complete (bytes : Nat)
  | paused (nextSegment : Nat) (reason : String) (sourceStalled : Bool)
  | cancelled (nextSegment : Nat)

structure PooledPiece where
  share : MiasmaShare
  peer : Bytes

/-- A piece that verified but did not decode: its segment, its slot and its holder. -/
abbrev Suspect := UInt32 × UInt16 × Bytes

def recoveryExtraPieces : Nat := 4
def maxDecodeAttempts : Nat := 16

def pieceIsAcceptable (L : Libraries) (share : MiasmaShare) (mid : ContentId) (seg : UInt32)
    (slot : UInt16) (manifest : Option TransferManifest) : Bool :=
  if share.segmentIndex ≠ seg ∨ share.slotIndex ≠ slot ∨ L.coarseVerify share mid = false then false
  else
    match manifest with
    | some m => (m.expectedPiece seg slot).any (verifyPiece L share mid)
    | none => share.originalLen ≤ maxSegmentSize

/-- A decode failure that other pieces could cure. -/
def isRecoverable : MiasmaError → Bool
  | .decryption _ | .reedSolomon _ | .sss _ | .invalidManifest _ => true
  | _ => false

def mostCommonLen (pieces : List MiasmaShare) : UInt32 :=
  let count (len : UInt32) := (pieces.filter fun piece => piece.originalLen = len).length
  (pieces.foldl (fun best piece =>
    if best.1 < count piece.originalLen then (count piece.originalLen, piece.originalLen) else best)
    (0, pieces.head?.elim 0 MiasmaShare.originalLen)).2

/-! ## The prefix that is kept -/

/-- The segments from the front whose bytes are those of the manifest: how many, and their
bytes.  A journal that is ahead of the manifest's own segments stops it. -/
def verifySegments (L : Libraries) : Nat → List SegmentEntry → Bytes → Nat × Bytes →
    Checked MiasmaError (Nat × Bytes)
  | 0, _, _, kept => .ok kept
  | _ + 1, [], _, _ => .panic
  | left + 1, entry :: entries, rest, (good, bytes) =>
    let len := entry.plaintextLen.toNat
    if len ≤ rest.length ∧ L.blake3 (rest.take len) = entry.plainHash then
      verifySegments L left entries (rest.drop len) (good + 1, bytes ++ rest.take len)
    else .ok (good, bytes)

def verifyPrefix (L : Libraries) (part : Bytes) (manifest : Option TransferManifest)
    (journalNext journalBytes : Nat) : Checked MiasmaError (Nat × Bytes) :=
  match manifest with
  | none =>
    if part.length < journalBytes then .ok (0, [])
    else .ok (journalNext, part.take journalBytes)
  | some m => verifySegments L journalNext m.segments part (0, [])

structure Job where
  spec : ReceiveSpec
  prepared : Prepared
  manifest : Option TransferManifest
  manifestHash : Option B32
deriving DecidableEq

namespace Job

variable (L : Libraries) (W : Surroundings) (job : Job)

def k : Nat := job.prepared.params.dataShards

def accepts (journal : ReceiveJournal) : Bool :=
  journal.mid = job.spec.mid ∧ journal.outputPath = job.spec.outputPath ∧
    journal.dataShards = UInt8.ofNat job.prepared.params.dataShards ∧
    journal.totalShards = UInt8.ofNat job.prepared.params.totalShards ∧
    journal.segmentCount = job.prepared.segmentCount ∧ journal.totalBytes = job.prepared.totalBytes ∧
    journal.manifestHash = job.manifestHash

def prior (disk : Disk) : Option (Bytes × ReceiveJournal) := if job.spec.restart then none
  else
    match disk.part, (disk.journals job.spec.mid).filter job.accepts with
    | some part, some journal => some (part, journal)
    | _, _ => none

/-- Fresh start or resume: where the run begins, what is in the partial file by then, and
when the transfer was started. -/
def resume : Engine (Nat × Bytes × UInt64) := do
  let started ← W.nowSecs
  let begun ← match ← Program.reading job.prior with
    | some (part, journal) => do
      match verifyPrefix L part job.manifest journal.nextSegment journal.bytesDone with
      | .panic =>
        let e := W.joinError
        Program.fail (.storage s!"verify task: {e}")
      | .error e => Program.fail e
      | .ok (next, kept) =>
        Program.write (Disk.setLen · kept.length)
        pure (next, kept, journal.startedAt)
    | none => do
      removePart
      ReceiveJournal.remove job.spec.mid
      pure (0, [], started)
  Program.write Disk.createPart
  return begun

/-! ## One segment -/

/-- The candidates one after the other, until there are enough pieces. -/
def topUp (seg : Nat) (want : Nat) (suspects : List Suspect) :
    List (UInt16 × ShardLocation) → List PooledPiece → Engine (List PooledPiece)
  | [], pool => pure pool
  | (slot, holder) :: rest, pool => do
    if want ≤ pool.length then return pool
    else if ← W.isCancelled then return pool
    else if pool.any (·.share.slotIndex = slot) ∨
        (UInt32.ofNat seg, slot, holder.peerIdBytes) ∈ suspects then
      topUp seg want suspects rest pool
    else
      match ← W.fetch job.spec.mid (UInt32.ofNat seg) slot holder with
      | .ok (some share) =>
        if pieceIsAcceptable L share job.spec.mid (UInt32.ofNat seg) slot job.manifest then
          topUp seg want suspects rest (pool ++ [⟨share, holder.peerIdBytes⟩])
        else topUp seg want suspects rest pool
      | .ok none | .error _ => topUp seg want suspects rest pool

/-- `fill_pool`: the pool, and how many pieces are missing in it. -/
def fillPool (seg : Nat) (want : Nat) (suspects : List Suspect) (pool : List PooledPiece) :
    Engine (List PooledPiece × Except MiasmaError Unit) := do
  let pool ← job.topUp L W seg want suspects (job.prepared.candidates[seg]?.getD []) pool
  if pool.length < want then return (pool, .error (.insufficientShares want pool.length))
  else return (pool, .ok ())

def entry (seg : Nat) : Option SegmentEntry := job.manifest.bind fun m => m.segments[seg]?

def decodeOnce (seg : Nat) (pieces : List MiasmaShare) : Except MiasmaError Bytes :=
  let plaintextLen := (job.entry seg).elim (mostCommonLen pieces) SegmentEntry.plaintextLen
  let info : SegmentMeta := ⟨UInt32.ofNat seg, 0, plaintextLen, UInt16.ofNat job.prepared.params.totalShards⟩
  match L.retrieveSegmentFor job.prepared.suite job.spec.mid pieces info job.prepared.params job.prepared.key with
  | .panic =>
    let e := W.joinError
    .error (.decryption s!"decode task: {e}")
  | .error e => .error e
  | .ok plaintext =>
    match job.entry seg with
    | none => .ok plaintext
    | some entry =>
      if plaintext.length ≠ entry.plaintextLen.toNat ∨ L.blake3 plaintext ≠ entry.plainHash then
        .error (.invalidManifest
          s!"segment {seg} does not match its manifest hash; the manifest and the pieces disagree")
      else .ok plaintext

/-- One piece of the first `k` swapped for a spare at a time. -/
def trySwaps (seg : Nat) (base : List PooledPiece) (suspects : List Suspect) (firstErr : MiasmaError) :
    List (PooledPiece × Nat) → Nat → Engine (List Suspect × Bytes)
  | [], _ => Program.fail firstErr
  | (spare, out) :: rest, attempts => do
    if maxDecodeAttempts ≤ attempts then Program.fail firstErr
    else if ← W.isCancelled then Program.fail firstErr
    else
      match job.decodeOnce L W seg ((base.set out spare).map PooledPiece.share) with
      | .ok plaintext =>
        let bad := base[out]?.map fun piece => (UInt32.ofNat seg, piece.share.slotIndex, piece.peer)
        return (suspects ++ bad.toList, plaintext)
      | .error e =>
        if isRecoverable e then trySwaps seg base suspects firstErr rest (attempts + 1)
        else Program.fail e

def decodeWithFallback (seg : Nat) (suspects : List Suspect) (pool : List PooledPiece) :
    Engine (List Suspect × Bytes) := do
  let pool := pool.insertionSort fun first second => first.share.slotIndex ≤ second.share.slotIndex
  let base := pool.take job.k
  match job.decodeOnce L W seg (base.map PooledPiece.share) with
  | .ok plaintext => return (suspects, plaintext)
  | .error e =>
    if isRecoverable e then do
      let (pool, _) ← job.fillPool L W seg (job.k + recoveryExtraPieces) suspects pool
      let swaps := (pool.drop job.k).flatMap fun spare => (List.range job.k).map fun out => (spare, out)
      job.trySwaps L W seg base suspects e swaps 1
    else Program.fail e

/-- Pieces for a segment, with retries; `left` more are allowed after this one. -/
def gather (seg : Nat) (suspects : List Suspect) (journal : ReceiveJournal) :
    Nat → Nat → List PooledPiece → Engine (ReceiveOutcome ⊕ List PooledPiece)
  | left, attempt, pool => do
    let (pool, filled) ← job.fillPool L W seg job.k suspects pool
    match filled with
    | .ok () => return .inr pool
    | .error _ =>
      if ← W.isCancelled then
        journal.save
        return .inl (.cancelled seg)
      else
        match left with
        | 0 =>
          let (got, need, attempts) := (pool.length, job.k, attempt + 1)
          let reason := s!"segment {seg}: only {got} of {need} valid pieces after {attempts} attempts"
          let updated ← W.nowSecs
          { journal with lastError := some reason, updatedAt := updated }.save
          return .inl (.paused seg reason true)
        | left + 1 => gather seg suspects journal left (attempt + 1) pool

/-! ## The whole file -/

/-- Only a file whose identifier is the requested one takes the name of the output. -/
def finish (received : Bytes) : Engine ReceiveOutcome := do
  if L.compute received job.prepared.params.toParamBytes ≠ job.spec.mid then
    removePart
    ReceiveJournal.remove job.spec.mid
    Program.fail .hashMismatch
  else
    Program.write Disk.rename
    ReceiveJournal.remove job.spec.mid
    return .complete received.length

/-- The segments from `seg` on, of which there are `left`. -/
def transfer : Nat → Nat → Bytes → List Suspect → ReceiveJournal → Engine ReceiveOutcome
  | 0, _, received, _, _ => job.finish L received
  | left + 1, seg, received, suspects, journal => do
    if ← W.isCancelled then
      journal.save
      return .cancelled seg
    else
      match ← job.gather L W seg suspects journal (job.spec.maxAttempts - 1) 0 [] with
      | .inl outcome => return outcome
      | .inr pool =>
        let (suspects, plaintext) ← job.decodeWithFallback L W seg suspects pool
        match ← writeSegment W received.length plaintext with
        | .error e =>
          let path := job.spec.outputPath
          let reason := s!"cannot write {path}.part: {e}"
          { journal with lastError := some reason }.save
          return .paused seg reason false
        | .ok () =>
          let updated ← W.nowSecs
          let received := received ++ plaintext
          let journal := { journal with
            nextSegment := seg + 1, bytesDone := received.length
            updatedAt := updated, lastError := none }
          journal.save
          transfer left (seg + 1) received suspects journal

def journalAt (next : Nat) (received : Bytes) (startedAt updatedAt : UInt64) : ReceiveJournal where
  mid := job.spec.mid
  outputPath := job.spec.outputPath
  dataShards := UInt8.ofNat job.prepared.params.dataShards
  totalShards := UInt8.ofNat job.prepared.params.totalShards
  segmentCount := job.prepared.segmentCount
  totalBytes := job.prepared.totalBytes
  manifestHash := job.manifestHash
  nextSegment := next
  bytesDone := received.length
  startedAt
  updatedAt
  lastError := none
  shareId := job.spec.expect

def receive : Engine ReceiveOutcome := do
  let (next, received, startedAt) ← job.resume L W
  let updated ← W.nowSecs
  let journal := job.journalAt next received startedAt updated
  journal.save
  job.transfer L W (job.prepared.segmentCount - next) next received [] journal

end Job

/-- What is known of a receive before its files are touched. -/
def ReceiveSpec.job (L : Libraries) (K : PasswordKdf) (spec : ReceiveSpec) : Except MiasmaError Job := do
  let prepared ← spec.prepare L K
  match spec.effective with
  | none => return ⟨spec, prepared, none, none⟩
  | some m =>
    let hash ← m.manifestHash L
    return ⟨spec, prepared, some m, some hash⟩

/-- `run_inner`. -/
def runInner (L : Libraries) (K : PasswordKdf) (W : Surroundings) (spec : ReceiveSpec) : Engine ReceiveOutcome := do
  checkOutputTarget W
  let job ← Program.ofExcept (spec.job L K)
  job.receive L W

end Miasma.Transfer
