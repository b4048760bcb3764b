import Miasma.Dissolution.Format
import Miasma.Network.Record
import Miasma.Transfer.Protection
import Miasma.Data.Outcome

namespace Miasma.Transfer

open Data Dissolution Network Checked List

/-! The index of a transfer (`transfer/manifest.rs`) and the commitment to a piece (`share.rs`). -/

def manifestVersion : UInt8 := 3
def manifestVersionV4 : UInt8 := 4
def manifestV4MaxExtBytes : Nat := 256
def maxNameBytes : Nat := 255
def maxSegmentSize : UInt32 := 64 * 1024 * 1024
def manifestMaxBytes : Nat := 8 * 1024 * 1024

/-! ## Pieces -/

/-- What the commitment to a piece is taken of: all of the share but its time and its hash. -/
def commitmentBytes (mid : ContentId) (share : MiasmaShare) : Bytes :=
  [share.version] ++ mid.digest.toList ++ toLE 4 share.segmentIndex.toNat ++
    toLE 2 share.slotIndex.toNat ++ toLE 4 share.originalLen.toNat ++
    toLE 8 share.shardData.length ++ share.shardData ++
    toLE 8 share.keyShare.length ++ share.keyShare ++ share.nonce.toList

def pieceCommitment (L : Libraries) (mid : ContentId) (share : MiasmaShare) : B32 :=
  L.deriveKey "miasma-piece-commitment-v2" (commitmentBytes mid share)

def verifyPiece (L : Libraries) (share : MiasmaShare) (mid : ContentId) (expected : B32) : Bool :=
  L.coarseVerify share mid && pieceCommitment L mid share = expected

/-- Vectors are no longer than memory. -/
structure Fits (share : MiasmaShare) : Prop where
  shard : share.shardData.length < 2 ^ 64
  key : share.keyShare.length < 2 ^ 64

theorem commitmentBytes_inj (fits : Fits left) (fit : Fits right)
    (same : commitmentBytes mid left = commitmentBytes mid right) :
    left.version = right.version ∧ left.segmentIndex = right.segmentIndex ∧
      left.slotIndex = right.slotIndex ∧ left.originalLen = right.originalLen ∧
      left.shardData = right.shardData ∧ left.keyShare = right.keyShare ∧ left.nonce = right.nonce := by
  simp only [commitmentBytes, append_assoc] at same
  obtain ⟨version, same⟩ := append_inj same rfl
  obtain ⟨segment, same⟩ := append_inj (append_cancel_left same) (by simp)
  obtain ⟨slot, same⟩ := append_inj same (by simp)
  obtain ⟨len, same⟩ := append_inj same (by simp)
  obtain ⟨shardLen, same⟩ := append_inj same (by simp)
  have shards := toLE_inj fits.shard fit.shard shardLen
  obtain ⟨shard, same⟩ := append_inj same shards
  obtain ⟨keyLen, same⟩ := append_inj same (by simp)
  obtain ⟨key, nonce⟩ := append_inj same (toLE_inj fits.key fit.key keyLen)
  refine ⟨by simpa using version, ?_, ?_, ?_, shard, key, ByteVec.ext_toList nonce⟩
  · exact UInt32.toNat_inj.mp (toLE_inj left.segmentIndex.toNat_lt right.segmentIndex.toNat_lt segment)
  · exact UInt16.toNat_inj.mp (toLE_inj left.slotIndex.toNat_lt right.slotIndex.toNat_lt slot)
  · exact UInt32.toNat_inj.mp (toLE_inj left.originalLen.toNat_lt right.originalLen.toNat_lt len)

/-- Two shares that pass the coarse check and have the same bytes under their commitments
differ in their time at most. -/
theorem eq_of_commitmentBytes_eq {L : Libraries} (fits : Fits left) (fit : Fits right)
    (passes : L.coarseVerify left mid = true) (pass : L.coarseVerify right mid = true)
    (same : commitmentBytes mid left = commitmentBytes mid right) :
    left = { right with timestamp := left.timestamp } := by
  obtain ⟨version, segment, slot, len, shard, key, nonce⟩ := commitmentBytes_inj fits fit same
  simp only [Libraries.coarseVerify, Bool.and_eq_true, decide_eq_true_eq] at passes pass
  have ids : left.midPrefix = right.midPrefix := passes.1.trans pass.1.symm
  have hashes : left.shardHash = right.shardHash := by rw [← passes.2, ← pass.2, shard]
  cases left
  simp only at version segment slot len shard key nonce ids hashes
  rw [version, segment, slot, len, shard, key, nonce, ids, hashes]

structure SegmentEntry where
  index : UInt32
  plaintextLen : UInt32
  plainHash : B32
  pieceIds : List B32
deriving DecidableEq

namespace SegmentEntry

def place (L : Libraries) (index : UInt32) (mid : ContentId) :
    List MiasmaShare → List (Option B32) → Except MiasmaError (List (Option B32))
  | [], cells => .ok cells
  | share :: rest, cells =>
    let slot := share.slotIndex.toNat
    match cells[slot]? with
    | none =>
      let n := cells.length
      .error (.invalidManifest s!"slot {slot} out of range for {n} shares")
    | some cell =>
      if share.segmentIndex ≠ index then
        let other := share.segmentIndex
        .error (.invalidManifest s!"share of segment {other} listed under segment {index}")
      else if cell.isSome then
        .error (.invalidManifest s!"duplicate shard slot {slot} in segment {index}")
      else place L index mid rest (cells.set slot (some (pieceCommitment L mid share)))

def fromDissolved (L : Libraries) (index : UInt32) (mid : ContentId) (plaintext : Bytes)
    (shares : List MiasmaShare) : Checked MiasmaError SegmentEntry := do
  let cells ← ofExcept (place L index mid shares (replicate shares.length none))
  let pieceIds ← each expect cells
  if 2 ^ 32 ≤ plaintext.length then .error (.invalidManifest "segment larger than u32::MAX")
  else return {
    index, pieceIds
    plaintextLen := UInt32.ofNat plaintext.length
    plainHash := L.blake3 plaintext }

end SegmentEntry

/-! ## Manifests -/

structure TransferManifest where
  version : UInt8
  mid : B32
  publisher : B32
  name : Option String
  dataShards : UInt8
  totalShards : UInt8
  segmentSize : UInt32
  totalBytes : UInt64
  protection : Protection
  segments : List SegmentEntry
deriving DecidableEq

def badManifest {α : Type} (reason : String) : Except MiasmaError α := .error (.invalidManifest reason)

def unsupportedVersionMessage (found : UInt8) : String := if found < manifestVersion then
    s!"manifest version {found} is no longer supported (this build reads version {manifestVersion}: " ++
      "a manifest now names its publisher and is bound to a share ID); ask the sender to publish " ++
      "the file again"
  else
    s!"manifest version {found} is newer than this build supports ({manifestVersion}); update Miasma"

namespace TransferManifest

variable (m : TransferManifest)

def params : DissolutionParams := ⟨m.dataShards.toNat, m.totalShards.toNat⟩

/-- How many segments a file of the declared length has: an empty one has one. -/
def expectedSegments : Nat := if m.totalBytes = 0 then 1
  else (m.totalBytes.toNat + m.segmentSize.toNat - 1) / m.segmentSize.toNat

/-- The checks of the segments from position `i` on, and the sum of their lengths. -/
def validateSegments : Nat → List SegmentEntry → Nat → Except MiasmaError Nat
  | _, [], sum => .ok sum
  | i, entry :: rest, sum =>
    let n := m.totalShards.toNat
    let listed := entry.pieceIds.length
    let index := entry.index
    if entry.index.toNat ≠ i then badManifest s!"segment at position {i} has index {index}"
    else if listed ≠ n then badManifest s!"segment {i} lists {listed} pieces, expected n={n}"
    else if m.segmentSize < entry.plaintextLen then badManifest s!"segment {i} longer than segment_size"
    else if i + 1 < m.segments.length ∧ entry.plaintextLen ≠ m.segmentSize then
      badManifest s!"non-final segment {i} is short"
    else validateSegments (i + 1) rest (sum + entry.plaintextLen.toNat)

/-- The costs of a password, where there is one. -/
def validateProtection : Protection → Except MiasmaError Unit
  | .unprotected => .ok ()
  | .password protection => protection.validate

def validateName : Option String → Except MiasmaError Unit
  | none => .ok ()
  | some name =>
    let len := name.utf8ByteSize
    if maxNameBytes < len then badManifest s!"file name is {len} bytes, limit {maxNameBytes}" else .ok ()

def validate : Except MiasmaError Unit :=
  let (k, n) := (m.dataShards.toNat, m.totalShards.toNat)
  let (size, count, total) := (m.segmentSize, m.segments.length, m.totalBytes)
  let expected := m.expectedSegments
  if m.version ≠ manifestVersion then badManifest (unsupportedVersionMessage m.version)
  else if k = 0 ∨ n < k then badManifest s!"invalid shard counts k={k}, n={n}"
  else if size = 0 then badManifest "segment_size is zero"
  else if maxSegmentSize < size then badManifest s!"segment_size {size} exceeds the limit {maxSegmentSize}"
  else if maxSegments < count then badManifest s!"{count} segments listed, limit {maxSegments}"
  else do
    validateProtection m.protection
    validateName m.name
    if count ≠ expected then
      badManifest s!"{count} segments listed, {expected} expected for {total} bytes at segment_size {size}"
    else
      let sum ← m.validateSegments 0 m.segments 0
      if sum ≠ total.toNat then badManifest s!"segment lengths sum to {sum}, total_bytes is {total}"
      else .ok ()

def expectedPiece (segment : UInt32) (slot : UInt16) : Option B32 :=
  m.segments[segment.toNat]?.bind fun entry => entry.pieceIds[slot.toNat]?

/-- The fields in order, as `bincode` writes them. -/
def encoded : Bytes := [m.version] ++ m.mid.toList ++ m.publisher.toList ++
    m.name.elim [0] (fun name => [1] ++ toLE 8 name.utf8ByteSize ++ utf8 name) ++
    [m.dataShards, m.totalShards] ++ toLE 4 m.segmentSize.toNat ++ toLE 8 m.totalBytes.toNat ++
    (match m.protection with
      | .unprotected => toLE 4 0
      | .password p => toLE 4 1 ++ toLE 4 p.mKib.toNat ++ toLE 4 p.tCost.toNat ++ toLE 4 p.pCost.toNat ++
          p.salt.toList ++ p.keyCheck.toList) ++
    toLE 8 m.segments.length ++ m.segments.flatMap fun entry =>
      toLE 4 entry.index.toNat ++ toLE 4 entry.plaintextLen.toNat ++ entry.plainHash.toList ++
        toLE 8 entry.pieceIds.length ++ entry.pieceIds.flatMap ByteVec.toList

def toBytes : Except MiasmaError Bytes :=
  let len := m.encoded.length
  if manifestMaxBytes < len then badManifest s!"manifest is {len} bytes, limit {manifestMaxBytes}"
  else .ok m.encoded

def manifestHash (L : Libraries) : Except MiasmaError B32 := return L.blake3 (← m.toBytes)

end TransferManifest

/-- A manifest of the second suite: the same fields, and two more. -/
structure ManifestV4 where
  version : UInt8
  mid : B32
  publisher : B32
  name : Option String
  dataShards : UInt8
  totalShards : UInt8
  segmentSize : UInt32
  totalBytes : UInt64
  protection : Protection
  segments : List SegmentEntry
  suite : UInt16
  ext : Bytes
deriving DecidableEq

namespace ManifestV4

variable (m : ManifestV4)

def asV3View : TransferManifest where
  version := manifestVersion
  mid := m.mid
  publisher := m.publisher
  name := m.name
  dataShards := m.dataShards
  totalShards := m.totalShards
  segmentSize := m.segmentSize
  totalBytes := m.totalBytes
  protection := m.protection
  segments := m.segments

def objectSuite : Except MiasmaError ObjectSuite :=
  (ObjectSuite.fromId m.suite).mapError fun e => .invalidManifest e.text

def validate : Except MiasmaError Unit :=
  let (version, suite, len) := (m.version, m.suite, m.ext.length)
  if version ≠ manifestVersionV4 then
    badManifest s!"manifest version {version} is newer than this build supports ({manifestVersionV4}); update Miasma"
  else if manifestV4MaxExtBytes < len then
    badManifest s!"manifest ext is {len} bytes, limit {manifestV4MaxExtBytes}"
  else do
    let named ← m.objectSuite
    if named.manifestVersion ≠ manifestVersionV4 then
      badManifest s!"manifest suite {suite} does not name a version 4 manifest"
    else m.asV3View.validate

end ManifestV4

/-! ## What a valid manifest has -/

/-- What `validate` leaves for the engine to rely on. -/
structure TransferManifest.Accepted (m : TransferManifest) : Prop where
  params : m.params.Valid
  few : m.segments.length ≤ maxSegments
  short : ∀ entry ∈ m.segments, entry.plaintextLen ≤ maxSegmentSize

theorem TransferManifest.length_of_validateSegments {m : TransferManifest} {i sum total : Nat}
    (passed : m.validateSegments i entries sum = .ok total) :
    ∀ entry ∈ entries, entry.plaintextLen ≤ m.segmentSize := by
  induction entries generalizing i sum with
  | nil => simp
  | cons entry rest ih =>
    simp only [validateSegments, badManifest, ite_ok_iff] at passed
    obtain ⟨_, _, fits, _, passed⟩ := passed
    intro other member
    rcases mem_cons.mp member with rfl | later
    · exact UInt32.not_lt.mp fits
    · exact ih passed other later

theorem TransferManifest.accepted_of_validate {m : TransferManifest} (passed : m.validate = .ok ()) : m.Accepted := by
  simp only [validate, badManifest, ite_ok_iff] at passed
  obtain ⟨_, counts, _, size, few, passed⟩ := passed
  obtain ⟨_, _, passed⟩ := bind_ok_iff.mp passed
  obtain ⟨_, _, passed⟩ := bind_ok_iff.mp passed
  simp only [ite_ok_iff] at passed
  obtain ⟨_, passed⟩ := passed
  obtain ⟨_, summed, _⟩ := bind_ok_iff.mp passed
  have total := m.totalShards.toNat_lt
  refine ⟨⟨?_, ?_, ?_⟩, Nat.not_lt.mp few, ?_⟩
  · exact Nat.pos_of_ne_zero fun zero => counts (.inl zero)
  · exact Nat.not_lt.mp fun fewer => counts (.inr fewer)
  · exact Nat.le_of_lt_succ total
  intro entry member
  exact UInt32.le_trans (length_of_validateSegments summed entry member) (UInt32.not_lt.mp size)

/-! ## What an entry made of shares lists -/

namespace SegmentEntry

variable {L : Libraries} {index : UInt32} {mid : ContentId}

variable {shares : List MiasmaShare} {cells : List (Option B32)}

theorem place_ok (done : place L index mid shares cells = .ok placed) :
    (∀ (i : Nat) (id : B32), cells[i]? = some (some id) → placed[i]? = some (some id)) ∧
      (∀ share ∈ shares, placed[share.slotIndex.toNat]? = some (some (pieceCommitment L mid share))) ∧
      ∀ (i : Nat) (id : B32), placed[i]? = some (some id) → cells[i]? = some (some id) ∨
          ∃ share ∈ shares, share.slotIndex.toNat = i ∧ id = pieceCommitment L mid share := by
  induction shares generalizing cells with
  | nil =>
    cases done
    simp
  | cons share rest ih =>
    simp only [place] at done
    split at done
    · cases done
    rename_i cell found
    simp only [ite_ok_iff] at done
    obtain ⟨_, free, done⟩ := done
    obtain ⟨kept, listed, sound⟩ := ih done
    obtain ⟨inside, _⟩ := List.getElem?_eq_some_iff.mp found
    have here := kept share.slotIndex.toNat (pieceCommitment L mid share) (by simp [inside])
    refine ⟨?_, ?_, ?_⟩
    · intro i id before
      refine kept i id ?_
      have apart : share.slotIndex.toNat ≠ i := by
        rintro rfl
        rw [found] at before
        cases before
        exact free rfl
      rwa [getElem?_set_ne apart]
    · intro other member
      rcases mem_cons.mp member with rfl | later
      · exact here
      · exact listed other later
    intro i id after
    rcases sound i id after with before | ⟨other, member, slot, same⟩
    · by_cases apart : share.slotIndex.toNat = i
      · subst apart
        rw [here] at after
        cases after
        exact .inr ⟨share, by simp, rfl, rfl⟩
      · rw [getElem?_set_ne apart] at before
        exact .inl before
    · exact .inr ⟨other, by simp [member], slot, same⟩

theorem each_expect_ok (all : (each expect cells : Checked MiasmaError _) = .ok ids) (i : Nat) :
    cells[i]? = ids[i]?.map some := by
  induction cells generalizing ids i with
  | nil =>
    cases all
    simp
  | cons cell rest ih =>
    obtain ⟨id, first, all⟩ := bind_eq_ok_iff.mp all
    obtain ⟨later, others, all⟩ := bind_eq_ok_iff.mp all
    cases all
    rw [expect_eq_ok_iff.mp first]
    cases i with
    | zero => rfl
    | succ i => exact ih others i

/-- An entry made of the shares of a segment: its length and hash are the segment's, and a
slot lists an identifier exactly when it is the commitment of a share in that slot. -/
theorem fromDissolved_ok (made : fromDissolved L index mid plaintext shares = .ok entry) :
    plaintext.length < 2 ^ 32 ∧ entry.plaintextLen = UInt32.ofNat plaintext.length ∧
      entry.plainHash = L.blake3 plaintext ∧
      (∀ share ∈ shares, entry.pieceIds[share.slotIndex.toNat]? = some (pieceCommitment L mid share)) ∧
      ∀ (i : Nat) (id : B32), entry.pieceIds[i]? = some id →
        ∃ share ∈ shares, share.slotIndex.toNat = i ∧ id = pieceCommitment L mid share := by
  obtain ⟨cells, placed, made⟩ := bind_eq_ok_iff.mp made
  obtain ⟨ids, all, made⟩ := bind_eq_ok_iff.mp made
  obtain ⟨_, listed, sound⟩ := place_ok (ofExcept_eq_ok_iff.mp placed)
  split at made
  · cases made
  rename_i fits
  cases made
  refine ⟨Nat.lt_of_not_le fits, rfl, rfl, ?_, ?_⟩
  · intro share member
    have there := listed share member
    rw [each_expect_ok all] at there
    simpa using there
  · intro i id there
    rcases sound i id (by rw [each_expect_ok all, there]; rfl) with before | found
    · simp [getElem?_replicate] at before
    · exact found

end SegmentEntry

end Miasma.Transfer
