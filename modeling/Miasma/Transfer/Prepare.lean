import Miasma.Transfer.Disk
import Mathlib.Data.List.Sort

namespace Miasma.Transfer

open Data Dissolution Network

/-! What a receive checks before it fetches a piece (`prepare` in `transfer/receive.rs`,
`check_record` in `transfer/share_id.rs`). -/

structure ReceiveSpec where
  mid : ContentId
  record : DhtRecord
  manifest : Option TransferManifest
  manifestV4 : Option ManifestV4
  password : Option String
  outputPath : String
  restart : Bool
  /-- `retry.max_attempts_per_segment`. -/
  maxAttempts : Nat
  expect : Option ShareId
  recordSigner : Option B32
deriving DecidableEq

inductive ShareMismatch where
  | wrongSigner
  | manifestMissing
  | manifestPublisher
  | protectionDowngrade
  | protectionUpgrade
  | midMismatch

def ShareMismatch.text : ShareMismatch → String
  | .wrongSigner => "the record was not signed by the publisher named in the share ID; " ++
      "refusing it (forged or replayed record)"
  | .manifestMissing => "the share ID requires an authenticated transfer manifest but the record " ++
      "has none; ask the sender to publish again"
  | .manifestPublisher => "the manifest names a different publisher than the share ID"
  | .protectionDowngrade => "the share ID says this transfer is password-protected but the record " ++
      "is not; refusing (possible downgrade or replay of an old record)"
  | .protectionUpgrade => "the share ID says this transfer is not password-protected but the record " ++
      "is; check the share ID"
  | .midMismatch => "the share ID and the record are for different content"

def ShareId.checkRecord (id : ShareId) (recordMid : B32) (recordSigner : Option B32)
    (manifest : Option TransferManifest) : Except ShareMismatch Unit :=
  if recordMid ≠ id.mid then .error .midMismatch
  else if recordSigner ≠ some id.publisher then .error .wrongSigner
  else
    match manifest with
    | none => .error .manifestMissing
    | some m =>
      if m.mid ≠ id.mid then .error .midMismatch
      else if m.publisher ≠ id.publisher then .error .manifestPublisher
      else
        match id.isProtected, m.protection.isPassword with
        | true, false => .error .protectionDowngrade
        | false, true => .error .protectionUpgrade
        | _, _ => .ok ()

structure Prepared where
  params : DissolutionParams
  key : Option UnlockedKey
  segmentCount : Nat
  totalBytes : UInt64
  /-- The holders of each segment, data slots first. -/
  candidates : List (List (UInt16 × ShardLocation))
  suite : ObjectSuite
deriving DecidableEq

namespace ReceiveSpec

variable (spec : ReceiveSpec)

/-- The manifest the engine reads: that of the first suite, or the view of the other. -/
def effective : Option TransferManifest := spec.manifest.orElse fun _ => spec.manifestV4.map ManifestV4.asV3View

def checkV4 : Except MiasmaError ObjectSuite := match spec.manifestV4 with
  | none => .ok .suite1
  | some m => do
    m.validate
    m.objectSuite

def checkPublisher : Except MiasmaError Unit := match spec.expect, spec.effective, spec.recordSigner with
  | some id, manifest, signer =>
    if id.mid ≠ spec.mid.digest then .error (.shareMismatch ShareMismatch.midMismatch.text)
    else (id.checkRecord spec.record.midDigest signer manifest).mapError fun e => .shareMismatch e.text
  | none, some m, some signer =>
    if m.publisher ≠ signer then
      badManifest "the manifest names a different publisher than the one that signed the record"
    else .ok ()
  | none, _, _ => .ok ()

def checkParams : Except MiasmaError DissolutionParams := match spec.effective with
  | none => .ok ⟨spec.record.dataShards.toNat, spec.record.totalShards.toNat⟩
  | some m => do
    m.validate
    if m.mid ≠ spec.record.midDigest then badManifest "manifest MID does not match the record"
    else if m.dataShards ≠ spec.record.dataShards ∨ m.totalShards ≠ spec.record.totalShards then
      badManifest "manifest shard counts do not match the record"
    else .ok m.params

def unlockKey (L : Libraries) (K : PasswordKdf) : Except MiasmaError (Option UnlockedKey) :=
  match spec.effective.map TransferManifest.protection, spec.password with
  | some (.password protection), some password => do
    let unlocked ← protection.unlock L K password
    return some unlocked
  | some (.password _), none => .error .passwordRequired
  | _, some _ => badManifest ("a password was supplied but this transfer is not password-protected; " ++
      "refusing to ignore it")
  | _, none => .ok none

def countSegments : Except MiasmaError Nat := match spec.effective with
  | some m => .ok m.segments.length
  | none =>
    let count := spec.record.maxSegment.toNat + 1
    if maxSegments < count then badManifest "invalid record: segment table too large" else .ok count

/-- The locations of one segment, sorted by slot; those of one slot keep their order. -/
def candidatesOf (seg : Nat) : List (UInt16 × ShardLocation) :=
  ((spec.record.locations.filter fun location => location.segmentIndex.toNat = seg).map
    fun location => (location.shardIndex, location)).insertionSort fun first second => first.1 ≤ second.1

def prepare (L : Libraries) (K : PasswordKdf) : Except MiasmaError Prepared := do
  let suite ← spec.checkV4
  if spec.record.midDigest ≠ spec.mid.digest then
    .error (.invalidMid "the record is not for the requested MID")
  else
    spec.record.validate
    spec.checkPublisher
    let params ← spec.checkParams
    let key ← spec.unlockKey L K
    let segmentCount ← spec.countSegments
    return {
      params, key, segmentCount, suite
      totalBytes := spec.effective.elim 0 TransferManifest.totalBytes
      candidates := (List.range segmentCount).map spec.candidatesOf }

def params : DissolutionParams := ⟨spec.record.dataShards.toNat, spec.record.totalShards.toNat⟩

/-! ## What a prepared receive has -/

variable {spec} {L : Libraries} {K : PasswordKdf} {prepared : Prepared}

theorem mem_candidatesOf :
    (slot, holder) ∈ spec.candidatesOf seg ↔
      holder ∈ spec.record.locations ∧ holder.segmentIndex.toNat = seg ∧ holder.shardIndex = slot := by
  simp only [candidatesOf, List.mem_insertionSort, List.mem_map, List.mem_filter, decide_eq_true_eq, Prod.mk.injEq]
  constructor
  · rintro ⟨_, ⟨member, there⟩, slot, rfl⟩
    exact ⟨member, there, slot⟩
  · rintro ⟨member, there, slot⟩
    exact ⟨holder, ⟨member, there⟩, slot, rfl⟩

theorem checkParams_ok {params : DissolutionParams} (passed : spec.checkParams = .ok params) :
    params = spec.params ∧ ∀ m, spec.effective = some m →
      m.validate = .ok () ∧ m.mid = spec.record.midDigest ∧ m.params = spec.params := by
  simp only [checkParams] at passed
  split at passed
  · rename_i absent
    cases passed
    exact ⟨rfl, fun m there => by rw [absent] at there; cases there⟩
  rename_i m there
  obtain ⟨valid, passed⟩ := check_ok_iff.mp passed
  simp only [badManifest, ite_ok_iff] at passed
  obtain ⟨mid, counts, passed⟩ := passed
  cases passed
  simp only [not_or, not_not] at counts mid
  have same : m.params = spec.params := by
    rw [TransferManifest.params, ReceiveSpec.params, counts.1, counts.2]
  refine ⟨same, fun other found => ?_⟩
  cases there.symm.trans found
  exact ⟨valid, mid, same⟩

/-- A prepared receive has the parameters of its record, a manifest that agrees with them, and
the holders its record lists. -/
theorem prepare_ok (ready : spec.prepare L K = .ok prepared) :
    prepared.params = spec.params ∧ spec.record.midDigest = spec.mid.digest ∧
      prepared.candidates = (List.range prepared.segmentCount).map spec.candidatesOf ∧
      ∀ m, spec.effective = some m → m.validate = .ok () ∧ m.mid = spec.mid.digest ∧
        m.params = spec.params ∧ prepared.segmentCount = m.segments.length := by
  obtain ⟨suite, _, ready⟩ := bind_ok_iff.mp ready
  simp only [ite_ok_iff, not_not] at ready
  obtain ⟨mid, ready⟩ := ready
  obtain ⟨_, ready⟩ := check_ok_iff.mp ready
  obtain ⟨_, ready⟩ := check_ok_iff.mp ready
  obtain ⟨params, checked, ready⟩ := bind_ok_iff.mp ready
  obtain ⟨key, _, ready⟩ := bind_ok_iff.mp ready
  obtain ⟨count, counted, ready⟩ := bind_ok_iff.mp ready
  cases ready
  obtain ⟨same, agrees⟩ := checkParams_ok checked
  refine ⟨same, mid, rfl, fun m there => ?_⟩
  obtain ⟨valid, named, counts⟩ := agrees m there
  refine ⟨valid, named.trans mid, counts, ?_⟩
  rw [countSegments, there] at counted
  exact (Except.ok.inj counted).symm

end ReceiveSpec

end Miasma.Transfer
