import Miasma.Dissolution.RoundTrip

namespace Miasma.Dissolution

open Data Checked

/-! Object formats (`format/`) and the segments of the second one (`dissolution/segment.rs`). -/

inductive FormatError where
  | newer (version : UInt16)
  | unrepresentable (what : String)

def FormatError.text : FormatError → String
  | .newer version => s!"object format {version} is newer than this build supports; update Miasma"
  | .unrepresentable what => s!"value does not fit the segment AAD: {what}"

inductive ObjectSuite where
  | suite1
  | suite2
deriving DecidableEq

namespace ObjectSuite

def id : ObjectSuite → UInt16
  | .suite1 => 1
  | .suite2 => 2

def fromId (id : UInt16) : Except FormatError ObjectSuite :=
  if id = 1 then .ok .suite1 else if id = 2 then .ok .suite2 else .error (.newer id)

/-- `spec().manifest_version`. -/
def manifestVersion : ObjectSuite → UInt8
  | .suite1 => 3
  | .suite2 => 4

end ObjectSuite

/-! ## Associated data -/

inductive AadContext where
  | transferSegment
  | wholeFile
  | directed

def AadContext.toByte : AadContext → UInt8
  | .transferSegment => 1
  | .wholeFile => 2
  | .directed => 3

structure SegmentAad where
  suite : ObjectSuite
  context : AadContext
  mid : B32
  segmentIndex : UInt32
  dataShards : UInt8
  totalShards : UInt8
  plaintextLen : UInt32

namespace SegmentAad

def new (suite : ObjectSuite) (context : AadContext) (mid : ContentId) (segmentIndex : UInt32)
    (dataShards totalShards plaintextLen : Nat) : Except FormatError SegmentAad :=
  if 256 ≤ dataShards then .error (.unrepresentable "data_shards above 255")
  else if 256 ≤ totalShards then .error (.unrepresentable "total_shards above 255")
  else if 2 ^ 32 ≤ plaintextLen then .error (.unrepresentable "plaintext_len above u32::MAX")
  else .ok {
    suite, context, mid := mid.digest, segmentIndex
    dataShards := UInt8.ofNat dataShards
    totalShards := UInt8.ofNat totalShards
    plaintextLen := UInt32.ofNat plaintextLen }

def encode (aad : SegmentAad) : ByteVec 49 :=
  ⟨utf8 "MSA2" ++ toLE 2 aad.suite.id.toNat ++ [aad.context.toByte] ++ aad.mid.toList ++
      toLE 4 aad.segmentIndex.toNat ++ [aad.dataShards, aad.totalShards] ++ toLE 4 aad.plaintextLen.toNat,
    by simp [toLE, aad.mid.length_toList, show "MSA2".utf8ByteSize = 4 from rfl]⟩

end SegmentAad

open SegmentAad

namespace Libraries

variable (L : Libraries)

/-! ## Sealing -/

/-- `derive_segment_key_v2`, which expects the derivation to succeed. -/
def deriveSegmentKeyV2 (kEnc : B32) (pwKey : Option UnlockedKey) (aad : ByteVec 49) :
    Checked MiasmaError B32 :=
  let salt := pwKey.elim [] fun unlocked => unlocked.pwKey.toList
  expect (L.hkdf salt kEnc.toList (utf8 "miasma-seg-key-v2" ++ aad.toList)).toOption

/-- `seal_segment`, which expects the encryption to succeed. -/
def sealSegment (kEnc : B32) (nonce : ByteVec 12) (plaintext : Bytes) (aad : ByteVec 49)
    (pwKey : Option UnlockedKey) : Checked MiasmaError Bytes := do
  let key ← L.deriveSegmentKeyV2 kEnc pwKey aad
  expect (L.encrypt key nonce aad.toList plaintext).toOption

def openSegment (kEnc : B32) (nonce : ByteVec 12) (ciphertext : Bytes) (aad : ByteVec 49)
    (pwKey : Option UnlockedKey) : Checked MiasmaError (Option Bytes) := do
  let key ← L.deriveSegmentKeyV2 kEnc pwKey aad
  return (L.decrypt key nonce aad.toList ciphertext).toOption

def dissolveSegmentV2At (data : Bytes) (mid : ContentId) (index : UInt32) (offsetBytes : UInt64)
    (params : DissolutionParams) (passwordKey : Option UnlockedKey) (timestamp : UInt64)
    (draws : Draws) : Checked MiasmaError (SegmentMeta × List MiasmaShare) := do
  let aad ← ofExcept ((new .suite2 .transferSegment mid index params.dataShards
    params.totalShards data.length).mapError fun e => .encryption e.text)
  let keyShares ← ofExcept (L.sssSplit draws.key.toList (UInt8.ofNat params.dataShards)
    (UInt8.ofNat params.totalShards) draws.coefficients)
  let ciphertext ← L.sealSegment draws.key draws.nonce data aad.encode passwordKey
  let shards ← L.rsEncode ciphertext params.dataShards params.totalShards
  return (segmentMeta data index offsetBytes params, L.assemble 2 mid index shards keyShares draws.nonce
    (UInt32.ofNat data.length) timestamp)

def retrieveSegmentV2 (mid : ContentId) (shares : List MiasmaShare) (info : SegmentMeta)
    (params : DissolutionParams) (passwordKey : Option UnlockedKey) : Checked MiasmaError Bytes := do
  let (first, selected) ← selectShares (L.segmentShares mid shares info.index) params.dataShards
  let (ciphertext, kEnc) ← L.openShares selected params (info.plaintextLen.toNat + 16)
  let aad ← ofExcept ((new .suite2 .transferSegment mid info.index params.dataShards
    params.totalShards info.plaintextLen.toNat).mapError fun e => .decryption e.text)
  match ← L.openSegment kEnc first.nonce ciphertext aad.encode passwordKey with
  | none => .error (.decryption "version-2 segment did not open")
  | some plaintext => .ok plaintext

def dissolveSegmentFor (suite : ObjectSuite) (data : Bytes) (mid : ContentId) (index : UInt32)
    (offsetBytes : UInt64) (params : DissolutionParams) (passwordKey : Option UnlockedKey)
    (timestamp : UInt64) (draws : Draws) : Checked MiasmaError (SegmentMeta × List MiasmaShare) :=
  match suite with
  | .suite1 => L.dissolveSegmentWithAt data mid index offsetBytes params passwordKey timestamp draws
  | .suite2 => L.dissolveSegmentV2At data mid index offsetBytes params passwordKey timestamp draws

def retrieveSegmentFor (suite : ObjectSuite) (mid : ContentId) (shares : List MiasmaShare)
    (info : SegmentMeta) (params : DissolutionParams) (passwordKey : Option UnlockedKey) :
    Checked MiasmaError Bytes :=
  match suite with
  | .suite1 => L.retrieveSegmentWith mid shares info params passwordKey
  | .suite2 => L.retrieveSegmentV2 mid shares info params passwordKey

/-! ## What is sealed opens again -/

variable {L} {params : DissolutionParams}

theorem aad_new (valid : params.Valid) (short : len < 2 ^ 32) (suite : ObjectSuite) (context : AadContext)
    (mid : ContentId) (index : UInt32) :
    ∃ aad, new suite context mid index params.dataShards params.totalShards len = .ok aad := by
  have enough := valid.enough
  have few := valid.few
  rw [new, if_neg (by omega), if_neg (by omega), if_neg (by omega)]
  exact ⟨_, rfl⟩

theorem seal_then_open (ideal : Ideal L params) (short : plaintext.length < 2 ^ 32) (kEnc : B32)
    (nonce : ByteVec 12) (aad : ByteVec 49) (pwKey : Option UnlockedKey) :
    ∃ ciphertext, L.sealSegment kEnc nonce plaintext aad pwKey = .ok ciphertext ∧
      ciphertext.length = plaintext.length + 16 ∧
      L.openSegment kEnc nonce ciphertext aad pwKey = .ok (some plaintext) := by
  obtain ⟨key, derived⟩ := ideal.derives (pwKey.elim [] fun unlocked => unlocked.pwKey.toList)
    kEnc.toList (utf8 "miasma-seg-key-v2" ++ aad.toList)
  have keyed : L.deriveSegmentKeyV2 kEnc pwKey aad = .ok key := by
    simp [deriveSegmentKeyV2, derived, Except.toOption]
  obtain ⟨ciphertext, sealed, longer, opened⟩ := ideal.seals key nonce aad.toList plaintext short
  exact ⟨ciphertext, by simp [sealSegment, keyed, sealed, Except.toOption], longer,
    by simp [openSegment, keyed, opened, Except.toOption]⟩

variable {shares : List MiasmaShare} {passwordKey : Option UnlockedKey}

theorem retrieveSegmentV2_eq {mid : ContentId}
    (select : selectShares (L.segmentShares mid shares info.index) params.dataShards = .ok (first, selected))
    (joined : L.openShares selected params (info.plaintextLen.toNat + 16) = .ok (ciphertext, kEnc))
    (bound : new .suite2 .transferSegment mid info.index params.dataShards
      params.totalShards info.plaintextLen.toNat = .ok aad)
    (opened : L.openSegment kEnc first.nonce ciphertext aad.encode passwordKey = .ok (some plaintext)) :
    L.retrieveSegmentV2 mid shares info params passwordKey = .ok plaintext := by
  simp only [retrieveSegmentV2, select, ok_bind, joined, bound, Except.mapError, ofExcept_ok, opened]

theorem dissolveSegmentV2At_then_retrieve (ideal : Ideal L params) (valid : params.Valid)
    (short : data.length < 2 ^ 32) {mid : ContentId} :
    ∃ shares, L.dissolveSegmentV2At data mid index offset params passwordKey timestamp draws =
        .ok (segmentMeta data index offset params, shares) ∧
      shares.map (·.slotIndex.toNat) = List.range params.totalShards ∧
      (∀ share ∈ shares, share = L.newShare 2 mid index share.slotIndex share.shardData
        share.keyShare draws.nonce (UInt32.ofNat data.length) timestamp) ∧
      L.Recovers params mid index shares data fun given info =>
        L.retrieveSegmentV2 mid given info params passwordKey := by
  obtain ⟨aad, bound⟩ := aad_new valid short .suite2 .transferSegment mid index
  obtain ⟨ciphertext, sealed, longer, opened⟩ :=
    seal_then_open ideal short draws.key draws.nonce aad.encode passwordKey
  obtain ⟨shares, split, slots, made, opens⟩ := splitShares_then_select ideal valid 2 mid index ciphertext
    (UInt32.ofNat data.length) timestamp draws
  refine ⟨shares, ?_, slots, made, ?_⟩
  · -- The key is split before the ciphertext here; both orders end in the same shares.
    obtain ⟨shards, encoded, split⟩ := bind_eq_ok_iff.mp split
    obtain ⟨keyShares, dealt, split⟩ := bind_eq_ok_iff.mp split
    cases split
    simp only [dissolveSegmentV2At, bound, Except.mapError, ofExcept_ok, ok_bind, dealt, sealed, encoded, pure_eq]
  rintro pieces given info rfl len stamped mixed
  obtain ⟨first, there, selected, select, joined⟩ := opens stamped (fun piece there => by
    rw [made_of_stamped made (stamped piece there)]
    simp [newShare, coarseVerify]) mixed
  have nonce : first.nonce = draws.nonce := by
    rw [made_of_stamped made (stamped first there)]
    rfl
  have exact : info.plaintextLen.toNat = data.length := by
    rw [len]
    exact toNat_length short
  exact retrieveSegmentV2_eq select (by rw [exact, ← longer]; exact joined) (by rw [exact]; exact bound)
    (by rw [nonce]; exact opened)

theorem retrieve_of_dissolved (ideal : Ideal L params) (valid : params.Valid) {suite : ObjectSuite}
    (short : data.length < 2 ^ 32) {mid : ContentId}
    (dissolved : L.dissolveSegmentFor suite data mid index offset params passwordKey timestamp draws =
      .ok (made, shares)) :
    shares.map (·.slotIndex.toNat) = List.range params.totalShards ∧
      (∀ share ∈ shares, share.segmentIndex = index ∧ L.coarseVerify share mid = true) ∧
      L.Recovers params mid index shares data fun given info =>
        L.retrieveSegmentFor suite mid given info params passwordKey := by
  cases suite with
  | suite1 =>
    obtain ⟨same, again, slots, carries, retrieves⟩ := dissolveSegmentWithAt_then_retrieve ideal valid
      short mid index offset passwordKey timestamp draws
    cases again.symm.trans dissolved
    refine ⟨slots, fun share there => ?_, retrieves⟩
    rw [carries share there]
    exact ⟨rfl, coarseVerify_newShare L ..⟩
  | suite2 =>
    obtain ⟨same, again, slots, carries, retrieves⟩ := dissolveSegmentV2At_then_retrieve ideal valid
      short
    cases again.symm.trans dissolved
    refine ⟨slots, fun share there => ?_, retrieves⟩
    rw [carries share there]
    exact ⟨rfl, coarseVerify_newShare L ..⟩

end Libraries

end Miasma.Dissolution
