import Miasma.Data.Bytes
import Miasma.Data.Checked

namespace Miasma.Dissolution

open Data

/-! Content identifiers and shares (`crypto/hash.rs`, `share.rs`, `error.rs` and the parameters of
`pipeline.rs`). -/

inductive MiasmaError where
  | encryption (reason : String)
  | decryption (reason : String)
  | sss (reason : String)
  | reedSolomon (reason : String)
  | shareIntegrity
  | invalidMid (reason : String)
  | insufficientShares (need got : Nat)
  | hashMismatch
  | keyDerivation (reason : String)
  | serialization (reason : String)
  | dht (reason : String)
  | network (reason : String)
  | io (reason : String)
  | storage (reason : String)
  | wrongPassword
  | invalidManifest (reason : String)
  | shareMismatch (reason : String)
  | passwordRequired
deriving DecidableEq

/-- What dissolution takes from `blake3`, `aes_gcm`, `hkdf`, `reed_solomon_simd` and `blahaj`;
what these are assumed to do stands at the theorems that need it. -/
structure Libraries where
  /-- `blake3::hash`. -/
  blake3 : Bytes → B32
  /-- `blake3::Hasher::new_derive_key(label)` over the bytes. -/
  deriveKey : String → Bytes → B32
  /-- AES-256-GCM under a key and a nonce, with associated data. -/
  encrypt : B32 → ByteVec 12 → Bytes → Bytes → Except String Bytes
  decrypt : B32 → ByteVec 12 → Bytes → Bytes → Except String Bytes
  /-- HKDF-SHA256 of a salt, a secret and a label, to 32 bytes. -/
  hkdf : Bytes → Bytes → Bytes → Except String B32
  /-- `ReedSolomonEncoder`: the recovery shards of the originals, for the number of
  originals, the number of recovery shards and the length of a shard. -/
  rsEncoder : Nat → Nat → Nat → List Bytes → Except String (List Bytes)
  /-- `ReedSolomonDecoder`: the missing originals by index, from the originals and the
  recovery shards that are there. -/
  rsDecoder : Nat → Nat → Nat → List (Nat × Bytes) → List (Nat × Bytes) →
    Except String (Nat → Option Bytes)
  /-- `Sharks(k).dealer(secret).take(n)`, for one draw of the coefficients. -/
  deal : UInt8 → Bytes → Nat → Nat → List Bytes
  /-- `Share::try_from` of each share, then `Sharks(k).recover`. -/
  recover : UInt8 → List Bytes → Except String Bytes

/-! ## Content identifiers -/

/-- A `ContentId`: a digest of the content and of the parameters it was dissolved with. -/
structure ContentId where
  digest : B32
deriving DecidableEq

def midPrefixLen : Nat := 8

def ContentId.midPrefix (mid : ContentId) : ByteVec 8 :=
  ⟨mid.digest.toList.take midPrefixLen, by simp [midPrefixLen, mid.digest.length_toList]⟩

def Libraries.compute (L : Libraries) (content params : Bytes) : ContentId := ⟨L.blake3 (content ++ params)⟩

def protocolVersion : Nat := 1

structure DissolutionParams where
  dataShards : Nat
  totalShards : Nat
deriving DecidableEq

def DissolutionParams.toParamBytes (params : DissolutionParams) : Bytes :=
  utf8 ("k=" ++ toString params.dataShards ++ ",n=" ++ toString params.totalShards ++
    ",v=" ++ toString protocolVersion)

/-! ## Shares -/

structure MiasmaShare where
  version : UInt8
  midPrefix : ByteVec 8
  segmentIndex : UInt32
  slotIndex : UInt16
  shardData : Bytes
  keyShare : Bytes
  shardHash : B32
  nonce : ByteVec 12
  originalLen : UInt32
  timestamp : UInt64
deriving DecidableEq

namespace Libraries

variable (L : Libraries)

/-- `MiasmaShare::new` and `MiasmaShare::new_v2`, which differ in the version only. -/
def newShare (version : UInt8) (mid : ContentId) (segmentIndex : UInt32) (slotIndex : UInt16)
    (shardData keyShare : Bytes) (nonce : ByteVec 12) (originalLen : UInt32)
    (timestamp : UInt64) : MiasmaShare where
  version
  midPrefix := ContentId.midPrefix mid
  segmentIndex
  slotIndex
  shardData
  keyShare
  shardHash := L.blake3 shardData
  nonce
  originalLen
  timestamp

def coarseVerify (share : MiasmaShare) (mid : ContentId) : Bool :=
  share.midPrefix = ContentId.midPrefix mid && L.blake3 share.shardData = share.shardHash

def fullVerify (plaintext params : Bytes) (mid : ContentId) : Except MiasmaError Unit :=
  if L.compute plaintext params ≠ mid then .error .hashMismatch else .ok ()

@[simp] theorem fullVerify_ok_iff :
    L.fullVerify plaintext params mid = .ok () ↔ L.compute plaintext params = mid := by
  simp [fullVerify]

@[simp] theorem coarseVerify_newShare (version : UInt8) (mid : ContentId) (segmentIndex : UInt32)
    (slotIndex : UInt16) (shardData keyShare : Bytes) (nonce : ByteVec 12)
    (originalLen : UInt32) (timestamp : UInt64) :
    L.coarseVerify (L.newShare version mid segmentIndex slotIndex shardData keyShare nonce
      originalLen timestamp) mid = true := by
  simp [coarseVerify, newShare]

end Libraries

end Miasma.Dissolution
