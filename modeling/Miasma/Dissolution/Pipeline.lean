import Miasma.Dissolution.ReedSolomon

namespace Miasma.Dissolution

open Data Checked

/-! Dissolving content into shares and retrieving it (`pipeline.rs`, `dissolution/segment.rs`,
`crypto/aead.rs`, `crypto/sss.rs`). -/

structure Draws where
  key : B32
  nonce : ByteVec 12
  coefficients : Nat

structure UnlockedKey where
  pwKey : B32
deriving DecidableEq

structure SegmentMeta where
  index : UInt32
  offsetBytes : UInt64
  plaintextLen : UInt32
  shareCount : UInt16
deriving DecidableEq

/-- A `DissolutionManifest`, with what retrieval reads of it. -/
structure DissolutionManifest where
  mid : ContentId
  params : DissolutionParams
  totalBytes : UInt64
  segments : List SegmentMeta

namespace Libraries

variable (L : Libraries)

/-! ## The key and its fragments -/

def sssSplit (secret : Bytes) (k n : UInt8) (coefficients : Nat) : Except MiasmaError (List Bytes) :=
  if k = 0 ∨ n = 0 ∨ n < k then
    .error (.sss s!"invalid parameters: k={k}, n={n} (require 0 < k <= n)")
  else .ok (L.deal k secret n.toNat coefficients)

def sssCombine (shares : List Bytes) (k : UInt8) : Except MiasmaError Bytes :=
  if shares.length < k.toNat then .error (.insufficientShares k.toNat shares.length)
  else (L.recover k shares).mapError .sss

def encryptWithKey (plaintext : Bytes) (key : B32) (nonce : ByteVec 12) :
    Except MiasmaError Bytes :=
  (L.encrypt key nonce [] plaintext).mapError .encryption

def decryptWithKey (ciphertext : Bytes) (key : B32) (nonce : ByteVec 12) :
    Except MiasmaError Bytes :=
  (L.decrypt key nonce [] ciphertext).mapError .decryption

def segmentKey (unlocked : UnlockedKey) (kEnc : B32) (mid : ContentId) (index : UInt32) :
    Except MiasmaError B32 :=
  (L.hkdf unlocked.pwKey.toList kEnc.toList
    (utf8 "miasma-seg-key-v1" ++ mid.digest.toList ++ toLE 4 index.toNat)).mapError .keyDerivation

/-- The key a segment is encrypted under: `K_enc` itself, or mixed with the password's. -/
def aesKey (passwordKey : Option UnlockedKey) (kEnc : B32) (mid : ContentId) (index : UInt32) :
    Except MiasmaError B32 :=
  match passwordKey with
  | none => .ok kEnc
  | some unlocked => L.segmentKey unlocked kEnc mid index

/-! ## Dissolving -/

/-- One share for each shard and fragment, numbered from zero. -/
def assemble (version : UInt8) (mid : ContentId) (index : UInt32) (shards keyShares : List Bytes)
    (nonce : ByteVec 12) (originalLen : UInt32) (timestamp : UInt64) : List MiasmaShare :=
  (shards.zip keyShares).mapIdx fun i pair =>
    L.newShare version mid index (UInt16.ofNat i) pair.1 pair.2 nonce originalLen timestamp

/-- The steps both ways to dissolve share, from the ciphertext on. -/
def splitShares (version : UInt8) (mid : ContentId) (index : UInt32) (params : DissolutionParams)
    (ciphertext : Bytes) (originalLen : UInt32) (timestamp : UInt64) (draws : Draws) :
    Checked MiasmaError (List MiasmaShare) := do
  let shards ← L.rsEncode ciphertext params.dataShards params.totalShards
  let keyShares ← ofExcept (L.sssSplit draws.key.toList (UInt8.ofNat params.dataShards)
    (UInt8.ofNat params.totalShards) draws.coefficients)
  return L.assemble version mid index shards keyShares draws.nonce originalLen timestamp

def dissolveAt (plaintext : Bytes) (params : DissolutionParams) (timestamp : UInt64)
    (draws : Draws) : Checked MiasmaError (ContentId × List MiasmaShare) := do
  let mid := L.compute plaintext params.toParamBytes
  let ciphertext ← ofExcept (L.encryptWithKey plaintext draws.key draws.nonce)
  let shares ← L.splitShares 1 mid 0 params ciphertext (UInt32.ofNat plaintext.length) timestamp draws
  return (mid, shares)

def segmentMeta (data : Bytes) (index : UInt32) (offsetBytes : UInt64)
    (params : DissolutionParams) : SegmentMeta :=
  { index, offsetBytes, plaintextLen := UInt32.ofNat data.length,
    shareCount := UInt16.ofNat params.totalShards }

def dissolveSegmentWithAt (data : Bytes) (mid : ContentId) (index : UInt32) (offsetBytes : UInt64)
    (params : DissolutionParams) (passwordKey : Option UnlockedKey) (timestamp : UInt64)
    (draws : Draws) : Checked MiasmaError (SegmentMeta × List MiasmaShare) := do
  let key ← ofExcept (L.aesKey passwordKey draws.key mid index)
  let ciphertext ← ofExcept (L.encryptWithKey data key draws.nonce)
  let shares ← L.splitShares 1 mid index params ciphertext (UInt32.ofNat data.length) timestamp draws
  return (segmentMeta data index offsetBytes params, shares)

/-! ## Retrieving -/

/-- The first `dataShards` shares and the one their metadata is read from. -/
def selectShares (valid : List MiasmaShare) (dataShards : Nat) :
    Checked MiasmaError (MiasmaShare × List MiasmaShare) :=
  if valid.length < dataShards then .error (.insufficientShares dataShards valid.length)
  else do
    let selected ← firsts valid dataShards
    let first ← expect selected.head?
    return (first, selected)

def openShares (selected : List MiasmaShare) (params : DissolutionParams) (ciphertextLen : Nat) :
    Checked MiasmaError (Bytes × B32) := do
  let ciphertext ← L.rsDecode (selected.map fun share => (share.slotIndex.toNat, share.shardData))
    params.dataShards params.totalShards ciphertextLen
  let kEnc ← ofExcept (L.sssCombine (selected.map MiasmaShare.keyShare) (UInt8.ofNat params.dataShards))
  match ByteVec.ofList? 32 kEnc with
  | none => .error (.sss "recovered K_enc has wrong length")
  | some key => .ok (ciphertext, key)

variable (mid : ContentId) (shares : List MiasmaShare)

def retrieve (params : DissolutionParams) : Checked MiasmaError Bytes :=
  if shares.length < params.dataShards then .error (.insufficientShares params.dataShards shares.length)
  else do
    let (first, selected) ← selectShares (shares.filter (L.coarseVerify · mid)) params.dataShards
    let (ciphertext, key) ← L.openShares selected params (first.originalLen.toNat + 16)
    let plaintext ← ofExcept (L.decryptWithKey ciphertext key first.nonce)
    ofExcept (L.fullVerify plaintext params.toParamBytes mid)
    return plaintext

def segmentShares (index : UInt32) : List MiasmaShare :=
  shares.filter fun share => share.segmentIndex = index && L.coarseVerify share mid

def retrieveSegmentWith (info : SegmentMeta)
    (params : DissolutionParams) (passwordKey : Option UnlockedKey) : Checked MiasmaError Bytes := do
  let (first, selected) ← selectShares (L.segmentShares mid shares info.index) params.dataShards
  let (ciphertext, kEnc) ← L.openShares selected params (info.plaintextLen.toNat + 16)
  let key ← ofExcept (L.aesKey passwordKey kEnc mid info.index)
  ofExcept (L.decryptWithKey ciphertext key first.nonce)

def retrieveSegment (info : SegmentMeta) (params : DissolutionParams) : Checked MiasmaError Bytes :=
  L.retrieveSegmentWith mid shares info params none

/-- `dissolution::retrieve_file`.  The buffer is reserved first, and a size above the largest
allocation stops there. -/
def retrieveFile (manifest : DissolutionManifest) (shares : List MiasmaShare) : Checked MiasmaError Bytes :=
  if 2 ^ 63 ≤ manifest.totalBytes.toNat then .panic
  else do
    let segments ← each (fun info => L.retrieveSegment manifest.mid
      (shares.filter fun share => share.segmentIndex = info.index) info manifest.params) manifest.segments
    let output := segments.flatten
    ofExcept (L.fullVerify output manifest.params.toParamBytes manifest.mid)
    return output

variable {shares : List MiasmaShare} {params : DissolutionParams}

theorem retrieveSegmentWith_eq {mid : ContentId}
    (select : selectShares (L.segmentShares mid shares info.index) params.dataShards = .ok (first, selected))
    (joined : L.openShares selected params (info.plaintextLen.toNat + 16) = .ok (ciphertext, kEnc))
    (derived : L.aesKey passwordKey kEnc mid info.index = .ok key)
    (opened : L.decryptWithKey ciphertext key first.nonce = .ok plaintext) :
    L.retrieveSegmentWith mid shares info params passwordKey = .ok plaintext := by
  simp only [retrieveSegmentWith, select, ok_bind, joined, derived, opened, ofExcept_ok]

/-! ## What retrieval returns -/

theorem compute_of_retrieve {mid : ContentId} (returned : L.retrieve mid shares params = .ok data) :
    L.compute data params.toParamBytes = mid := by
  simp only [retrieve] at returned
  split at returned
  · cases returned
  obtain ⟨_, _, returned⟩ := bind_eq_ok_iff.mp returned
  obtain ⟨_, _, returned⟩ := bind_eq_ok_iff.mp returned
  obtain ⟨_, _, returned⟩ := bind_eq_ok_iff.mp returned
  obtain ⟨_, verified, returned⟩ := bind_eq_ok_iff.mp returned
  cases returned
  exact L.fullVerify_ok_iff.mp (ofExcept_eq_ok_iff.mp verified)

theorem compute_of_retrieveFile (returned : L.retrieveFile manifest shares = .ok data) :
    L.compute data manifest.params.toParamBytes = manifest.mid := by
  simp only [retrieveFile] at returned
  split at returned
  · cases returned
  obtain ⟨_, _, returned⟩ := bind_eq_ok_iff.mp returned
  obtain ⟨_, verified, returned⟩ := bind_eq_ok_iff.mp returned
  cases returned
  exact L.fullVerify_ok_iff.mp (ofExcept_eq_ok_iff.mp verified)

/-! ## Where retrieval stops -/

variable {valid : List MiasmaShare}

theorem selectShares_eq (some : 0 < dataShards) (enough : dataShards ≤ valid.length) :
    ∃ first ∈ valid, selectShares valid dataShards = .ok (first, valid.take dataShards) := by
  obtain ⟨first, rest, rfl⟩ := List.exists_cons_of_length_pos (by omega : 0 < valid.length)
  obtain ⟨more, rfl⟩ := Nat.exists_eq_succ_of_ne_zero (Nat.ne_of_gt some)
  refine ⟨first, by simp, ?_⟩
  rw [selectShares, if_neg (Nat.not_lt.mpr enough), firsts_of_le enough]
  rfl

theorem selectShares_eq_panic_iff : selectShares valid dataShards = .panic ↔ dataShards = 0 := by
  rcases Nat.eq_zero_or_pos dataShards with rfl | some
  · simp [selectShares, firsts, expect]
  by_cases enough : dataShards ≤ valid.length
  · obtain ⟨first, _, same⟩ := selectShares_eq some enough
    simp [same, Nat.ne_of_gt some]
  · simp [selectShares, Nat.lt_of_not_le enough, Nat.ne_of_gt some]

theorem openShares_ne_panic : L.openShares selected params ciphertextLen ≠ .panic := by
  refine bind_ne_panic (L.rsDecode_ne_panic _ _ _ _) fun ciphertext _ => ?_
  refine bind_ne_panic (by simp) fun kEnc _ => ?_
  split <;> simp

theorem retrieve_eq_panic_iff (mid : ContentId) (shares : List MiasmaShare) (params : DissolutionParams) :
    L.retrieve mid shares params = .panic ↔ params.dataShards = 0 := by
  simp only [retrieve]
  split
  · simp only [reduceCtorEq, false_iff]
    omega
  rw [bind_eq_panic_iff, selectShares_eq_panic_iff, or_iff_left]
  rintro ⟨⟨first, selected⟩, _, stops⟩
  revert stops
  refine bind_ne_panic (L.openShares_ne_panic) fun _ _ => ?_
  refine bind_ne_panic (by simp) fun _ _ => ?_
  exact bind_ne_panic (by simp) (by simp)

theorem retrieveSegmentWith_eq_panic_iff (mid : ContentId) (shares : List MiasmaShare) (info : SegmentMeta)
    (params : DissolutionParams) (passwordKey : Option UnlockedKey) :
    L.retrieveSegmentWith mid shares info params passwordKey = .panic ↔ params.dataShards = 0 := by
  rw [retrieveSegmentWith, bind_eq_panic_iff, selectShares_eq_panic_iff, or_iff_left]
  rintro ⟨⟨first, selected⟩, _, stops⟩
  revert stops
  refine bind_ne_panic (L.openShares_ne_panic) fun _ _ => ?_
  exact bind_ne_panic (by simp) (by simp)

end Libraries

end Miasma.Dissolution
