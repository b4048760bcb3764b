import Miasma.Dissolution.Pipeline
import Miasma.Primitives

namespace Miasma.Dissolution

open Data List UInt8 MiasmaShare

/-! What is dissolved is retrieved, with ideal ciphers and codes.  Nothing is assumed of the hash. -/

/-- The ciphers do their work for these parameters. -/
structure Ideal (L : Libraries) (params : DissolutionParams) : Prop where
  seals : ∀ key nonce aad (plaintext : Bytes), plaintext.length < 2 ^ 32 →
    ∃ ciphertext, L.encrypt key nonce aad plaintext = .ok ciphertext ∧
      ciphertext.length = plaintext.length + 16 ∧ L.decrypt key nonce aad ciphertext = .ok plaintext
  derives : ∀ salt secret label, ∃ key, L.hkdf salt secret label = .ok key
  restores : L.RsIdeal params.dataShards params.totalShards
  combines : ∀ coefficients (secret : B32), Combines
    (L.deal (ofNat params.dataShards) secret.toList params.totalShards coefficients)
    (L.recover (ofNat params.dataShards)) params.dataShards params.totalShards secret.toList

/-- The parameters a segment can be dissolved with. -/
structure DissolutionParams.Valid (params : DissolutionParams) : Prop where
  some : 1 ≤ params.dataShards
  enough : params.dataShards ≤ params.totalShards
  few : params.totalShards ≤ 255

/-- A share, with a time of its own. -/
def Stamped (shares : List MiasmaShare) (piece : MiasmaShare) : Prop :=
  ∃ share ∈ shares, piece = { share with timestamp := piece.timestamp }

theorem Stamped.of_mem (there : share ∈ shares) : Stamped shares share := ⟨share, there, rfl⟩

/-- At least `count` of the shares with distinct slots, in any order, among shares that do
not pass. -/
def Mixed (passes : MiasmaShare → Bool) (shares : List MiasmaShare) (count : Nat) (given : List MiasmaShare) : Prop :=
  ∃ chosen junk, given.Perm (chosen ++ junk) ∧ chosen ⊆ shares ∧
    Distinct slotIndex chosen ∧ count ≤ chosen.length ∧ ∀ share ∈ junk, passes share = false

namespace Libraries

variable {L : Libraries} {params : DissolutionParams}

/-! ## The shares of one ciphertext -/

structure Carries (L : Libraries) (version : UInt8) (mid : ContentId) (index : UInt32)
    (params : DissolutionParams) (ciphertext : Bytes) (len : UInt32) (timestamp : UInt64)
    (draws : Draws) (recovery : List Bytes) (share : MiasmaShare) : Prop where
  made : share = L.newShare version mid index share.slotIndex share.shardData share.keyShare draws.nonce len timestamp
  shard : (dataShardsOf ciphertext params.dataShards ++ recovery)[share.slotIndex.toNat]? = some share.shardData
  fragment : (L.deal (ofNat params.dataShards) draws.key.toList params.totalShards
    draws.coefficients)[share.slotIndex.toNat]? = some share.keyShare

theorem sssSplit_eq (valid : params.Valid) :
    L.sssSplit secret (ofNat params.dataShards) (ofNat params.totalShards) coefficients =
      .ok (L.deal (UInt8.ofNat params.dataShards) secret params.totalShards coefficients) := by
  obtain ⟨some, enough, few⟩ := valid
  have count : (ofNat params.dataShards).toNat = params.dataShards := by
    rw [toNat_ofNat']
    omega
  have total : (ofNat params.totalShards).toNat = params.totalShards := by
    rw [toNat_ofNat']
    omega
  rw [sssSplit, if_neg, total]
  rw [UInt8.lt_iff_toNat_lt, ← UInt8.toNat_inj, ← UInt8.toNat_inj, count, total]
  simp only [UInt8.toNat_zero]
  omega

theorem getElem?_assemble {version : UInt8} {nonce : ByteVec 12} {timestamp : UInt64} {i : Nat} :
    (L.assemble version mid index shards keyShares nonce len timestamp)[i]? =
      (shards.zip keyShares)[i]?.map fun pair =>
        L.newShare version mid index (UInt16.ofNat i) pair.1 pair.2 nonce len timestamp := by
  simp [assemble]

variable {version : UInt8} {mid : ContentId} {index : UInt32} {ciphertext : Bytes} {len : UInt32}
  {timestamp : UInt64} {draws : Draws}

variable {recovery : List Bytes}

variable {passes : MiasmaShare → Bool} {shares given : List MiasmaShare}

theorem filter_of_mixed {count : Nat}
    (mixed : Mixed passes shares count given) (all : ∀ share ∈ shares, passes share = true) :
    given.filter passes ⊆ shares ∧ Distinct slotIndex (given.filter passes) ∧
      count ≤ (given.filter passes).length := by
  obtain ⟨chosen, junk, mixing, genuine, distinct, enough, fails⟩ := mixed
  have passing : (given.filter passes).Perm chosen := by
    have filtered := mixing.filter passes
    have none : junk.filter passes = [] := filter_eq_nil_iff.mpr fun share there => by
      simp [fails share there]
    rwa [filter_append, none, append_nil, filter_eq_self.mpr fun share there => all share (genuine there)] at filtered
  refine ⟨fun share there => genuine (passing.mem_iff.mp there), ?_, ?_⟩
  · exact (passing.map _).nodup_iff.mpr distinct
  rw [passing.length_eq]
  exact enough

variable {plaintext : Bytes}

theorem toNat_length (short : plaintext.length < 2 ^ 32) :
    (UInt32.ofNat plaintext.length).toNat = plaintext.length := by
  rw [UInt32.toNat_ofNat']
  omega

theorem made_of_stamped {nonce : ByteVec 12}
    (made : ∀ share ∈ shares, share = L.newShare version mid index share.slotIndex share.shardData
      share.keyShare nonce len timestamp) (stamped : Stamped shares piece) :
    piece = L.newShare version mid index piece.slotIndex piece.shardData piece.keyShare nonce len
      piece.timestamp := by
  obtain ⟨share, genuine, same⟩ := stamped
  rw [same, made share genuine]
  rfl

section

variable (ideal : Ideal L params)
include ideal

theorem aesKey_exists (passwordKey : Option UnlockedKey) (kEnc : B32)
    (mid : ContentId) (index : UInt32) : ∃ key, L.aesKey passwordKey kEnc mid index = .ok key := by
  cases passwordKey with
  | none => exact ⟨_, rfl⟩
  | some unlocked =>
    obtain ⟨key, derived⟩ := ideal.derives unlocked.pwKey.toList kEnc.toList
      (utf8 "miasma-seg-key-v1" ++ mid.digest.toList ++ toLE 4 index.toNat)
    exact ⟨key, by rw [aesKey, segmentKey, derived]; rfl⟩

section

variable (valid : params.Valid)
include valid

theorem splitShares_eq :
    ∃ shares recovery, L.splitShares version mid index params ciphertext len timestamp draws = .ok shares ∧
      Encodes L ciphertext params.dataShards params.totalShards recovery ∧
      shares.map (·.slotIndex.toNat) = range params.totalShards ∧
      ∀ share ∈ shares, Carries L version mid index params ciphertext len timestamp draws recovery share := by
  obtain ⟨recovery, encoded, encodes⟩ := rsEncode_eq ideal.restores valid.some valid.enough ciphertext
  have count := (ideal.combines draws.coefficients draws.key).1
  have total : (dataShardsOf ciphertext params.dataShards ++ recovery).length = params.totalShards := by
    rw [length_append, length_dataShardsOf, encodes.count]
    exact Nat.add_sub_cancel' valid.enough
  have small : ∀ i < params.totalShards, (UInt16.ofNat i).toNat = i := by
    intro i inside
    have few := valid.few
    rw [UInt16.toNat_ofNat']
    omega
  refine ⟨_, recovery, by rw [splitShares, encoded, Checked.ok_bind, sssSplit_eq valid]; rfl, encodes, ?_, ?_⟩
  · apply ext_getElem (by simp [assemble, total, count])
    intro i _ inside
    simp only [length_range] at inside
    simp [assemble, newShare, small i inside]
  intro share member
  obtain ⟨i, there⟩ := mem_iff_getElem?.mp member
  rw [getElem?_assemble] at there
  obtain ⟨⟨shard, fragment⟩, found, rfl⟩ := Option.map_eq_some_iff.mp there
  obtain ⟨here, key⟩ := getElem?_zip_eq_some.mp found
  have inside : i < params.totalShards := by
    obtain ⟨inside, _⟩ := List.getElem?_eq_some_iff.mp here
    omega
  exact ⟨rfl, by simpa only [newShare, small i inside] using here,
    by simpa only [newShare, small i inside] using key⟩

theorem openShares_eq (encodes : Encodes L ciphertext params.dataShards params.totalShards recovery)
    (distinct : Distinct slotIndex selected) (count : selected.length = params.dataShards)
    (carry : ∀ share ∈ selected, ∃ stamp,
      Carries L version mid index params ciphertext len stamp draws recovery share) :
    L.openShares selected params ciphertext.length = .ok (ciphertext, draws.key) := by
  have shards : Chosen ciphertext params.dataShards recovery
      (selected.map fun share => (share.slotIndex.toNat, share.shardData)) := by
    refine ⟨distinct.image fun _ _ _ _ same => UInt16.toNat_inj.mp same, ?_, by simp [count]⟩
    intro pair member
    obtain ⟨share, there, rfl⟩ := mem_map.mp member
    obtain ⟨_, carries⟩ := carry share there
    exact carries.shard
  have fragments : L.recover (ofNat params.dataShards) (selected.map keyShare) =
      .ok draws.key.toList := by
    have recovered := (ideal.combines draws.coefficients draws.key).2
      (selected.map fun share => (share.slotIndex.toNat, share.keyShare))
      (distinct.image fun _ _ _ _ same => UInt16.toNat_inj.mp same) ?_ (by simp [count])
    · simpa [map_map, Function.comp_def] using recovered
    intro pair member
    obtain ⟨share, there, rfl⟩ := mem_map.mp member
    obtain ⟨_, carries⟩ := carry share there
    exact carries.fragment
  have enough : ¬ (selected.map keyShare).length < (ofNat params.dataShards).toNat := by
    rw [toNat_ofNat', length_map]
    omega
  rw [openShares, rsDecode_eq ideal.restores valid.some valid.enough encodes shards, Checked.ok_bind,
    sssCombine, if_neg enough, fragments]
  simp [Except.mapError]

theorem openShares_of_mixed (encodes : Encodes L ciphertext params.dataShards params.totalShards recovery)
    (carry : ∀ share ∈ shares, ∃ stamp, Carries L version mid index params ciphertext len stamp draws recovery share)
    (all : ∀ share ∈ shares, passes share = true)
    (mixed : Mixed passes shares params.dataShards given) :
    ∃ first ∈ shares, ∃ selected, selectShares (given.filter passes) params.dataShards = .ok (first, selected) ∧
      L.openShares selected params ciphertext.length = .ok (ciphertext, draws.key) := by
  obtain ⟨genuine, distinct, enough⟩ := filter_of_mixed mixed all
  obtain ⟨first, there, select⟩ := selectShares_eq valid.some enough
  refine ⟨first, genuine there, _, select, ?_⟩
  exact openShares_eq ideal valid encodes (distinct.sublist (take_sublist _ _))
    (by rw [length_take, Nat.min_eq_left enough])
    fun share member => carry share (genuine (mem_of_mem_take member))

theorem splitShares_then_select (version : UInt8)
    (mid : ContentId) (index : UInt32) (ciphertext : Bytes) (len : UInt32) (timestamp : UInt64)
    (draws : Draws) :
    ∃ shares, L.splitShares version mid index params ciphertext len timestamp draws = .ok shares ∧
      shares.map (·.slotIndex.toNat) = range params.totalShards ∧
      (∀ share ∈ shares, share = L.newShare version mid index share.slotIndex share.shardData
        share.keyShare draws.nonce len timestamp) ∧
      ∀ {passes : MiasmaShare → Bool} {pieces given : List MiasmaShare},
        (∀ piece ∈ pieces, Stamped shares piece) → (∀ piece ∈ pieces, passes piece = true) →
        Mixed passes pieces params.dataShards given →
        ∃ first ∈ pieces, ∃ selected, selectShares (given.filter passes) params.dataShards = .ok (first, selected) ∧
          L.openShares selected params ciphertext.length = .ok (ciphertext, draws.key) := by
  obtain ⟨shares, recovery, split, encodes, slots, carry⟩ :=
    splitShares_eq ideal valid
  refine ⟨shares, split, slots, fun share there => (carry share there).made, ?_⟩
  intro passes pieces given stamped all mixed
  have later : ∀ piece ∈ pieces, ∃ stamp,
      Carries L version mid index params ciphertext len stamp draws recovery piece := by
    intro piece there
    obtain ⟨share, genuine, same⟩ := stamped piece there
    have carries := carry share genuine
    refine ⟨piece.timestamp, ?_, ?_, ?_⟩
    · rw [same, carries.made]
      rfl
    · rw [same]
      exact carries.shard
    · rw [same]
      exact carries.fragment
  exact openShares_of_mixed ideal valid encodes later all mixed

theorem splitShares_then_open
    (short : plaintext.length < 2 ^ 32) (key : B32) (mid : ContentId) (index : UInt32)
    (timestamp : UInt64) (draws : Draws) :
    ∃ ciphertext shares, L.encryptWithKey plaintext key draws.nonce = .ok ciphertext ∧
      L.splitShares 1 mid index params ciphertext (UInt32.ofNat plaintext.length) timestamp draws = .ok shares ∧
      shares.map (·.slotIndex.toNat) = range params.totalShards ∧
      (∀ share ∈ shares, share = L.newShare 1 mid index share.slotIndex share.shardData
        share.keyShare draws.nonce (UInt32.ofNat plaintext.length) timestamp) ∧
      ∀ {passes : MiasmaShare → Bool} {pieces given : List MiasmaShare},
        (∀ piece ∈ pieces, Stamped shares piece) → (∀ piece ∈ pieces, passes piece = true) →
        Mixed passes pieces params.dataShards given →
        ∃ first selected, selectShares (given.filter passes) params.dataShards = .ok (first, selected) ∧
          first.originalLen.toNat = plaintext.length ∧
          L.openShares selected params (plaintext.length + 16) = .ok (ciphertext, draws.key) ∧
          L.decryptWithKey ciphertext key first.nonce = .ok plaintext := by
  obtain ⟨ciphertext, sealed, longer, opened⟩ := ideal.seals key draws.nonce [] plaintext short
  obtain ⟨shares, split, slots, made, opens⟩ := splitShares_then_select ideal valid 1 mid index ciphertext
    (UInt32.ofNat plaintext.length) timestamp draws
  refine ⟨ciphertext, shares, by rw [encryptWithKey, sealed]; rfl, split, slots, made, ?_⟩
  intro passes pieces given stamped all mixed
  obtain ⟨first, there, selected, select, joined⟩ := opens stamped all mixed
  have carries := made_of_stamped made (stamped first there)
  refine ⟨first, selected, select, ?_, by rw [← longer]; exact joined, ?_⟩
  · rw [carries]
    exact toNat_length short
  rw [decryptWithKey, carries]
  simp only [newShare, opened]
  rfl

/-- Any mix with enough of the segment's shares gives its bytes back. -/
def Recovers (L : Libraries) (params : DissolutionParams) (mid : ContentId) (index : UInt32)
    (shares : List MiasmaShare) (data : Bytes)
    (retrieve : List MiasmaShare → SegmentMeta → Checked MiasmaError Bytes) : Prop :=
  ∀ ⦃pieces given : List MiasmaShare⦄ ⦃info : SegmentMeta⦄, info.index = index →
    info.plaintextLen = UInt32.ofNat data.length → (∀ piece ∈ pieces, Stamped shares piece) →
    Mixed (fun share => share.segmentIndex = index && L.coarseVerify share mid) pieces params.dataShards given →
    retrieve given info = .ok data

theorem dissolveSegmentWithAt_then_retrieve (short : data.length < 2 ^ 32) (mid : ContentId) (index : UInt32)
    (offset : UInt64) (passwordKey : Option UnlockedKey) (timestamp : UInt64) (draws : Draws) :
    ∃ shares, L.dissolveSegmentWithAt data mid index offset params passwordKey timestamp draws =
        .ok (segmentMeta data index offset params, shares) ∧
      shares.map (·.slotIndex.toNat) = range params.totalShards ∧
      (∀ share ∈ shares, share = L.newShare 1 mid index share.slotIndex share.shardData
        share.keyShare draws.nonce (UInt32.ofNat data.length) timestamp) ∧
      L.Recovers params mid index shares data fun given info =>
        L.retrieveSegmentWith mid given info params passwordKey := by
  obtain ⟨key, derived⟩ := aesKey_exists ideal passwordKey draws.key mid index
  obtain ⟨ciphertext, shares, sealed, split, slots, made, opens⟩ :=
    splitShares_then_open ideal valid short key mid index timestamp draws
  refine ⟨shares, by simp only [dissolveSegmentWithAt, derived, Checked.ofExcept_ok,
    Checked.ok_bind, sealed, split]; rfl, slots, made, ?_⟩
  rintro pieces given info rfl len stamped mixed
  obtain ⟨first, selected, select, _, joined, opened⟩ := opens stamped (fun piece there => by
    rw [made_of_stamped made (stamped piece there)]
    simp [newShare, coarseVerify]) mixed
  rw [← toNat_length short, ← len] at joined
  exact L.retrieveSegmentWith_eq select joined derived opened

end

end

end Libraries

open Libraries

/-- What is dissolved is retrieved, from any sufficient part of the shares. -/
theorem dissolve_then_retrieve (L : Libraries) (params : DissolutionParams) (ideal : Ideal L params)
    (valid : params.Valid) (timestamp : UInt64) (draws : Draws) :
    (∀ plaintext : Bytes, plaintext.length < 2 ^ 32 - 16 →
      ∃ mid shares, L.dissolveAt plaintext params timestamp draws = .ok (mid, shares) ∧
        shares.map (·.slotIndex.toNat) = range params.totalShards ∧
        ∀ given, Mixed (L.coarseVerify · mid) shares params.dataShards given →
          L.retrieve mid given params = .ok plaintext) ∧
    (∀ (data : Bytes) (mid : ContentId) (index : UInt32) (offset : UInt64)
      (passwordKey : Option UnlockedKey), data.length < 2 ^ 32 - 16 →
      ∃ info shares, L.dissolveSegmentWithAt data mid index offset params passwordKey timestamp draws =
          .ok (info, shares) ∧
        shares.map (·.slotIndex.toNat) = range params.totalShards ∧
        ∀ given, Mixed (fun share => share.segmentIndex = index && L.coarseVerify share mid) shares
            params.dataShards given →
          L.retrieveSegmentWith mid given info params passwordKey = .ok data) := by
  constructor
  · intro plaintext short
    have fits : plaintext.length < 2 ^ 32 := by omega
    obtain ⟨ciphertext, shares, sealed, split, slots, made, opens⟩ := splitShares_then_open ideal valid fits draws.key
        (L.compute plaintext params.toParamBytes) 0 timestamp draws
    refine ⟨_, shares, by rw [dissolveAt, sealed, Checked.ofExcept_ok, Checked.ok_bind, split]; rfl, slots, ?_⟩
    have passes : ∀ share ∈ shares, L.coarseVerify share (L.compute plaintext params.toParamBytes) = true := by
      intro share there
      rw [made share there]
      exact coarseVerify_newShare L ..
    intro given mixed
    obtain ⟨first, selected, select, len, joined, opened⟩ := opens (fun _ there => .of_mem there) passes mixed
    have enough : ¬ given.length < params.dataShards := by
      obtain ⟨_, _, enough⟩ := filter_of_mixed mixed passes
      have fewer := length_filter_le (L.coarseVerify · (L.compute plaintext params.toParamBytes)) given
      omega
    simp [Libraries.retrieve, enough, select, len, joined, opened, fullVerify]
  · intro data mid index offset passwordKey short
    obtain ⟨shares, dissolved, slots, _, retrieves⟩ := dissolveSegmentWithAt_then_retrieve ideal valid
      (by omega : data.length < 2 ^ 32) mid index offset passwordKey timestamp draws
    exact ⟨_, shares, dissolved, slots, fun given mixed => retrieves rfl rfl (fun _ there => .of_mem there) mixed⟩

/-! ## Two shards and their parity -/

namespace Parity

/-- A computable instance for two data shards and one recovery shard, their sum bit by bit.
The tag is sixteen zeros and each fragment is the key. -/
def libraries : Libraries where
  blake3 := Primitives.checksum.deriveKey "blake3"
  deriveKey := Primitives.checksum.deriveKey
  encrypt _ _ _ plaintext := .ok (plaintext ++ replicate 16 0)
  decrypt _ _ _ ciphertext := if 16 ≤ ciphertext.length then .ok (ciphertext.take (ciphertext.length - 16))
    else .error "aead::Error"
  hkdf salt secret label := .ok (Primitives.checksum.deriveKey "hkdf" (salt ++ secret ++ label))
  rsEncoder _ _ _ originals := match originals with
    | [left, right] => .ok [zipWith (· ^^^ ·) left right]
    | _ => .error "two shards"
  rsDecoder _ _ _ present extra := match present, extra with
    | [(_, shard)], [(_, sum)] => .ok fun _ => some (zipWith (· ^^^ ·) shard sum)
    | _, _ => .error "one of each"
  deal _ secret count _ := replicate count secret
  recover _ shares := match shares with
    | share :: _ => .ok share
    | [] => .error "no shares"

def params : DissolutionParams := ⟨2, 3⟩

theorem xor_xor_cancel {left right : Bytes} (same : left.length = right.length) :
    zipWith (· ^^^ ·) left (zipWith (· ^^^ ·) left right) = right := by
  induction left generalizing right with
  | nil => simpa [eq_comm] using same
  | cons byte rest ih =>
    obtain ⟨other, others, rfl⟩ := exists_cons_of_length_pos (by simp [← same] : 0 < right.length)
    simp [ih (by simpa using same), ← UInt8.xor_assoc]

theorem restores : libraries.RsIdeal 2 3 := by
  intro _ len _ _
  constructor
  · intro pieces two lengths
    obtain ⟨left, right, rfl⟩ := length_eq_two.mp two
    refine ⟨_, rfl, rfl, ?_⟩
    simp only [mem_cons, not_mem_nil, or_false, forall_eq_or_imp, forall_eq] at lengths ⊢
    simp [lengths.1, lengths.2]
  intro pieces more present extra two lengths encoded _ genuine distinct spare count fewer
  obtain ⟨left, right, rfl⟩ := length_eq_two.mp two
  cases encoded
  simp only [mem_cons, not_mem_nil, or_false, forall_eq_or_imp, forall_eq] at lengths
  have one : extra.length ≤ 1 := length_le_of_below distinct fun pair there => by
    obtain ⟨inside, _⟩ := List.getElem?_eq_some_iff.mp (spare pair there)
    simpa using inside
  obtain ⟨⟨i, shard⟩, rfl⟩ := length_eq_one_iff.mp (by omega : present.length = 1)
  obtain ⟨⟨j, sum⟩, rfl⟩ := length_eq_one_iff.mp (by simp at count; omega : extra.length = 1)
  refine ⟨_, rfl, ?_⟩
  have given := genuine _ (mem_singleton_self _)
  have sums := spare _ (mem_singleton_self _)
  have first : j = 0 := by
    obtain ⟨inside, _⟩ := List.getElem?_eq_some_iff.mp sums
    simpa using inside
  subst first
  cases sums
  intro k inside apart
  have other : i ≠ k := apart _ (mem_singleton_self _)
  have either : i = 0 ∧ k = 1 ∨ i = 1 ∧ k = 0 := by
    obtain ⟨below, _⟩ := List.getElem?_eq_some_iff.mp given
    omega
  obtain ⟨rfl, rfl⟩ | ⟨rfl, rfl⟩ := either
  · cases given
    simp [xor_xor_cancel (lengths.1.trans lengths.2.symm)]
  have swapped : zipWith (· ^^^ ·) left right = zipWith (· ^^^ ·) right left :=
    List.zipWith_comm_of_comm UInt8.xor_comm
  have cancel := xor_xor_cancel (lengths.2.trans lengths.1.symm)
  rw [swapped]
  cases given
  simp [cancel]

theorem ideal : Ideal libraries params where
  seals key nonce aad plaintext _ := ⟨_, rfl, by simp, by simp [libraries]⟩
  derives salt secret label := ⟨_, rfl⟩
  restores := restores
  combines coefficients secret := by
    refine ⟨by simp [libraries, params], ?_⟩
    intro chosen _ genuine count
    obtain ⟨first, rest, rfl⟩ := exists_cons_of_length_pos (by simp [count, params] : 0 < chosen.length)
    have given := genuine first (by simp)
    simp only [libraries, getElem?_replicate] at given
    split at given
    · simpa [libraries, eq_comm] using given
    · cases given

theorem dissolve_then_retrieve_three_bytes :
    ∃ mid shares, libraries.dissolveAt [7, 8, 9] params 1000 ⟨.fill 32 1, .fill 12 2, 0⟩ = .ok (mid, shares) ∧
      shares.map (·.slotIndex.toNat) = [0, 1, 2] ∧
      ∀ given, Mixed (libraries.coarseVerify · mid) shares 2 given →
        libraries.retrieve mid given params = .ok [7, 8, 9] :=
  (dissolve_then_retrieve libraries params ideal ⟨by decide, by decide, by decide⟩ 1000
    ⟨.fill 32 1, .fill 12 2, 0⟩).1 [7, 8, 9] (by decide)

end Parity

end Miasma.Dissolution
