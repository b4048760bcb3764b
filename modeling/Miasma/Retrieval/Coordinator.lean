import Miasma.Data.Outcome
import Miasma.Network.Record
import Miasma.Retrieval.Fetch

namespace Miasma.Retrieval

open Data Dissolution Network Checked

/-! Retrieval of a content item (`retrieval/coordinator.rs`) and over the network
(`network/coordinator.rs`).  A source says, for each collection, in which order the candidates
are asked, what each answers and under which schedule. -/

structure Source where
  policy : FetchPolicy
  asked : Nat → List Candidate
  choices : Nat → Nat → Choice

namespace Source

variable (source : Source) (L : Libraries)

/-- The collection for one segment, the `call`-th of the retrieval. -/
def order (call : Nat) (mid : ContentId) (segmentIndex : UInt32) (params : DissolutionParams) : Order :=
  ⟨L, mid, segmentIndex, params.dataShards, source.policy, source.choices call⟩

/-- `collect_segment_from_candidates`. -/
def collectSegment (call : Nat) (mid : ContentId) (segmentIndex : UInt32) (params : DissolutionParams) :
    Except MiasmaError (List MiasmaShare) := do
  let valid ← (source.order L call mid segmentIndex params).collectVerifiedShares (source.asked call)
  if valid.length < params.dataShards then .error (.insufficientShares params.dataShards valid.length)
  else .ok valid

def collectKShares (call : Nat) (mid : ContentId) (segmentIndex : UInt32) (params : DissolutionParams) :
    Except MiasmaError (List MiasmaShare) :=
  if (source.asked call).isEmpty then .error (.insufficientShares params.dataShards 0)
  else source.collectSegment L call mid segmentIndex params

def retrieve (mid : ContentId) (params : DissolutionParams) : Checked MiasmaError Bytes := do
  let valid ← ofExcept (source.collectKShares L 0 mid 0 params)
  L.retrieve mid valid params

/-- One round of `retrieve_segments`; the length of the segment is read from its first share. -/
def retrieveSegmentAt (mid : ContentId) (params : DissolutionParams) (i : Nat) :
    Checked MiasmaError Bytes := do
  let index := UInt32.ofNat i
  let valid ← ofExcept (source.collectKShares L i mid index params)
  let first ← expect valid.head?
  L.retrieveSegment mid valid ⟨index, 0, first.originalLen, UInt16.ofNat params.totalShards⟩ params

def retrieveSegments (mid : ContentId) (segmentCount : UInt32) (params : DissolutionParams) :
    Checked MiasmaError Bytes := do
  let segments ← each (source.retrieveSegmentAt L mid params) (List.range segmentCount.toNat)
  return segments.flatten

def retrieveFile (manifest : DissolutionManifest) : Checked MiasmaError Bytes := do
  let shares ← each (fun (info, call) => ofExcept
    (source.collectSegment L call manifest.mid info.index manifest.params)) manifest.segments.zipIdx
  L.retrieveFile manifest shares.flatten

end Source

/-! ## Over the network -/

/-- One attempt: what the lookup of the record gives, and the source of the shares. -/
structure Attempt where
  record : Except MiasmaError (Option DhtRecord)
  source : Source

def Attempt.maxSegment (attempt : Attempt) : Except MiasmaError UInt32 := do
  match ← attempt.record with
  | some record => do
    record.validate
    return record.maxSegment
  | none => return 0

def retrieveFromNetworkOnce (L : Libraries) (attempt : Attempt) (mid : ContentId)
    (params : DissolutionParams) : Checked MiasmaError Bytes := do
  let maxSeg ← ofExcept attempt.maxSegment
  if maxSeg = 0 then attempt.source.retrieve L mid params
  else attempt.source.retrieveSegments L mid (maxSeg + 1) params

def maxAttempts : Nat := 6

/-- The attempts from `n` on, of which `left` may be repeated. -/
def retrieveFrom (L : Libraries) (attempts : Nat → Attempt) (mid : ContentId)
    (params : DissolutionParams) : Nat → Nat → Checked MiasmaError Bytes
  | 0, n => retrieveFromNetworkOnce L (attempts n) mid params
  | left + 1, n =>
    match retrieveFromNetworkOnce L (attempts n) mid params with
    | .error (.insufficientShares _ _) => retrieveFrom L attempts mid params left (n + 1)
    | result => result

def retrieveFromNetwork (L : Libraries) (attempts : Nat → Attempt) (mid : ContentId)
    (params : DissolutionParams) : Checked MiasmaError Bytes :=
  retrieveFrom L attempts mid params maxAttempts 0

/-! ## Where retrieval stops -/

namespace Source

variable {source : Source} {L : Libraries} {mid : ContentId} {params : DissolutionParams}

theorem collected_of_collectKShares
    (collected : source.collectKShares L call mid segmentIndex params = .ok valid) :
    valid.length = params.dataShards ∧ source.asked call ≠ [] ∧
      (source.order L call mid segmentIndex params).Collected (source.asked call) valid := by
  simp only [collectKShares] at collected
  split at collected
  · cases collected
  rename_i some
  obtain ⟨shares, returned, enough⟩ := bind_ok_iff.mp collected
  obtain ⟨enough, same⟩ := ite_ok_iff.mp enough
  cases same
  have found := Order.collected_of_ok returned
  exact ⟨Nat.le_antisymm found.atMost (Nat.not_lt.mp enough), by simpa using some, found⟩

theorem collectKShares_of_zero (zero : params.dataShards = 0) (some : source.asked call ≠ []) :
    source.collectKShares L call mid segmentIndex params = .ok [] := by
  simp [collectKShares, some, collectSegment, order, Order.collectVerifiedShares, zero, Bind.bind, Except.bind]

theorem retrieve_eq_panic_iff :
    source.retrieve L mid params = .panic ↔ params.dataShards = 0 ∧ source.asked 0 ≠ [] := by
  simp only [retrieve, bind_eq_panic_iff, ofExcept_ne_panic, false_or,
    ofExcept_eq_ok_iff, Libraries.retrieve_eq_panic_iff]
  constructor
  · rintro ⟨valid, collected, zero⟩
    exact ⟨zero, (collected_of_collectKShares collected).2.1⟩
  · rintro ⟨zero, some⟩
    exact ⟨[], collectKShares_of_zero zero some, zero⟩

theorem retrieveSegmentAt_eq_panic_iff :
    source.retrieveSegmentAt L mid params i = .panic ↔ params.dataShards = 0 ∧ source.asked i ≠ [] := by
  simp only [retrieveSegmentAt, bind_eq_panic_iff, ofExcept_ne_panic, false_or,
    ofExcept_eq_ok_iff, expect_eq_panic_iff, expect_eq_ok_iff,
    Libraries.retrieveSegment, Libraries.retrieveSegmentWith_eq_panic_iff]
  constructor
  · rintro ⟨valid, collected, none | ⟨_, _, zero⟩⟩
    · obtain ⟨count, some, _⟩ := collected_of_collectKShares collected
      rw [List.head?_eq_none_iff] at none
      exact ⟨by simp [← count, none], some⟩
    · exact ⟨zero, (collected_of_collectKShares collected).2.1⟩
  · rintro ⟨zero, some⟩
    exact ⟨[], collectKShares_of_zero zero some, .inl rfl⟩

theorem retrieveSegmentAt_of_unasked (unasked : source.asked i = []) :
    source.retrieveSegmentAt L mid params i = .error (.insufficientShares params.dataShards 0) := by
  simp [retrieveSegmentAt, collectKShares, unasked]

theorem retrieveSegments_eq_panic_iff :
    source.retrieveSegments L mid segmentCount params = .panic ↔
      params.dataShards = 0 ∧ 0 < segmentCount.toNat ∧ source.asked 0 ≠ [] := by
  rw [retrieveSegments, bind_eq_panic_iff, or_iff_left (by simp)]
  constructor
  · intro stops
    by_cases zero : params.dataShards = 0
    · refine ⟨zero, ?_⟩
      cases count : segmentCount.toNat with
      | zero =>
        rw [count] at stops
        cases stops
      | succ more =>
        refine ⟨Nat.succ_pos more, fun unasked => ?_⟩
        rw [count, List.range_succ_eq_map, each, retrieveSegmentAt_of_unasked unasked] at stops
        cases stops
    · refine absurd stops (each_ne_panic fun i _ => ?_)
      rw [Ne, retrieveSegmentAt_eq_panic_iff]
      exact fun both => zero both.1
  · rintro ⟨zero, some, asked⟩
    obtain ⟨more, count⟩ := Nat.exists_eq_succ_of_ne_zero (Nat.ne_of_gt some)
    rw [count, List.range_succ_eq_map, each, retrieveSegmentAt_eq_panic_iff.mpr ⟨zero, asked⟩]
    rfl

end Source

/-- For every number of shards a byte can name, retrieval stops exactly where it is asked for
no data shards and has someone to ask. -/
theorem retrieval_panics_iff (L : Libraries) (source : Source) (mid : ContentId) (k n : UInt8) :
    (source.retrieve L mid ⟨k.toNat, n.toNat⟩ = .panic ↔ k = 0 ∧ source.asked 0 ≠ []) ∧
    (∀ segmentCount, source.retrieveSegments L mid segmentCount ⟨k.toNat, n.toNat⟩ = .panic ↔
      k = 0 ∧ 0 < segmentCount.toNat ∧ source.asked 0 ≠ []) ∧
    (∀ shares, L.retrieve mid shares ⟨k.toNat, n.toNat⟩ = .panic ↔ k = 0) ∧
    (∀ shares info passwordKey,
      L.retrieveSegmentWith mid shares info ⟨k.toNat, n.toNat⟩ passwordKey = .panic ↔ k = 0) ∧
    (∀ available originalLen, L.rsDecode available k.toNat n.toNat originalLen ≠ .panic) := by
  have zero : k.toNat = 0 ↔ k = 0 := UInt8.toNat_inj (b := 0)
  refine ⟨?_, fun _ => ?_, fun _ => ?_, fun _ _ _ => ?_, fun available originalLen => ?_⟩
  · rw [Source.retrieve_eq_panic_iff, zero]
  · rw [Source.retrieveSegments_eq_panic_iff, zero]
  · rw [Libraries.retrieve_eq_panic_iff, zero]
  · rw [Libraries.retrieveSegmentWith_eq_panic_iff, zero]
  · exact L.rsDecode_ne_panic available _ _ originalLen

namespace Holding

/-- A source with two holders of the made-up identifier. -/
def source : Source := ⟨.sequential, fun _ => [holder 0, holder 1], fun _ _ => ⟨false, 0⟩⟩

/-- A payload that names no data shards stops the retrieval it asks for. -/
theorem no_data_shards_panics : source.retrieve Parity.libraries mid ⟨0, 3⟩ = .panic ∧
    source.retrieveSegments Parity.libraries mid 2 ⟨0, 3⟩ = .panic ∧
    Parity.libraries.retrieve mid [share 0] ⟨0, 3⟩ = .panic ∧
    Parity.libraries.retrieveSegmentWith mid [share 0] ⟨0, 0, 3, 3⟩ ⟨0, 3⟩ none = .panic :=
  ⟨Source.retrieve_eq_panic_iff.mpr ⟨rfl, by simp [source]⟩,
    Source.retrieveSegments_eq_panic_iff.mpr ⟨rfl, by decide, by simp [source]⟩,
    (Libraries.retrieve_eq_panic_iff ..).mpr rfl, (Libraries.retrieveSegmentWith_eq_panic_iff ..).mpr rfl⟩

end Holding

end Miasma.Retrieval
