import Miasma.Retrieval.Coordinator

namespace Miasma.Retrieval

open Data Dissolution Network List

/-! Which retrievals return only the content they were asked for.

A retrieval of several segments joins what each of them decrypts to and checks nothing. -/

variable {L : Libraries} {mid : ContentId} {params : DissolutionParams} {segmentCount : UInt32}

namespace Source

variable {source : Source}

variable {data : Bytes}

theorem compute_of_retrieve (returned : source.retrieve L mid params = .ok data) :
    L.compute data params.toParamBytes = mid := by
  obtain ⟨_, _, returned⟩ := Checked.bind_eq_ok_iff.mp returned
  exact L.compute_of_retrieve returned

theorem compute_of_retrieveFile (returned : source.retrieveFile L manifest = .ok data) :
    L.compute data manifest.params.toParamBytes = manifest.mid := by
  obtain ⟨_, _, returned⟩ := Checked.bind_eq_ok_iff.mp returned
  exact L.compute_of_retrieveFile returned

theorem retrieveSegmentAt_ne_ok (bad : params.dataShards = 0 ∨ params.totalShards < params.dataShards) :
    source.retrieveSegmentAt L mid params i ≠ .ok data := by
  intro returned
  obtain ⟨valid, collected, returned⟩ := Checked.bind_eq_ok_iff.mp returned
  obtain ⟨first, head, returned⟩ := Checked.bind_eq_ok_iff.mp returned
  have count := (collected_of_collectKShares (Checked.ofExcept_eq_ok_iff.mp collected)).1
  rcases bad with zero | fewer
  · rw [zero, length_eq_zero_iff] at count
    simp [count] at head
  obtain ⟨⟨_, selected⟩, _, returned⟩ := Checked.bind_eq_ok_iff.mp returned
  obtain ⟨_, opened, _⟩ := Checked.bind_eq_ok_iff.mp returned
  obtain ⟨_, decoded, _⟩ := Checked.bind_eq_ok_iff.mp opened
  simp [Libraries.rsDecode, fewer] at decoded

/-- From holders of shares with distinct slots that fit, the collection has as many as it
needs of them. -/
theorem collectKShares_of_holders (asks : source.asked i = shares.map fun share => ⟨"", .ok (some share)⟩)
    (distinct : Distinct MiasmaShare.slotIndex shares) (positive : 0 < params.dataShards)
    (enough : params.dataShards ≤ shares.length)
    (fit : ∀ share ∈ shares, share.segmentIndex = index ∧ L.coarseVerify share mid = true) :
    ∃ got, source.collectKShares L i mid index params = .ok got ∧ got.length = params.dataShards ∧
      got ⊆ shares ∧ Distinct MiasmaShare.slotIndex got := by
  have clean : ∀ candidate ∈ source.asked i, ∀ e, candidate.answer ≠ .error e := by simp [asks]
  have served : ∀ slot ∈ shares.map MiasmaShare.slotIndex,
      (source.order L i mid index params).Serves (source.asked i) slot := by
    intro slot member
    obtain ⟨share, there, rfl⟩ := mem_map.mp member
    exact ⟨⟨"", .ok (some share)⟩, by simp [asks, there], share, rfl, fit share there, rfl⟩
  obtain ⟨got, returned, count⟩ := Order.collect_of_clean _ clean distinct (by simpa [order] using enough) served
  obtain ⟨apart, _, sound⟩ := Order.collected_of_ok returned
  refine ⟨got, ?_, count, ?_, apart⟩
  · have asked : (source.asked i).isEmpty = false := by
      rw [asks, isEmpty_eq_false_iff_exists_mem]
      obtain ⟨share, there⟩ := exists_mem_of_length_pos (Nat.lt_of_lt_of_le positive enough)
      exact ⟨_, mem_map.mpr ⟨share, there, rfl⟩⟩
    rw [collectKShares, if_neg (by simp [asked]), collectSegment, returned]
    exact if_neg (Nat.not_lt.mpr count.ge)
  · intro share there
    obtain ⟨_, candidate, known, answered⟩ := sound share there
    rw [asks] at known
    obtain ⟨other, member, rfl⟩ := mem_map.mp known
    cases answered
    exact member

/-- Holders of the shares of any content, dissolved under any identifier, make a retrieval
return it for a segment. -/
theorem exists_forged_segment (ideal : Ideal L params) (valid : params.Valid) (short : data.length < 2 ^ 32) :
    ∃ asked, ∀ source : Source, source.asked i = asked → source.retrieveSegmentAt L mid params i = .ok data := by
  let draws : Draws := ⟨.fill 32 0, .fill 12 0, 0⟩
  obtain ⟨shares, _, slots, made, retrieves⟩ := Libraries.dissolveSegmentWithAt_then_retrieve ideal valid
    short mid (UInt32.ofNat i) 0 none 0 draws
  refine ⟨shares.map fun share => ⟨"", .ok (some share)⟩, fun source asks => ?_⟩
  have total : shares.length = params.totalShards := by
    simpa using congrArg length slots
  have distinct : Distinct MiasmaShare.slotIndex shares := by
    refine Nodup.of_map UInt16.toNat ?_
    rw [map_map]
    exact slots ▸ nodup_range
  have fit : ∀ share ∈ shares, share.segmentIndex = UInt32.ofNat i ∧ L.coarseVerify share mid = true := by
    intro share there
    rw [made share there]
    exact ⟨rfl, L.coarseVerify_newShare ..⟩
  obtain ⟨got, collected, count, genuine, apart⟩ :=
    collectKShares_of_holders asks distinct valid.some (total ▸ valid.enough) fit
  obtain ⟨first, rest, rfl⟩ := exists_cons_of_length_pos (show 0 < got.length from count ▸ valid.some)
  have len : first.originalLen = UInt32.ofNat data.length := by
    rw [made first (genuine (by simp))]
    rfl
  rw [retrieveSegmentAt, collected]
  exact retrieves rfl len (fun _ there => .of_mem there)
    ⟨first :: rest, [], by rw [append_nil], genuine, apart, count.ge, by simp⟩

theorem exists_forged_content (ideal : Ideal L params) (valid : params.Valid) (mid : ContentId)
    (short : data.length < 2 ^ 32) (policy : FetchPolicy) (choices : Nat → Nat → Choice)
    (some : 0 < segmentCount.toNat) :
    ∃ asked, (⟨policy, asked, choices⟩ : Source).retrieveSegments L mid segmentCount params = .ok data := by
  -- The first segment carries the content, the others are empty.
  have segments : ∀ i, ∃ asked, ∀ source : Source, source.asked i = asked →
      source.retrieveSegmentAt L mid params i = .ok (if i = 0 then data else []) := by
    intro i
    refine exists_forged_segment ideal valid ?_
    split
    · exact short
    · simp
  choose asked forged using segments
  refine ⟨asked, ?_⟩
  have each := Checked.each_eq_ok (fun i (_ : i ∈ range segmentCount.toNat) =>
    forged i ⟨policy, asked, choices⟩ rfl)
  obtain ⟨more, count⟩ := Nat.exists_eq_succ_of_ne_zero (Nat.ne_of_gt some)
  rw [retrieveSegments, each, count, range_succ_eq_map]
  simp [Function.comp_def]

end Source

/-! ## The network -/

theorem toNat_foldl_max_lt {list : List UInt32} (below : ∀ value ∈ list, value.toNat < bound)
    (low : start.toNat < bound) : (list.foldl max start).toNat < bound := by
  induction list generalizing start with
  | nil => exact low
  | cons value rest ih =>
    refine ih (fun other there => below other (by simp [there])) ?_
    change (if start ≤ value then value else start).toNat < bound
    split
    · exact below value (by simp)
    · exact low

theorem segmentIndex_lt_of_validateLocations (valid : validateLocations total locations = .ok ()) :
    ∀ location ∈ locations, location.segmentIndex.toNat < maxSegments := by
  induction locations with
  | nil => simp
  | cons first rest ih =>
    obtain ⟨here, later⟩ := check_ok_iff.mp valid
    intro location member
    rcases mem_cons.mp member with rfl | there
    · exact Nat.lt_of_not_le (ite_ok_iff.mp here).1
    · exact ih later location there

theorem maxSegment_lt {record : DhtRecord} (valid : record.validate = .ok ()) :
    record.maxSegment.toNat < maxSegments := by
  obtain ⟨_, valid⟩ := ite_ok_iff.mp valid
  obtain ⟨_, valid⟩ := ite_ok_iff.mp valid
  refine toNat_foldl_max_lt ?_ (by decide)
  intro index member
  obtain ⟨location, there, rfl⟩ := mem_map.mp member
  exact segmentIndex_lt_of_validateLocations valid location there

/-- The record that is found, if any, names no segment but the first. -/
def Single (record : Except MiasmaError (Option DhtRecord)) : Prop :=
  ∀ found, record = .ok (some found) → found.validate = .ok () → found.maxSegment = 0

variable {attempt : Attempt} {found : DhtRecord}

theorem maxSegment_of_found (there : attempt.record = .ok (some found)) (valid : found.validate = .ok ()) :
    attempt.maxSegment = .ok found.maxSegment := by
  simp [Attempt.maxSegment, there, valid, Bind.bind, Except.bind, pure, Except.pure]

theorem maxSegment_of_single (single : Single attempt.record) (found : attempt.maxSegment = .ok index) :
    index = 0 := by
  obtain ⟨result, there, rest⟩ := bind_ok_iff.mp found
  cases result with
  | none =>
    cases rest
    rfl
  | some record =>
    obtain ⟨valid, same⟩ := check_ok_iff.mp rest
    cases same
    exact single record there valid

theorem compute_of_single (single : Single attempt.record)
    (returned : retrieveFromNetworkOnce L attempt mid params = .ok data) :
    L.compute data params.toParamBytes = mid := by
  obtain ⟨index, found, returned⟩ := Checked.bind_eq_ok_iff.mp returned
  rw [maxSegment_of_single single (Checked.ofExcept_eq_ok_iff.mp found), if_pos rfl] at returned
  exact Source.compute_of_retrieve returned

theorem retrieveSegments_ne_ok {source : Source}
    (bad : params.dataShards = 0 ∨ params.totalShards < params.dataShards)
    (some : 0 < segmentCount.toNat) (data : Bytes) :
    source.retrieveSegments L mid segmentCount params ≠ .ok data := by
  intro returned
  obtain ⟨more, count⟩ := Nat.exists_eq_succ_of_ne_zero (Nat.ne_of_gt some)
  obtain ⟨_, each, _⟩ := Checked.bind_eq_ok_iff.mp returned
  rw [count, range_succ_eq_map, Checked.each] at each
  obtain ⟨first, here, _⟩ := Checked.bind_eq_ok_iff.mp each
  exact Source.retrieveSegmentAt_ne_ok bad here

theorem segmentCount_pos (valid : found.validate = .ok ()) : 0 < (found.maxSegment + 1).toNat := by
  have low := maxSegment_lt valid
  simp only [maxSegments] at low
  rw [UInt32.toNat_add]
  simp only [UInt32.toNat_one]
  omega

theorem once_of_several (there : attempt.record = .ok (some found)) (valid : found.validate = .ok ())
    (several : found.maxSegment ≠ 0) :
    retrieveFromNetworkOnce L attempt mid params =
      attempt.source.retrieveSegments L mid (found.maxSegment + 1) params := by
  simp [retrieveFromNetworkOnce, maxSegment_of_found there valid, several]

theorem exists_attempt (returned : retrieveFrom L attempts mid params left n = .ok data) :
    ∃ m, retrieveFromNetworkOnce L (attempts m) mid params = .ok data := by
  induction left generalizing n with
  | zero => exact ⟨n, returned⟩
  | succ left ih =>
    simp only [retrieveFrom] at returned
    split at returned
    · exact ih returned
    · exact ⟨n, returned⟩

/-- For counts that fit a byte, a retrieval of at least one segment matches for every source
exactly when it can return nothing. -/
theorem retrieveSegments_matches_iff (bytes : params.totalShards ≤ 255) (ideal : params.Valid → Ideal L params)
    (other : ∃ content : Bytes, content.length < 2 ^ 32 ∧ L.compute content params.toParamBytes ≠ mid)
    (some : 0 < segmentCount.toNat) :
    (∀ (source : Source) data, source.retrieveSegments L mid segmentCount params = .ok data →
      L.compute data params.toParamBytes = mid) ↔
      params.dataShards = 0 ∨ params.totalShards < params.dataShards := by
  constructor
  · intro always
    by_contra good
    obtain ⟨content, short, different⟩ := other
    have valid : params.Valid := ⟨by omega, by omega, bytes⟩
    obtain ⟨asked, returned⟩ := Source.exists_forged_content (ideal valid) valid mid short .sequential
      (fun _ _ => ⟨false, 0⟩) some
    exact different (always _ _ returned)
  · intro bad source data returned
    exact absurd returned (retrieveSegments_ne_ok bad some data)

/-- A retrieval of one segment, one by manifest and one over the network whose records name no
later segment match their identifier for every source; with ideal libraries and another content,
a retrieval of several segments does not. -/
theorem matches_iff_single (L : Libraries) (mid : ContentId) (params : DissolutionParams) :
    (∀ (source : Source) data, source.retrieve L mid params = .ok data → L.compute data params.toParamBytes = mid) ∧
    (∀ (source : Source) manifest data, source.retrieveFile L manifest = .ok data →
      L.compute data manifest.params.toParamBytes = manifest.mid) ∧
    (∀ attempts data, (∀ n, Single (attempts n).record) →
      retrieveFromNetwork L attempts mid params = .ok data → L.compute data params.toParamBytes = mid) ∧
    (∀ source : Source, source.retrieveSegments L mid 0 params = .ok []) ∧
    (params.totalShards ≤ 255 → (params.Valid → Ideal L params) →
      (∃ content : Bytes, content.length < 2 ^ 32 ∧ L.compute content params.toParamBytes ≠ mid) →
      (∀ segmentCount : UInt32, 0 < segmentCount.toNat →
        ((∀ (source : Source) data, source.retrieveSegments L mid segmentCount params = .ok data →
          L.compute data params.toParamBytes = mid) ↔
        params.dataShards = 0 ∨ params.totalShards < params.dataShards)) ∧
      ∀ record,
        ((∀ source data, retrieveFromNetworkOnce L ⟨record, source⟩ mid params = .ok data →
          L.compute data params.toParamBytes = mid) ↔
        params.dataShards = 0 ∨ params.totalShards < params.dataShards ∨ Single record)) := by
  refine ⟨fun source data => Source.compute_of_retrieve, fun source manifest data =>
    Source.compute_of_retrieveFile, ?_, fun source => rfl, ?_⟩
  · intro attempts data single returned
    obtain ⟨n, once⟩ := exists_attempt returned
    exact compute_of_single (single n) once
  intro bytes ideal other
  refine ⟨fun segmentCount some => retrieveSegments_matches_iff bytes ideal other some, ?_⟩
  intro record
  constructor
  · intro always
    by_contra good
    simp only [not_or, Single, not_forall] at good
    obtain ⟨positive, enough, found, there, valid, later⟩ := good
    have bad := (retrieveSegments_matches_iff bytes ideal other (segmentCount_pos valid)).mp
      fun source data returned => always source data (by rwa [once_of_several there valid later])
    omega
  · intro condition source data returned
    by_cases single : Single record
    · exact compute_of_single single returned
    simp only [Single, not_forall] at single
    obtain ⟨found, there, valid, later⟩ := single
    rw [once_of_several there valid later] at returned
    refine absurd returned (retrieveSegments_ne_ok ?_ (segmentCount_pos valid) data)
    rcases condition with zero | fewer | single
    · exact .inl zero
    · exact .inr fewer
    · exact absurd (single found there valid) later

namespace Holding

/-- The identifier of three bytes, and a record that names two segments for it. -/
def wanted : ContentId := Parity.libraries.compute [1, 2, 3] Parity.params.toParamBytes

def record : DhtRecord := ⟨wanted.digest, 2, 3, 1, [⟨[1], 0, 0, []⟩, ⟨[1], 1, 1, []⟩], 1000⟩

theorem different : Parity.libraries.compute [9] Parity.params.toParamBytes ≠ wanted := by
  decide +kernel

/-- Asked for one content, the network retrieval returns another. -/
theorem several_segments_unchecked :
    ∃ source : Source, retrieveFromNetworkOnce Parity.libraries ⟨.ok (some record), source⟩ wanted
        Parity.params = .ok [9] ∧
      Parity.libraries.compute [9] Parity.params.toParamBytes ≠ wanted := by
  have valid : record.validate = .ok () := by decide
  obtain ⟨asked, returned⟩ := Source.exists_forged_content Parity.ideal ⟨by decide, by decide, by decide⟩
    wanted (by decide : ([9] : Bytes).length < 2 ^ 32) (.hedged 250) (fun _ _ => ⟨false, 0⟩)
    (segmentCount_pos valid)
  exact ⟨_, by rw [once_of_several rfl valid (by decide)]; exact returned, different⟩

def lone : DhtRecord := ⟨wanted.digest, 2, 3, 1, [⟨[1], 0, 0, []⟩, ⟨[2], 1, 0, []⟩], 1000⟩

theorem lone_single : Single (.ok (some lone)) := by
  intro found there _
  cases there
  decide

/-- With a record that names one segment the content is checked. -/
theorem single_segment_checked : Single (.ok (some lone)) ∧
    ∀ source data, retrieveFromNetworkOnce Parity.libraries ⟨.ok (some lone), source⟩ wanted
      Parity.params = .ok data → Parity.libraries.compute data Parity.params.toParamBytes = wanted :=
  ⟨lone_single, (((matches_iff_single Parity.libraries wanted Parity.params).2.2.2.2 (by decide)
    (fun _ => Parity.ideal) ⟨[9], by decide, different⟩).2 (.ok (some lone))).mpr (.inr (.inr lone_single))⟩

end Holding

end Miasma.Retrieval
