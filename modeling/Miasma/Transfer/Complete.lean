import Miasma.Transfer.Safe

namespace Miasma.Transfer

open Data Dissolution Network Program List Surroundings

/-! A receive with an honest manifest and enough honest holders completes.  Everyone else returns
what they like, short of a piece that collides with a listed one. -/

/-- A manifest that was made of the segments of a content, in the suite it names and under
the key its password gives. -/
structure Honest (L : Libraries) (job : Job) (m : TransferManifest) (chunks : List Bytes)
    (pieces : Nat → List MiasmaShare) : Prop where
  mid : L.compute chunks.flatten m.params.toParamBytes = job.spec.mid
  count : chunks.length = m.segments.length
  made : ∀ (seg : Nat) entry chunk, m.segments[seg]? = some entry → chunks[seg]? = some chunk →
    ∃ offset timestamp draws info,
      L.dissolveSegmentFor job.prepared.suite chunk job.spec.mid (UInt32.ofNat seg) offset m.params
        job.prepared.key timestamp draws = .ok (info, pieces seg) ∧
      SegmentEntry.fromDissolved L (UInt32.ofNat seg) job.spec.mid chunk (pieces seg) = .ok entry
  fits : ∀ seg, ∀ piece ∈ pieces seg, Fits piece

/-- A holder that returns the piece of its slot whenever it is asked. -/
def Returns (W : Surroundings) (mid : ContentId) (seg : Nat) (pieces : List MiasmaShare) (slot : UInt16)
    (holder : ShardLocation) : Prop :=
  ∃ piece ∈ pieces, piece.slotIndex = slot ∧
    ∀ moment, W.fetchPiece moment mid (UInt32.ofNat seg) slot holder = .ok (some piece)

/-- At least `k` slots of the segment have some listed holder that returns the piece. -/
def Served (W : Surroundings) (spec : ReceiveSpec) (k seg : Nat) (pieces : List MiasmaShare) : Prop :=
  ∃ slots : List UInt16, slots.Nodup ∧ k ≤ slots.length ∧ ∀ slot ∈ slots,
    ∃ holder ∈ spec.record.locations, holder.segmentIndex.toNat = seg ∧ holder.shardIndex = slot ∧
      Returns W spec.mid seg pieces slot holder

/-- No answer is a piece that has the commitment of a genuine one over other bytes. -/
def Binding (L : Libraries) (W : Surroundings) (mid : ContentId) (pieces : Nat → List MiasmaShare) : Prop :=
  ∀ moment (seg : Nat) slot holder share, W.fetchPiece moment mid (UInt32.ofNat seg) slot holder = .ok (some share) →
    Fits share ∧ ∀ piece ∈ pieces seg, pieceCommitment L mid share = pieceCommitment L mid piece →
      commitmentBytes mid share = commitmentBytes mid piece

structure Undisturbed (W : Surroundings) : Prop where
  target : W.outputTarget = .ok ()
  cancelled : ∀ moment, W.cancelled moment = false
  writes : ∀ moment, W.writeFailure moment = none

namespace Job

variable {L : Libraries} {W : Surroundings} {job : Job} {m : TransferManifest}
  {chunks : List Bytes} {pieces : Nat → List MiasmaShare} {disk : Disk} {t seg : Nat}

/-! ## The pieces of one segment -/

/-- What is known of a segment of an honest manifest. -/
structure Segment (L : Libraries) (job : Job) (m : TransferManifest) (seg : Nat) (chunk : Bytes)
    (entry : SegmentEntry) (pieces : List MiasmaShare) : Prop where
  listed : m.segments[seg]? = some entry
  index : (UInt32.ofNat seg).toNat = seg
  short : chunk.length < 2 ^ 32
  len : entry.plaintextLen = UInt32.ofNat chunk.length
  hash : entry.plainHash = L.blake3 chunk
  slots : pieces.map (·.slotIndex.toNat) = range m.params.totalShards
  coarse : ∀ share ∈ pieces, share.segmentIndex = UInt32.ofNat seg ∧ L.coarseVerify share job.spec.mid = true
  ids : ∀ share ∈ pieces, entry.pieceIds[share.slotIndex.toNat]? = some (pieceCommitment L job.spec.mid share)
  sound : ∀ (i : Nat) (id : B32), entry.pieceIds[i]? = some id →
    ∃ share ∈ pieces, share.slotIndex.toNat = i ∧ id = pieceCommitment L job.spec.mid share
  retrieves : ∀ {given : List MiasmaShare} {info : SegmentMeta}, info.index = UInt32.ofNat seg →
    info.plaintextLen = UInt32.ofNat chunk.length → (∀ piece ∈ given, Stamped pieces piece) →
    Distinct MiasmaShare.slotIndex given → m.params.dataShards ≤ given.length →
    L.retrieveSegmentFor job.prepared.suite job.spec.mid given info m.params job.prepared.key = .ok chunk

theorem segment_of_honest (ideal : Ideal L m.params) (accepted : m.Accepted)
    (honest : Honest L job m chunks pieces) {entry : SegmentEntry} (listed : m.segments[seg]? = some entry)
    (there : chunks[seg]? = some chunk) : Segment L job m seg chunk entry (pieces seg) := by
  obtain ⟨offset, timestamp, draws, info, dissolved, made⟩ := honest.made seg entry chunk listed there
  obtain ⟨short, len, hash, ids, sound⟩ := SegmentEntry.fromDissolved_ok made
  obtain ⟨slots, coarse, retrieves⟩ := Libraries.retrieve_of_dissolved ideal accepted.params short dissolved
  have index : (UInt32.ofNat seg).toNat = seg := by
    obtain ⟨inside, _⟩ := List.getElem?_eq_some_iff.mp listed
    have few := accepted.few
    simp only [maxSegments] at few
    rw [UInt32.toNat_ofNat']
    omega
  refine ⟨listed, index, short, len, hash, slots, coarse, ids, sound, ?_⟩
  intro given info same length stamped distinct enough
  refine retrieves same length stamped ⟨given, [], by simp, Subset.refl given, distinct, enough, by simp⟩

variable {chunk : Bytes} {entry : SegmentEntry} {genuine : List MiasmaShare}

section

variable (segment : Segment L job m seg chunk entry genuine)
include segment

theorem expectedPiece_eq : m.expectedPiece (UInt32.ofNat seg) slot = entry.pieceIds[slot.toNat]? := by
  rw [TransferManifest.expectedPiece, segment.index, segment.listed]
  rfl

theorem acceptable_genuine (there : share ∈ genuine) :
    pieceIsAcceptable L share job.spec.mid (UInt32.ofNat seg) share.slotIndex (some m) = true := by
  obtain ⟨index, coarse⟩ := segment.coarse share there
  simp [pieceIsAcceptable, index, coarse, expectedPiece_eq segment, segment.ids share there, verifyPiece]

theorem stamped_of_acceptable (fits : ∀ piece ∈ genuine, Fits piece) (fit : Fits share)
    (binding : ∀ piece ∈ genuine, pieceCommitment L job.spec.mid share = pieceCommitment L job.spec.mid piece →
      commitmentBytes job.spec.mid share = commitmentBytes job.spec.mid piece)
    (passed : pieceIsAcceptable L share job.spec.mid (UInt32.ofNat seg) slot (some m) = true) :
    Stamped genuine share ∧ share.slotIndex = slot := by
  simp only [pieceIsAcceptable, expectedPiece_eq segment] at passed
  split at passed
  · cases passed
  rename_i met
  simp only [not_or, not_not] at met
  cases listed : entry.pieceIds[slot.toNat]? with
  | none => simp [listed] at passed
  | some id =>
    obtain ⟨piece, there, _, rfl⟩ := segment.sound _ id listed
    simp only [listed, Option.any_some, verifyPiece, Bool.and_eq_true, decide_eq_true_eq] at passed
    refine ⟨⟨piece, there, ?_⟩, met.2.1⟩
    exact eq_of_commitmentBytes_eq fit (fits piece there) passed.1 (segment.coarse piece there).2
      (binding piece there passed.2)

end

structure Gathered (genuine : List MiasmaShare) (want : Nat) (pool : List PooledPiece) : Prop where
  stamped : ∀ piece ∈ pool, Stamped genuine piece.share
  distinct : Distinct (·.share.slotIndex) pool
  bound : pool.length ≤ want

variable {pool : List PooledPiece} {want : Nat}

theorem Gathered.concat (gathered : Gathered genuine want pool) (stamped : Stamped genuine piece.share)
    (fresh : ∀ held ∈ pool, held.share.slotIndex ≠ piece.share.slotIndex) (room : pool.length < want) :
    Gathered genuine want (pool ++ [piece]) := by
  exact ⟨forall_mem_snoc gathered.stamped stamped, gathered.distinct.concat fresh,
    by simpa using Nat.succ_le_of_lt room⟩

/-- The pool after a pass over the candidates: full, or with every slot that a candidate
serves. -/
structure Filled (genuine : List MiasmaShare) (want : Nat) (serves : UInt16 → ShardLocation → Prop)
    (candidates : List (UInt16 × ShardLocation)) (before pool : List PooledPiece) : Prop where
  gathered : Gathered genuine want pool
  kept : before ⊆ pool
  full : want ≤ pool.length ∨ ∀ candidate ∈ candidates, serves candidate.1 candidate.2 →
    ∃ piece ∈ pool, piece.share.slotIndex = candidate.1

variable {serves : UInt16 → ShardLocation → Prop} {before : List PooledPiece}

theorem Filled.cons (filled : Filled genuine want serves rest middle pool) (kept : before ⊆ middle)
    (first : serves slot holder → ∃ piece ∈ middle, piece.share.slotIndex = slot) :
    Filled genuine want serves ((slot, holder) :: rest) before pool := by
  refine ⟨filled.gathered, fun piece member => filled.kept (kept member), ?_⟩
  rcases filled.full with full | all
  · exact .inl full
  refine .inr fun candidate member served => ?_
  rcases mem_cons.mp member with rfl | later
  · obtain ⟨piece, there, same⟩ := first served
    exact ⟨piece, filled.kept there, same⟩
  · exact all candidate later served

variable {crash : Disk → Prop} {fails : MiasmaError → Disk → Prop}

theorem topUp_filled (segment : Segment L job m seg chunk entry genuine) (manifest : job.manifest = some m)
    (calm : ∀ moment, W.cancelled moment = false) (fits : ∀ piece ∈ genuine, Fits piece)
    (binding : ∀ moment slot holder share,
      W.fetchPiece moment job.spec.mid (UInt32.ofNat seg) slot holder = .ok (some share) →
      Fits share ∧ ∀ piece ∈ genuine, pieceCommitment L job.spec.mid share = pieceCommitment L job.spec.mid piece →
        commitmentBytes job.spec.mid share = commitmentBytes job.spec.mid piece)
    (gathered : Gathered genuine want pool) :
    Ensures (job.topUp L W seg want [] candidates pool) crash fails (fun after later _ => later = disk ∧
        Filled genuine want (Returns W job.spec.mid seg genuine) candidates pool after) disk t := by
  induction candidates generalizing pool t with
  | nil => exact (ensures_pure _).mpr ⟨rfl, gathered, Subset.refl _, .inr (by simp)⟩
  | cons candidate rest ih =>
    obtain ⟨slot, holder⟩ := candidate
    simp only [topUp]
    split
    · rename_i full
      exact (ensures_pure _).mpr ⟨rfl, gathered, Subset.refl _, .inl full⟩
    rename_i room
    simp only [isCancelled, ensures_bind, ensures_recalling, calm, Bool.false_eq_true,
      ↓reduceIte, not_mem_nil, or_false]
    split
    · rename_i taken
      simp only [any_eq_true, decide_eq_true_eq] at taken
      exact (ih gathered).imp fun after later t held =>
        ⟨held.1, held.2.cons (Subset.refl _) fun _ => taken⟩
    rename_i free
    simp only [any_eq_true, decide_eq_true_eq, not_exists, not_and] at free
    simp only [fetch, ensures_bind, ensures_recalling]
    split
    · rename_i share answered
      obtain ⟨fit, bound⟩ := binding _ slot holder share answered
      split
      · rename_i passed
        rw [manifest] at passed
        obtain ⟨stamped, same⟩ := stamped_of_acceptable segment fits fit bound passed
        have more : Gathered genuine want (pool ++ [⟨share, holder.peerIdBytes⟩]) :=
          gathered.concat stamped (by rw [same]; exact free) (Nat.lt_of_not_le room)
        exact (ih more).imp fun after later t held =>
          ⟨held.1, held.2.cons (by simp) fun _ => ⟨⟨share, holder.peerIdBytes⟩, by simp, same⟩⟩
      · -- A holder that serves the slot is never refused.
        rename_i refused
        refine (ih gathered).imp fun after later t held =>
          ⟨held.1, held.2.cons (Subset.refl _) fun served => ?_⟩
        obtain ⟨piece, there, rfl, answers⟩ := served
        rw [answers] at answered
        cases answered
        rw [manifest, acceptable_genuine segment there] at refused
        exact absurd rfl refused
    all_goals
      rename_i answered
      refine (ih gathered).imp fun after later t held =>
        ⟨held.1, held.2.cons (Subset.refl _) fun served => ?_⟩
      obtain ⟨_, _, _, answers⟩ := served
      rw [answers] at answered
      cases answered

theorem enough_of_filled (filled : Filled genuine want serves candidates before pool) {slots : List UInt16}
    (distinct : slots.Nodup) (enough : want ≤ slots.length)
    (served : ∀ slot ∈ slots, ∃ holder, (slot, holder) ∈ candidates ∧ serves slot holder) :
    pool.length = want := by
  refine Nat.le_antisymm filled.gathered.bound ?_
  rcases filled.full with full | all
  · exact full
  have inside : slots ⊆ pool.map fun piece => piece.share.slotIndex := by
    intro slot member
    obtain ⟨holder, listed, serves⟩ := served slot member
    obtain ⟨piece, there, same⟩ := all _ listed serves
    exact mem_map.mpr ⟨piece, there, same⟩
  have fewer := (distinct.subperm inside).length_le
  rw [length_map] at fewer
  omega

/-! ## One segment -/

/-- What completes a receive, for a job. -/
structure Ready (L : Libraries) (W : Surroundings) (job : Job) (m : TransferManifest)
    (chunks : List Bytes) (pieces : Nat → List MiasmaShare) : Prop where
  ideal : Ideal L m.params
  accepted : m.Accepted
  manifest : job.manifest = some m
  params : job.prepared.params = m.params
  count : job.prepared.segmentCount = m.segments.length
  candidates : job.prepared.candidates = (range job.prepared.segmentCount).map job.spec.candidatesOf
  honest : Honest L job m chunks pieces
  binding : Binding L W job.spec.mid pieces
  calm : Undisturbed W
  served : ∀ seg < m.segments.length, Served W job.spec m.params.dataShards seg (pieces seg)

variable (ready : Ready L W job m chunks pieces)

include ready

theorem Ready.segment (inside : seg < m.segments.length) :
    ∃ chunk entry, chunks[seg]? = some chunk ∧ Segment L job m seg chunk entry (pieces seg) := by
  have within : seg < chunks.length := by
    rw [ready.honest.count]
    exact inside
  exact ⟨_, _, getElem?_eq_getElem within,
    segment_of_honest ready.ideal ready.accepted ready.honest (getElem?_eq_getElem inside)
      (getElem?_eq_getElem within)⟩

theorem gather_filled (segment : Segment L job m seg chunk entry (pieces seg))
    (inside : seg < m.segments.length) (journal : ReceiveJournal) (left attempt : Nat)
    (filled : ∀ pool t, Gathered (pieces seg) job.k pool → pool.length = job.k → post (.inr pool) disk t) :
    Ensures (job.gather L W seg [] journal left attempt []) crash fails post disk t := by
  have none : Gathered (pieces seg) job.k [] := ⟨by simp, .nil, Nat.zero_le _⟩
  obtain ⟨slots, distinct, enough, serves⟩ := ready.served seg inside
  have listed : job.prepared.candidates[seg]?.getD [] = job.spec.candidatesOf seg := by
    rw [ready.candidates, ready.count, getElem?_map, getElem?_range inside]
    rfl
  rw [gather, ensures_bind, fillPool, ensures_bind, listed]
  refine (topUp_filled segment ready.manifest ready.calm.cancelled (ready.honest.fits seg)
    (ready.binding · seg) none).imp fun pool later t held => ?_
  obtain ⟨rfl, held⟩ := held
  have full : pool.length = job.k := by
    refine enough_of_filled held distinct (by rw [k, ready.params]; exact enough) fun slot member => ?_
    obtain ⟨holder, there, segment, slot, returns⟩ := serves slot member
    exact ⟨holder, ReceiveSpec.mem_candidatesOf.mpr ⟨there, segment, slot⟩, returns⟩
  rw [if_neg (by omega), ensures_pure, ensures_pure]
  exact filled pool t held.gathered full

theorem decodeWithFallback_eq (segment : Segment L job m seg chunk entry (pieces seg))
    (gathered : Gathered (pieces seg) job.k pool) (full : pool.length = job.k) :
    job.decodeWithFallback L W seg [] pool = pure ([], chunk) := by
  simp only [decodeWithFallback]
  generalize listing : pool.insertionSort (·.share.slotIndex ≤ ·.share.slotIndex) = sorted
  have same : sorted.Perm pool := listing ▸ perm_insertionSort _ pool
  have whole : sorted.take job.k = sorted := by
    rw [← full, ← same.length_eq, take_length]
  have listed : job.entry seg = some entry := by
    rw [Job.entry, ready.manifest]
    exact segment.listed
  have retrieved : L.retrieveSegmentFor job.prepared.suite job.spec.mid (sorted.map PooledPiece.share)
      ⟨UInt32.ofNat seg, 0, entry.plaintextLen, UInt16.ofNat job.prepared.params.totalShards⟩
      job.prepared.params job.prepared.key = .ok chunk := by
    rw [ready.params]
    refine segment.retrieves rfl segment.len ?_ ?_ ?_
    · intro piece member
      obtain ⟨pooled, there, rfl⟩ := mem_map.mp member
      exact gathered.stamped pooled (same.mem_iff.mp there)
    · rw [Distinct, map_map]
      exact (same.map _).nodup_iff.mpr gathered.distinct
    · rw [length_map, same.length_eq, full, k, ready.params]
  have decoded : job.decodeOnce L W seg (sorted.map PooledPiece.share) = .ok chunk := by
    simp only [decodeOnce, listed, Option.elim_some, retrieved]
    rw [segment.len, Libraries.toNat_length segment.short, segment.hash]
    simp
  rw [whole, decoded]

/-! ## All segments -/

theorem finish_complete (whole : received = chunks.flatten) (there : disk.part = some received) :
    Ensures (job.finish L received) (fun _ => True) (fun _ _ => False)
      (fun outcome later _ => outcome = .complete chunks.flatten.length ∧
        later.output = some chunks.flatten) disk t := by
  subst whole
  rw [finish, if_neg (by rw [ready.params, ready.honest.mid]; simp)]
  simp [ReceiveJournal.remove, Disk.rename, Disk.setJournal, there]

theorem transfer_complete (left seg : Nat) (journal : ReceiveJournal)
    (rest : seg + left = m.segments.length) (there : disk.part = some (chunks.take seg).flatten) :
    Ensures (job.transfer L W left seg (chunks.take seg).flatten [] journal) (fun _ => True)
      (fun _ _ => False) (fun outcome later _ => outcome = .complete chunks.flatten.length ∧
        later.output = some chunks.flatten) disk t := by
  induction left generalizing seg journal disk t with
  | zero =>
    refine finish_complete ready ?_ there
    rw [take_of_length_le (by rw [ready.honest.count]; omega)]
  | succ left ih =>
    have inside : seg < m.segments.length := by omega
    obtain ⟨chunk, entry, found, segment⟩ := ready.segment inside
    have longer : (chunks.take seg).flatten ++ chunk = (chunks.take (seg + 1)).flatten := by
      rw [take_add_one, found, flatten_append]
      simp
    simp only [transfer, isCancelled, ensures_bind, ensures_recalling,
      ready.calm.cancelled, Bool.false_eq_true, ↓reduceIte]
    refine gather_filled ready segment inside journal _ _ fun pool t gathered full => ?_
    simp only [decodeWithFallback_eq ready segment gathered full, writeSegment, ensures_bind,
      ensures_pure, ensures_recalling, ready.calm.writes, append, ensures_writeThrough, implies_true,
      true_and, nowSecs, ReceiveJournal.save, ensures_write]
    rw [longer]
    refine ih (seg + 1) _ (by omega) ?_
    rw [Disk.setJournal, part_writeAt there, longer]

theorem Ready.describes : Describes L m.segments chunks := by
  refine forall₂_iff_get.mpr ⟨ready.honest.count.symm, fun seg inside within => ?_⟩
  have segment := segment_of_honest ready.ideal ready.accepted ready.honest
    (getElem?_eq_getElem inside) (getElem?_eq_getElem within)
  refine ⟨?_, segment.hash.symm⟩
  rw [get_eq_getElem, get_eq_getElem, segment.len, Libraries.toNat_length segment.short]

theorem receive_complete (sane : disk.Sane) (clean : ∀ part, disk.part = some part → Uncollided L chunks part) :
    Ensures (job.receive L W) (fun _ => True) (fun _ _ => False)
      (fun outcome later _ => outcome = .complete chunks.flatten.length ∧
        later.output = some chunks.flatten) disk t := by
  have goes : ∀ {later : Disk} {next : Nat} {started : UInt64} {t : Nat}, next ≤ m.segments.length →
      later.part = some (chunks.take next).flatten →
      Ensures (do
        let updated ← W.nowSecs
        let journal := job.journalAt next (chunks.take next).flatten started updated
        journal.save
        job.transfer L W (job.prepared.segmentCount - next) next (chunks.take next).flatten [] journal)
        (fun _ => True) (fun _ _ => False) (fun outcome later _ =>
          outcome = .complete chunks.flatten.length ∧ later.output = some chunks.flatten) later t := by
    intro later next started t below there
    simp only [nowSecs, ReceiveJournal.save, ensures_bind, ensures_recalling, ensures_write, true_and]
    exact transfer_complete ready _ _ _ (by rw [ready.count]; omega) there
  rw [receive, ensures_bind]
  refine ensures_resume ?_ ?_ ?_ fun _ _ _ => trivial
  · intro part journal found stuck
    obtain ⟨_, stored, accepted⟩ := prior_eq_some found
    have below := sane _ journal stored
    rw [segmentCount_of_accepts accepted, ready.count] at below
    obtain ⟨kept, verified⟩ := verifySegments_exists (L := L) below part (0, [])
    exact absurd (by rw [ready.manifest]; exact verified) (stuck kept)
  · intro part journal next kept found verified _ _ later there _ _
    obtain ⟨stored, _, _⟩ := prior_eq_some found
    rw [ready.manifest] at verified
    obtain ⟨count, below, rfl, rfl⟩ := verifySegments_content ready.describes (clean part stored) verified
    rw [Nat.zero_add, nil_append] at *
    exact ⟨trivial, goes (by rw [← ready.honest.count]; exact below) there⟩
  · intro started later there _ _
    exact goes (Nat.zero_le _) there

end Job

end Miasma.Transfer
