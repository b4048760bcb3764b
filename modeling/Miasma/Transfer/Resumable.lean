import Miasma.Transfer.Complete
import Miasma.Data.Run

namespace Miasma.Transfer

open Data Dissolution Network Parity

/-! Receives one after the other, each run to its end or cut off; between runs the partial file and
the journals may be changed by others. -/

inductive Happening where
  /-- A receive, cut off after so many steps or not at all. -/
  | receive (spec : ReceiveSpec) (W : Surroundings) (cut : Option Nat)
  | changePart (part : Option Bytes)
  | changeJournal (mid : ContentId) (journal : Option ReceiveJournal)

def happens (L : Libraries) (K : PasswordKdf) (disk : Disk) : Happening → Option Disk
  | .receive spec W cut => (runInner L K W spec).left disk 0 cut
  | .changePart part => some { disk with part }
  | .changeJournal mid journal => some (disk.setJournal mid journal)

/-- Nobody writes a journal that is ahead of its segments. -/
def Happening.Sane : Happening → Prop
  | .changeJournal _ (some journal) => journal.nextSegment ≤ journal.segmentCount
  | _ => True

variable {L : Libraries} {K : PasswordKdf} {start disk next : Disk} {event : Happening}

theorem output_of_happens (happened : happens L K start event = some next) :
    next.output = start.output ∨ ∃ spec W cut, event = .receive spec W cut ∧
      ∃ bytes, next.output = some bytes ∧ L.compute bytes spec.params.toParamBytes = spec.mid := by
  cases event with
  | receive spec W cut =>
    have guarded := (runInner_guarded (L := L) (W := W) (t := 0) K spec start).left (.refl start) happened
    rcases guarded.output with same | found
    · exact .inl same
    · exact .inr ⟨spec, W, cut, rfl, found⟩
  | changePart | changeJournal =>
    cases happened
    exact .inl rfl

theorem sane_of_happens (sane : start.Sane) (sound : event.Sane)
    (happened : happens L K start event = some next) : next.Sane := by
  cases event with
  | receive spec W =>
    exact ((runInner_guarded (L := L) (W := W) (t := 0) K spec start).left (.refl start) happened).sane sane
  | changePart =>
    cases happened
    exact sane
  | changeJournal =>
    cases happened
    intro other kept there
    simp only [Disk.setJournal] at there
    split at there
    · subst there
      exact sound
    · exact sane other kept there

variable {events : List Happening}

theorem output_of_run (ran : run (happens L K) start events = some disk) :
    disk.output = start.output ∨ ∃ spec W cut, .receive spec W cut ∈ events ∧
      ∃ bytes, disk.output = some bytes ∧ L.compute bytes spec.params.toParamBytes = spec.mid := by
  induction events generalizing start with
  | nil =>
    cases ran
    exact .inl rfl
  | cons event events ih =>
    obtain ⟨next, happened, rest⟩ := Option.bind_eq_some_iff.mp ran
    rcases ih rest with same | ⟨spec, W, cut, member, found⟩
    · rcases output_of_happens happened with before | ⟨spec, W, cut, rfl, found⟩
      · exact .inl (same.trans before)
      · exact .inr ⟨spec, W, cut, by simp, by rw [same]; exact found⟩
    · exact .inr ⟨spec, W, cut, by simp [member], found⟩

theorem sane_of_run (sane : start.Sane) (sound : ∀ event ∈ events, event.Sane)
    (ran : run (happens L K) start events = some disk) : disk.Sane := by
  induction events generalizing start with
  | nil =>
    cases ran
    exact sane
  | cons event events ih =>
    obtain ⟨next, happened, rest⟩ := Option.bind_eq_some_iff.mp ran
    exact ih (sane_of_happens sane (sound event (by simp)) happened)
      (fun other member => sound other (by simp [member])) rest

theorem resume_content {job : Job} {chunks : List Bytes} (manifest : job.manifest = some m)
    (describes : Describes L m.segments chunks)
    (clean : ∀ part, disk.part = some part → Uncollided L chunks part) :
    (job.resume L W).Ensures (fun _ => True) (fun _ _ => True)
      (fun begun later _ => later.part = some begun.2.1 ∧ begun.2.1 <+: chunks.flatten) disk t := by
  refine Job.ensures_resume (fun _ _ _ _ _ => trivial) ?_ ?_ fun _ _ _ => trivial
  · intro part journal next kept found verified _ _ later there _ _
    obtain ⟨stored, _, _⟩ := Job.prior_eq_some found
    rw [manifest] at verified
    obtain ⟨count, _, _, rfl⟩ := verifySegments_content describes (clean part stored) verified
    refine ⟨trivial, there, ?_⟩
    rw [List.nil_append]
    exact ⟨(chunks.drop count).flatten, by rw [← List.flatten_append, List.take_append_drop]⟩
  · intro started later there _ _
    exact ⟨there, List.nil_prefix⟩

/-- The receive engine is safe, resumable and complete.

Wherever runs are cut off, the output changes only to content with an identifier that was asked
for, and what a run keeps of a partial file is a prefix of the content.  If the manifest is honest
and enough slots are served, a run that is neither cancelled nor refused by the disk ends with
the content. -/
theorem receive_safe_resumable_complete (L : Libraries) (K : PasswordKdf) :
    (∀ start events disk, run (happens L K) start events = some disk →
      disk.output = start.output ∨ ∃ spec W cut, .receive spec W cut ∈ events ∧
        ∃ bytes, disk.output = some bytes ∧ L.compute bytes spec.params.toParamBytes = spec.mid) ∧
    (∀ (job : Job) (W : Surroundings) (m : TransferManifest) (chunks : List Bytes) (disk : Disk)
      (t : Nat), job.manifest = some m → Describes L m.segments chunks →
      (∀ part, disk.part = some part → Uncollided L chunks part) →
      ∀ next kept started, (job.resume L W disk t).value = .ok (next, kept, started) →
        (job.resume L W disk t).store.part = some kept ∧ kept <+: chunks.flatten) ∧
    (∀ (spec : ReceiveSpec) (W : Surroundings) (job : Job) (m : TransferManifest)
      (chunks : List Bytes) (pieces : Nat → List MiasmaShare),
      spec.job L K = .ok job → spec.effective = some m → Ideal L m.params →
      Honest L job m chunks pieces → Binding L W spec.mid pieces →
      (∀ seg < m.segments.length, Served W spec m.params.dataShards seg (pieces seg)) → Undisturbed W →
      ∀ start events disk, start.Sane → (∀ event ∈ events, event.Sane) →
        run (happens L K) start events = some disk →
        (∀ part, disk.part = some part → Uncollided L chunks part) →
        (runInner L K W spec disk 0).value = .ok (.complete chunks.flatten.length) ∧
          (runInner L K W spec disk 0).store.output = some chunks.flatten) := by
  refine ⟨fun start events disk ran => output_of_run ran, ?_, ?_⟩
  · intro job W m chunks disk t manifest describes clean next kept started returned
    have ended := (resume_content (W := W) (t := t) manifest describes clean).2
    rw [returned] at ended
    exact ended
  intro spec W job m chunks pieces prepared effective ideal honest binding served calm start events disk
    sane sound ran clean
  obtain ⟨rfl, passed, manifest⟩ := job_ok prepared
  obtain ⟨params, _, candidates, agrees⟩ := ReceiveSpec.prepare_ok passed
  obtain ⟨valid, _, counts, count⟩ := agrees m effective
  have ready : Job.Ready L W job m chunks pieces := {
    ideal, honest, binding, calm, served, candidates, count
    accepted := TransferManifest.accepted_of_validate valid
    manifest := manifest.trans effective
    params := params.trans counts.symm }
  have ends : (runInner L K W job.spec).Ensures (fun _ => True) (fun _ _ => False)
      (fun outcome later _ => outcome = .complete chunks.flatten.length ∧
        later.output = some chunks.flatten) disk 0 := by
    rw [runInner, Program.ensures_bind]
    refine ensures_checkOutputTarget (fun e failed => ?_) trivial trivial ?_
    · rw [calm.target] at failed
      cases failed
    · rw [Program.ensures_bind, Program.ensures_ofExcept, prepared]
      exact Job.receive_complete ready (sane_of_run sane sound ran) clean
  obtain ⟨outcome, returned, rfl, output⟩ := ends.returns
  exact ⟨returned, output⟩

/-! ## Two segments, each from two of three holders -/

namespace Receiving

def kdf : PasswordKdf := ⟨fun _ salt _ _ _ => .ok ⟨salt.toList ++ salt.toList, by simp [salt.length_toList]⟩⟩

def chunks : List Bytes := [[7, 8, 9], [10, 11, 12]]

def mid : ContentId := libraries.compute chunks.flatten params.toParamBytes

def piecesOf (seg : Nat) (chunk : Bytes) : List MiasmaShare :=
  match libraries.dissolveSegmentFor .suite1 chunk mid (UInt32.ofNat seg) 0 params none 1000
    ⟨.fill 32 1, .fill 12 2, 0⟩ with
  | .ok (_, shares) => shares
  | _ => []

def pieces (seg : Nat) : List MiasmaShare := chunks[seg]?.elim [] (piecesOf seg)

def entry (seg : Nat) : SegmentEntry where
  index := UInt32.ofNat seg
  plaintextLen := 3
  plainHash := libraries.blake3 (chunks.getD seg [])
  pieceIds := (pieces seg).map (pieceCommitment libraries mid)

def manifest : TransferManifest where
  version := 3
  mid := mid.digest
  publisher := .fill 32 5
  name := none
  dataShards := 2
  totalShards := 3
  segmentSize := 3
  totalBytes := 6
  protection := .unprotected
  segments := [entry 0, entry 1]

def locations (seg : UInt32) : List ShardLocation := [⟨[0], 0, seg, []⟩, ⟨[1], 1, seg, []⟩, ⟨[2], 2, seg, []⟩]

def spec : ReceiveSpec where
  mid
  record := ⟨mid.digest, 2, 3, 1, locations 0 ++ locations 1, 0⟩
  manifest := some manifest
  manifestV4 := none
  password := none
  outputPath := "out"
  restart := false
  maxAttempts := 1
  expect := none
  recordSigner := none

/-- The first holder fails; the others have their pieces. -/
def surroundings : Surroundings where
  outputTarget := .ok ()
  cancelled _ := false
  now _ := 0
  fetchPiece _ _ seg slot holder :=
    if holder.peerIdBytes = [0] then .error (.network "gone")
    else .ok ((pieces seg.toNat).find? fun piece => piece.slotIndex = slot)
  writeFailure _ := none
  joinError := ""

def prepared : Prepared where
  params := params
  key := none
  segmentCount := 2
  totalBytes := 6
  candidates := [0, 1].map fun seg => (locations seg).map fun holder => (holder.shardIndex, holder)
  suite := .suite1

def job : Job := ⟨spec, prepared, some manifest, some (libraries.blake3 manifest.encoded)⟩

theorem pieces_below {seg : Nat} (there : piece ∈ pieces seg) : seg < 2 := by
  by_contra past
  rw [pieces, List.getElem?_eq_none (Nat.le_of_not_lt past)] at there
  cases there

theorem pieces_fit {seg : Nat} (there : piece ∈ pieces seg) : Fits piece := by
  have short : ∀ seg < 2, ∀ piece ∈ pieces seg, piece.shardData.length < 2 ^ 64 ∧ piece.keyShare.length < 2 ^ 64 := by
    decide +kernel
  obtain ⟨shard, key⟩ := short seg (pieces_below there) piece there
  exact ⟨shard, key⟩

theorem honest : Honest libraries job manifest chunks pieces where
  mid := by decide +kernel
  count := rfl
  made := by
    intro seg found chunk listed there
    have inside : seg < 2 := (List.getElem?_eq_some_iff.mp there).1
    have made : ∀ seg < 2, libraries.dissolveSegmentFor .suite1 (chunks.getD seg []) mid (UInt32.ofNat seg) 0 params
        none 1000 ⟨.fill 32 1, .fill 12 2, 0⟩ = .ok (⟨UInt32.ofNat seg, 0, 3, 3⟩, pieces seg) ∧
        SegmentEntry.fromDissolved libraries (UInt32.ofNat seg) mid (chunks.getD seg []) (pieces seg) =
          .ok (entry seg) ∧ manifest.segments[seg]? = some (entry seg) := by
      decide +kernel
    obtain ⟨dissolved, entered, held⟩ := made seg inside
    rw [List.getD_eq_getElem?_getD, there] at dissolved entered
    cases listed.symm.trans held
    exact ⟨_, _, _, _, dissolved, entered⟩
  fits seg piece := pieces_fit

theorem binding : Binding libraries surroundings mid pieces := by
  intro _ seg slot holder share answered
  simp only [surroundings] at answered
  split at answered
  · cases answered
  have there := List.mem_of_find?_eq_some (Except.ok.inj answered)
  refine ⟨pieces_fit there, fun piece here => ?_⟩
  have apart : ∀ seg < 2, ∀ left ∈ pieces (UInt32.ofNat seg).toNat, ∀ right ∈ pieces seg,
      pieceCommitment libraries mid left = pieceCommitment libraries mid right →
      commitmentBytes mid left = commitmentBytes mid right := by
    decide +kernel
  exact apart seg (pieces_below here) share there piece here

theorem served (seg : Nat) (inside : seg < 2) : Served surroundings spec 2 seg (pieces seg) := by
  have answers : ∀ seg < 2, ([1, 2] : List UInt16).all (fun slot => ∃ holder ∈ spec.record.locations,
      holder.segmentIndex.toNat = seg ∧ holder.shardIndex = slot ∧ ∃ piece ∈ pieces seg, piece.slotIndex = slot ∧
        surroundings.fetchPiece 0 mid (UInt32.ofNat seg) slot holder = .ok (some piece)) = true := by
    decide +kernel
  refine ⟨[1, 2], by decide, by decide, fun slot member => ?_⟩
  obtain ⟨holder, there, segment, same, piece, listed, here, answer⟩ :=
    of_decide_eq_true (List.all_eq_true.mp (answers seg inside) slot member)
  exact ⟨holder, there, segment, same, piece, listed, here, fun _ => answer⟩

theorem uncollided : Uncollided libraries chunks [7, 8, 9] := by
  intro chunk there block inside len same
  have apart : ∀ chunk ∈ chunks, chunk.length = 3 ∧
      (libraries.blake3 [7, 8, 9] = libraries.blake3 chunk → [7, 8, 9] = chunk) := by
    decide +kernel
  obtain ⟨three, apart⟩ := apart chunk there
  obtain rfl := inside.eq_of_length (len.trans three)
  exact apart same

def empty : Disk := ⟨none, none, fun _ => none⟩

/-- A run that is cut off when the first segment is in the file, and one to the end. -/
theorem receives_after_cut : ∃ disk,
    run (happens libraries kdf) empty [.receive spec surroundings (some 11)] = some disk ∧
      disk.part = some [7, 8, 9] ∧
      (runInner libraries kdf surroundings spec disk 0).value = .ok (.complete 6) ∧
      (runInner libraries kdf surroundings spec disk 0).store.output = some [7, 8, 9, 10, 11, 12] := by
  have cut : (run (happens libraries kdf) empty [.receive spec surroundings (some 11)]).any
      (fun disk => disk.part = some [7, 8, 9]) = true := by
    decide +kernel
  obtain ⟨disk, ran, part⟩ := exists_of_any cut
  exact ⟨disk, ran, part, (receive_safe_resumable_complete libraries kdf).2.2 spec surroundings job manifest chunks
    pieces (by decide +kernel) rfl ideal honest binding served ⟨rfl, fun _ => rfl, fun _ => rfl⟩ empty _ disk
    (by simp [Disk.Sane, empty]) (by simp [Happening.Sane]) ran (fun _ there => by
      cases part.symm.trans there
      exact uncollided)⟩

end Receiving

end Miasma.Transfer
