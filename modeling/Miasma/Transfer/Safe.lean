import Miasma.Transfer.Receive

namespace Miasma.Transfer

open Data Dissolution Network Program ReceiveJournal Surroundings List

/-! What every run of the receive engine leaves behind. -/

def Disk.Sane (disk : Disk) : Prop :=
  ∀ mid journal, disk.journals mid = some journal → journal.nextSegment ≤ journal.segmentCount

/-- What holds of the files at every step of a receive that started from `start`. -/
structure Guarded (L : Libraries) (spec : ReceiveSpec) (start disk : Disk) : Prop where
  output : disk.output = start.output ∨
    ∃ bytes, disk.output = some bytes ∧ L.compute bytes spec.params.toParamBytes = spec.mid
  sane : start.Sane → disk.Sane

variable {L : Libraries} {W : Surroundings} {spec : ReceiveSpec} {start disk : Disk} {t : Nat}

namespace Guarded

theorem refl (disk : Disk) : Guarded L spec disk disk := ⟨.inl rfl, id⟩

theorem of_same {next : Disk} (guarded : Guarded L spec start disk) (output : next.output = disk.output)
    (journals : next.journals = disk.journals) : Guarded L spec start next := by
  refine ⟨output ▸ guarded.output, fun sane mid journal there => ?_⟩
  exact guarded.sane sane mid journal (journals ▸ there)

theorem setJournal (guarded : Guarded L spec start disk) {mid : ContentId}
    (sane : ∀ kept, journal = some kept → start.Sane → kept.nextSegment ≤ kept.segmentCount) :
    Guarded L spec start (disk.setJournal mid journal) := by
  refine ⟨guarded.output, fun before other kept there => ?_⟩
  simp only [Disk.setJournal] at there
  split at there
  · exact sane kept there before
  · exact guarded.sane before other kept there

end Guarded

/-! ## The prefix that is kept -/

variable {entries : List SegmentEntry} {rest bytes kept : Bytes} {left next : Nat}

theorem verifySegments_prefix
    (verified : verifySegments L left entries rest (good, bytes) = .ok (next, kept)) :
    next ≤ good + left ∧ ∃ more, kept = bytes ++ more ∧ more <+: rest := by
  induction left generalizing entries rest bytes good with
  | zero =>
    cases verified
    exact ⟨Nat.le_refl _, [], by simp, nil_prefix⟩
  | succ left ih =>
    cases entries with
    | nil => cases verified
    | cons entry entries =>
      simp only [verifySegments] at verified
      split at verified
      · obtain ⟨below, more, rfl, inside⟩ := ih verified
        refine ⟨by omega, rest.take entry.plaintextLen.toNat ++ more, by simp, ?_⟩
        obtain ⟨tail, whole⟩ := inside
        exact ⟨tail, by rw [append_assoc, whole, take_append_drop]⟩
      · cases verified
        exact ⟨by omega, [], by simp, nil_prefix⟩

/-- Whatever the partial file and the journal hold, what is kept is a prefix of the file, and
no more segments are counted than the journal counts. -/
theorem verifyPrefix_prefix
    (verified : verifyPrefix L part manifest journalNext journalBytes = .ok (next, kept)) :
    next ≤ journalNext ∧ kept <+: part := by
  cases manifest with
  | none =>
    simp only [verifyPrefix] at verified
    split at verified
    · cases verified
      exact ⟨Nat.zero_le _, nil_prefix⟩
    · cases verified
      exact ⟨Nat.le_refl _, take_prefix _ _⟩
  | some m =>
    obtain ⟨below, more, rfl, inside⟩ := verifySegments_prefix verified
    exact ⟨by omega, by simpa using inside⟩

/-- Each entry of the manifest has the length and the hash of its segment. -/
def Describes (L : Libraries) (entries : List SegmentEntry) (chunks : List Bytes) : Prop :=
  Forall₂ (fun entry chunk =>
    chunk.length = entry.plaintextLen.toNat ∧ L.blake3 chunk = entry.plainHash) entries chunks

/-- Nothing in the file has the length and the hash of a segment without being it. -/
def Uncollided (L : Libraries) (chunks : List Bytes) (bytes : Bytes) : Prop :=
  ∀ chunk ∈ chunks, ∀ block, block <:+: bytes → block.length = chunk.length →
    L.blake3 block = L.blake3 chunk → block = chunk

variable {chunks : List Bytes}

theorem Uncollided.of_infix (clean : Uncollided L chunks bytes) (fewer : others ⊆ chunks)
    (inside : rest <:+: bytes) : Uncollided L others rest :=
  fun chunk there block within => clean chunk (fewer there) block (within.trans inside)

theorem verifySegments_content (describes : Describes L entries chunks) (clean : Uncollided L chunks rest)
    (verified : verifySegments L left entries rest (good, bytes) = .ok (next, kept)) :
    ∃ count ≤ chunks.length, next = good + count ∧ kept = bytes ++ (chunks.take count).flatten := by
  induction left generalizing entries chunks rest bytes good with
  | zero =>
    cases verified
    exact ⟨0, Nat.zero_le _, rfl, by simp⟩
  | succ left ih =>
    cases describes with
    | nil => cases verified
    | @cons entry chunk entries chunks same describes =>
      simp only [verifySegments] at verified
      split at verified
      · rename_i holds
        have block : rest.take entry.plaintextLen.toNat = chunk := by
          refine clean chunk (by simp) _ ( take_prefix _ _).isInfix ?_ (holds.2.trans same.2.symm)
          rw [length_take, Nat.min_eq_left holds.1, same.1]
        obtain ⟨count, below, rfl, rfl⟩ := ih describes
          (clean.of_infix (by simp) (drop_suffix _ _).isInfix) verified
        exact ⟨count + 1, by simpa using below, by omega, by simp [block]⟩
      · cases verified
        exact ⟨0, Nat.zero_le _, rfl, by simp⟩

theorem verifySegments_exists (enough : left ≤ entries.length) (rest : Bytes) (before : Nat × Bytes) :
    ∃ kept, verifySegments L left entries rest before = .ok kept := by
  induction left generalizing entries rest before with
  | zero => exact ⟨before, rfl⟩
  | succ left ih =>
    cases entries with
    | nil => simp at enough
    | cons entry entries =>
      simp only [verifySegments]
      split
      · exact ih (by simpa using enough) _ _
      · exact ⟨_, rfl⟩

/-! ## Starting again -/

variable {post : Unit → Disk → Nat → Prop} {crash : Disk → Prop}

namespace Job

variable {job : Job}

variable {journal : ReceiveJournal}

theorem prior_eq_some (found : job.prior disk = some (part, journal)) :
    disk.part = some part ∧ disk.journals job.spec.mid = some journal ∧ job.accepts journal = true := by
  simp only [prior] at found
  split at found
  · cases found
  split at found
  · rename_i there kept
    cases found
    obtain ⟨stored, accepted⟩ := Option.filter_eq_some_iff.mp kept
    exact ⟨there, stored, accepted⟩
  · cases found

theorem segmentCount_of_accepts (accepted : job.accepts journal = true) :
    journal.segmentCount = job.prepared.segmentCount := by
  simp only [accepts, decide_eq_true_eq] at accepted
  exact accepted.2.2.2.2.1

variable {fails : MiasmaError → Disk → Prop}

theorem ensures_resume {post : Nat × Bytes × UInt64 → Disk → Nat → Prop}
    (stops : ∀ part journal, job.prior disk = some (part, journal) →
      (∀ kept, verifyPrefix L part job.manifest journal.nextSegment journal.bytesDone ≠ .ok kept) →
      ∀ reason, fails reason disk)
    (resumes : ∀ part journal next kept, job.prior disk = some (part, journal) →
      verifyPrefix L part job.manifest journal.nextSegment journal.bytesDone = .ok (next, kept) →
      kept <+: part → next ≤ journal.nextSegment →
      ∀ later : Disk, later.part = some kept → later.output = disk.output → later.journals = disk.journals →
        crash later ∧ post (next, kept, journal.startedAt) later (t + 1))
    (starts : ∀ started later, later.part = some [] → later.output = disk.output →
      later.journals = (disk.setJournal job.spec.mid none).journals →
      post (0, [], started) later (t + 1))
    (removed : ∀ later : Disk, later.output = disk.output → later.journals = disk.journals ∨
      later.journals = (disk.setJournal job.spec.mid none).journals → crash later) :
    Ensures (job.resume L W) crash fails post disk t := by
  simp only [resume, nowSecs, ensures_bind, ensures_recalling, ensures_reading]
  split
  · rename_i part journal found
    obtain ⟨there, _, _⟩ := prior_eq_some found
    split
    · rename_i panics
      rw [ensures_bind, ensures_fail]
      exact stops part journal found (by simp [panics]) _
    · rename_i e failed
      rw [ensures_bind, ensures_fail]
      exact stops part journal found (by simp [failed]) _
    rename_i next kept verified
    obtain ⟨below, inside⟩ := verifyPrefix_prefix verified
    have trimmed : (disk.setLen kept.length).part = some kept := by
      rw [part_setLen there inside.length_le, prefix_iff_eq_take.mp inside]
      simp
    have created : (disk.setLen kept.length).createPart.part = some kept := by
      simp [Disk.createPart, trimmed]
    simp only [ensures_bind, ensures_write, ensures_pure]
    obtain ⟨first, _⟩ := resumes part journal next kept found verified inside below _ trimmed rfl rfl
    exact ⟨first, resumes part journal next kept found verified inside below _ created rfl rfl⟩
  · simp only [removePart, remove, ensures_bind, ensures_write, ensures_pure]
    refine ⟨removed _ rfl (.inl rfl), removed _ rfl (.inr rfl), removed _ rfl (.inr rfl), ?_⟩
    exact starts _ _ rfl rfl rfl

/-! ## Fetching and decoding touch no file -/

theorem quiet_topUp (seg want : Nat) (suspects : List Suspect) (candidates : List (UInt16 × ShardLocation))
    (pool : List PooledPiece) : Quiet (job.topUp L W seg want suspects candidates pool) := by
  induction candidates generalizing pool with
  | nil => exact .pure pool
  | cons candidate rest ih =>
    simp only [topUp]
    split
    · exact .pure pool
    refine .bind (.recalling _ _) fun cancelled => ?_
    split
    · exact .pure pool
    split
    · exact ih pool
    refine .bind (.recalling _ _) fun answer => ?_
    split
    · split <;> exact ih _
    · exact ih pool
    · exact ih pool

theorem quiet_fillPool (seg want : Nat) (suspects : List Suspect) (pool : List PooledPiece) :
    Quiet (job.fillPool L W seg want suspects pool) := by
  refine .bind (quiet_topUp _ _ _ _ _) fun filled => ?_
  split <;> exact .pure _

theorem quiet_trySwaps (seg : Nat) (base : List PooledPiece) (suspects : List Suspect)
    (firstErr : MiasmaError) (swaps : List (PooledPiece × Nat)) (attempts : Nat) :
    Quiet (job.trySwaps L W seg base suspects firstErr swaps attempts) := by
  induction swaps generalizing attempts with
  | nil => exact .fail firstErr
  | cons swap rest ih =>
    simp only [trySwaps]
    split
    · exact .fail firstErr
    refine .bind (.recalling _ _) fun cancelled => ?_
    split
    · exact .fail firstErr
    split
    · exact .pure _
    split
    · exact ih _
    · exact .fail _

theorem quiet_decodeWithFallback (seg : Nat) (suspects : List Suspect) (pool : List PooledPiece) :
    Quiet (job.decodeWithFallback L W seg suspects pool) := by
  simp only [decodeWithFallback]
  split
  · exact .pure _
  split
  · exact .bind (quiet_fillPool _ _ _ _) fun filled => quiet_trySwaps _ _ _ _ _ _
  · exact .fail _

/-! ## A whole run -/

/-- The journal of a run that is at segment `seg`. -/
structure AtSegment (job : Job) (seg : Nat) (journal : ReceiveJournal) : Prop where
  count : journal.segmentCount = job.prepared.segmentCount
  next : journal.nextSegment = seg

theorem guarded_save (guarded : Guarded L spec start disk) (place : AtSegment job seg journal)
    (below : start.Sane → seg ≤ job.prepared.segmentCount) (updatedAt : UInt64) (lastError : Option String) :
    Guarded L spec start (disk.setJournal journal.mid (some { journal with updatedAt, lastError })) := by
  refine guarded.setJournal fun kept same sane => ?_
  cases same
  rw [place.next, place.count]
  exact below sane

theorem gather_guarded (guarded : Guarded L spec start disk) (place : AtSegment job seg journal)
    (below : seg ≤ job.prepared.segmentCount) (suspects : List Suspect) (left attempt : Nat)
    (pool : List PooledPiece) {t : Nat} {post : ReceiveOutcome ⊕ List PooledPiece → Disk → Nat → Prop}
    (ended : ∀ outcome later t, Guarded L spec start later → post (.inl outcome) later t)
    (filled : ∀ pool t, post (.inr pool) disk t) :
    Ensures (job.gather L W seg suspects journal left attempt pool) (Guarded L spec start)
      (fun _ => Guarded L spec start) post disk t := by
  rw [gather, ensures_bind]
  refine (quiet_fillPool _ _ _ _).ensures (fun _ => guarded) fun result t => ?_
  obtain ⟨pool, _ | _⟩ := result
  rotate_left
  · exact (ensures_pure _).mpr (filled pool t)
  simp only [isCancelled, ensures_bind, ensures_recalling]
  split
  · have saved := guarded_save guarded place (fun _ => below) journal.updatedAt journal.lastError
    simp only [save, ensures_bind, ensures_write, ensures_pure]
    exact ⟨saved, ended _ _ _ saved⟩
  cases left with
  | zero =>
    have saved := guarded_save guarded place (fun _ => below) (W.now (t + 1))
    simp only [nowSecs, save, ensures_bind, ensures_recalling, ensures_write, ensures_pure]
    exact ⟨saved _, ended _ _ _ (saved _)⟩
  | succ left => exact gather_guarded guarded place below suspects left _ _ ended filled

theorem append_guarded (guarded : Guarded L spec start disk) (position : Nat) (data : Bytes)
    (ended : post () (disk.writeAt position data) t) :
    Ensures (append position data) (Guarded L spec start) fails post disk t := by
  simp only [append, ensures_writeThrough, mem_map, mem_range, forall_exists_index, and_imp]
  refine ⟨?_, guarded.of_same rfl rfl, ended⟩
  rintro left count _ rfl
  exact guarded.of_same rfl rfl

section

variable (same : job.prepared.params = spec.params)
include same

theorem finish_guarded (mid : job.spec.mid = spec.mid) (guarded : Guarded L spec start disk)
    (there : disk.part = some received) :
    Ensures (job.finish L received) (Guarded L spec start) (fun _ => Guarded L spec start)
      (fun _ later _ => Guarded L spec start later) disk t := by
  simp only [finish]
  split
  · have removed : Guarded L spec start (disk.removePart.setJournal job.spec.mid none) :=
      (guarded.of_same rfl rfl : Guarded L spec start disk.removePart).setJournal (by simp)
    simp only [removePart, remove, ensures_bind, ensures_write, ensures_fail]
    exact ⟨guarded.of_same rfl rfl, removed, removed⟩
  rename_i matching
  rw [not_not, same, mid] at matching
  have renamed : Guarded L spec start disk.rename := by
    refine ⟨.inr ⟨received, ?_, matching⟩, fun sane => ?_⟩
    · rw [Disk.rename, there]
    rw [Disk.rename, there]
    exact guarded.sane sane
  have ended : Guarded L spec start (disk.rename.setJournal job.spec.mid none) := renamed.setJournal (by simp)
  simp only [remove, ensures_bind, ensures_write, ensures_pure]
  exact ⟨renamed, ended, ended⟩

theorem transfer_guarded (mid : job.spec.mid = spec.mid)
    (left seg : Nat) (received : Bytes) (suspects : List Suspect) (journal : ReceiveJournal)
    (guarded : Guarded L spec start disk) (there : disk.part = some received)
    (place : AtSegment job seg journal) (rest : left = job.prepared.segmentCount - seg) :
    Ensures (job.transfer L W left seg received suspects journal) (Guarded L spec start)
      (fun _ => Guarded L spec start) (fun _ later _ => Guarded L spec start later) disk t := by
  induction left generalizing seg received suspects journal disk t with
  | zero => exact finish_guarded same mid guarded there
  | succ left ih =>
    have below : seg + 1 ≤ job.prepared.segmentCount := by omega
    have saved (updatedAt lastError) := guarded_save guarded place (fun _ => by omega) updatedAt lastError
    simp only [transfer, isCancelled, ensures_bind, ensures_recalling]
    split
    · simp only [save, ensures_bind, ensures_write, ensures_pure]
      exact ⟨saved journal.updatedAt journal.lastError, saved journal.updatedAt journal.lastError⟩
    rw [ensures_bind]
    refine gather_guarded guarded place (by omega) suspects _ _ _ ?_ ?_
    · intro outcome later t kept
      exact (ensures_pure _).mpr kept
    intro pool t
    simp only [ensures_bind]
    refine (quiet_decodeWithFallback _ _ _).ensures (fun _ => guarded) fun decoded t => ?_
    obtain ⟨suspects, plaintext⟩ := decoded
    simp only [writeSegment, ensures_bind, ensures_recalling]
    split
    · -- The whole segment is in the file; the journal follows.
      rw [ensures_bind]
      refine append_guarded guarded _ _ ?_
      have kept : Guarded L spec start (disk.writeAt received.length plaintext) := guarded.of_same rfl rfl
      have counted : AtSegment job (seg + 1) { journal with
          nextSegment := seg + 1, bytesDone := (received ++ plaintext).length,
          updatedAt := W.now (t + 1), lastError := none } := ⟨place.count, rfl⟩
      have entered := guarded_save kept counted (fun _ => below) (W.now (t + 1)) none
      simp only [nowSecs, save, ensures_pure, ensures_bind, ensures_recalling, ensures_write]
      exact ⟨entered, ih (seg + 1) _ suspects _ entered (part_writeAt there plaintext) counted (by omega)⟩
    · rename_i count reason failed
      rw [ensures_bind]
      refine append_guarded guarded _ _ ?_
      have kept : Guarded L spec start (disk.writeAt received.length (plaintext.take count)) :=
        guarded.of_same rfl rfl
      have entered (lastError) := guarded_save kept place (fun _ => by omega) journal.updatedAt lastError
      simp only [save, ensures_pure, ensures_bind, ensures_write]
      exact ⟨entered _, entered _⟩

theorem receive_guarded (mid : job.spec.mid = spec.mid) (guarded : Guarded L spec start disk) :
    Ensures (job.receive L W) (Guarded L spec start) (fun _ => Guarded L spec start)
      (fun _ later _ => Guarded L spec start later) disk t := by
  have cleared : Guarded L spec start (disk.setJournal job.spec.mid none) := guarded.setJournal (by simp)
  -- After the resume the partial file holds what was received, and a journal can be kept.
  have goes : ∀ {later : Disk} {next : Nat} {kept : Bytes} {started : UInt64} {t : Nat},
      Guarded L spec start later → later.part = some kept →
      (start.Sane → next ≤ job.prepared.segmentCount) →
      Ensures (do
        let updated ← W.nowSecs
        let journal := job.journalAt next kept started updated
        journal.save
        job.transfer L W (job.prepared.segmentCount - next) next kept [] journal) (Guarded L spec start)
        (fun _ => Guarded L spec start) (fun _ later _ => Guarded L spec start later) later t := by
    intro later next kept started t held there below
    have place : AtSegment job next (job.journalAt next kept started (W.now t)) := ⟨rfl, rfl⟩
    have entered := guarded_save held place below (W.now t) none
    simp only [nowSecs, save, ensures_bind, ensures_recalling, ensures_write]
    exact ⟨entered, transfer_guarded same mid _ _ _ _ _ entered there place rfl⟩
  simp only [receive]
  rw [ensures_bind]
  refine ensures_resume ?_ ?_ ?_ ?_
  · exact fun _ _ _ _ _ => guarded
  · intro part journal next kept found _ _ below later there output journals
    obtain ⟨_, stored, accepted⟩ := prior_eq_some found
    have held := guarded.of_same output journals
    refine ⟨held, goes held there fun sane => ?_⟩
    have bound := guarded.sane sane _ journal stored
    rw [segmentCount_of_accepts accepted] at bound
    omega
  · intro started later there output journals
    exact goes (cleared.of_same output journals) there fun _ => Nat.zero_le _
  rintro later output (journals | journals)
  · exact guarded.of_same output journals
  · exact cleared.of_same output journals

end

end Job

theorem job_ok (ready : spec.job L K = .ok job) :
    job.spec = spec ∧ spec.prepare L K = .ok job.prepared ∧ job.manifest = spec.effective := by
  obtain ⟨prepared, passed, ready⟩ := bind_ok_iff.mp ready
  split at ready
  · rename_i absent
    cases ready
    exact ⟨rfl, passed, absent.symm⟩
  · rename_i m there
    obtain ⟨hash, _, ready⟩ := bind_ok_iff.mp ready
    cases ready
    exact ⟨rfl, passed, there.symm⟩

theorem ensures_checkOutputTarget (stops : ∀ e, W.outputTarget = .error e → fails e disk)
    (opened : crash disk.createPart) (same : crash disk) (ended : post () disk t) :
    Ensures (checkOutputTarget W) crash fails post disk t := by
  simp only [checkOutputTarget, ensures_bind, ensures_ofExcept]
  split
  · simp only [ensures_reading, ensures_write, ensures_bind]
    refine ⟨opened, ?_⟩
    cases there : disk.part with
    | none =>
      have back : disk.createPart.removePart = disk := by
        rw [Disk.removePart, Disk.createPart, ← there]
      simp only [Option.isSome_none, Bool.false_eq_true, ↓reduceIte, removePart, ensures_write, back]
      exact ⟨same, ended⟩
    | some bytes =>
      have back : disk.createPart = disk := by
        rw [Disk.createPart, there, Option.getD_some, ← there]
      simp only [Option.isSome_some, ↓reduceIte, ensures_pure, back]
      exact ended
  · rename_i e failed
    exact stops e failed

/-- Whatever its source answers and wherever it stops, a run changes the output to content
with the requested identifier or not at all, and leaves no journal ahead of its segments. -/
theorem runInner_guarded (K : PasswordKdf) (spec : ReceiveSpec) (disk : Disk) :
    Ensures (runInner L K W spec) (Guarded L spec disk) (fun _ => Guarded L spec disk)
      (fun _ later _ => Guarded L spec disk later) disk t := by
  have here : Guarded L spec disk disk := .refl disk
  simp only [runInner]
  rw [ensures_bind]
  refine ensures_checkOutputTarget (fun _ _ => here) (here.of_same rfl rfl) here ?_
  rw [ensures_bind, ensures_ofExcept]
  split
  · rename_i job ready
    obtain ⟨rfl, passed, _⟩ := job_ok ready
    exact Job.receive_guarded (ReceiveSpec.prepare_ok passed).1 rfl here
  · exact here

end Miasma.Transfer
