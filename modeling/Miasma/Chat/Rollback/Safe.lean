import Miasma.Chat.Crypto.Ideal
import Miasma.Chat.Rollback.World

namespace Miasma.Chat.Rollback

open Data List Anchor

/-! Rollback protection over whole runs.  A `View` is what concerns one contact, and every step
changes the view of one contact. -/

variable {S : Suite}

structure View (S : Suite) where
  record : Option Record
  seen : Option Seen
  file : Option (SessionFile S)
  slot : Option (PeerSlot S)
  writing : Option (Writing S)
  past : Past S

def World.view (w : World S) (peer : B32) : View S where
  record := w.store.anchor.bind (·.read peer)
  seen := w.store.anchor.bind (·.seen.get? peer)
  file := w.store.files.get? peer
  slot := w.store.peers.get? peer
  writing := w.writing.filter (·.peer = peer)
  past := w.past peer

/-- The file may be used: it is the latest, and no completed write came after it. -/
def Past.Usable (past : Past S) (disk : Fingerprint) : Prop := past.Latest disk ∧ disk ∉ past.superseded

def Past.Counts (past : Past S) (seq : UInt64) : Prop := ∀ old ∈ past.completed, old ≤ seq

structure View.Writes (v : View S) (used : List Fingerprint) (peer : B32) (writing : Writing S) : Prop where
  contact : writing.peer = peer ∧ writing.state.peer = peer
  held : v.slot.isSome
  known : writing.fingerprint ∈ used ∧ writing.fingerprint ≠ noFile ∧ writing.fingerprint ∉ v.past.superseded
  counts : v.past.Counts writing.state.sendSeq
  recorded : ∃ s entry, v.seen = some s ∧ v.record = some entry ∧ entry.cur = s.onDisk ∧
    entry.next = writing.fingerprint
  unplaced : writing.placed = false → ∀ file ∈ v.past.versions, file.fingerprint ≠ writing.fingerprint
  placed : writing.placed = true → (⟨writing.fingerprint, some writing.state⟩ : SessionFile S) ∈ v.past.versions

structure View.Safe (used : List Fingerprint) (peer : B32) (v : View S) : Prop where
  file_known : ∀ file, v.file = some file → file ∈ v.past.versions
  version : ∀ file ∈ v.past.versions, (∃ state, file.content = some state ∧ state.peer = peer) ∧
    file.fingerprint ≠ noFile ∧ file.fingerprint ∈ used
  distinct : ∀ file ∈ v.past.versions, ∀ other ∈ v.past.versions, file.fingerprint = other.fingerprint → file = other
  superseded_known : ∀ disk ∈ v.past.superseded, disk = noFile ∨ disk ∈ used
  live : ∀ file ∈ v.past.versions, file.fingerprint ∉ v.past.superseded →
    ∀ state, file.content = some state → v.past.Counts state.sendSeq
  none_completed : noFile ∉ v.past.superseded → v.past.completed = []
  unrecorded : v.record = none → v.past.versions = [] ∧ v.past.superseded = [] ∧
    v.past.completed = [] ∧ v.past.lastCompleted = noFile
  record_counts : ∀ entry, v.record = some entry → v.past.Counts entry.sendSeqHwm
  record_usable : v.writing = none → ∀ entry, v.record = some entry →
    v.past.Usable entry.cur ∧ v.past.Usable entry.next
  seen_counts : ∀ s, v.seen = some s → v.past.Counts s.seqHwm
  seen_current : ∀ s, v.seen = some s → s.onDisk = v.past.current
  seen_usable : ∀ s, v.seen = some s → v.past.rejected = false →
    v.past.Usable s.onDisk ∧ (s.onDisk = v.past.lastCompleted ∨ s.onDisk ∈ v.past.accepted)
  slot_seen : v.slot.isSome → v.seen.isSome
  slot_counts : ∀ slot, v.slot = some slot → slot.state.peer = peer ∧ v.past.Counts slot.state.sendSeq
  rejected_dirty : v.past.rejected = true → ∃ slot, v.slot = some slot ∧ slot.dirty = true
  writes : ∀ writing, v.writing = some writing → v.Writes used peer writing

theorem Past.Counts.mono {past : Past S} (counts : past.Counts seq) (order : seq ≤ more) : past.Counts more :=
  fun old inside => UInt64.le_trans (counts old inside) order

theorem Past.Usable.accept {past : Past S} (usable : past.Usable disk) (current : Fingerprint)
    (rejected : Bool) (more : List Fingerprint) :
    ({ past with
      current := current
      rejected := rejected
      accepted := more ++ past.accepted } : Past S).Usable disk := by
  obtain ⟨latest, kept⟩ := usable
  refine ⟨?_, kept⟩
  cases latest with
  | inl last => exact .inl last
  | inr cut =>
    obtain ⟨pair, interrupted, which⟩ := cut
    refine .inr ⟨pair, interrupted, ?_⟩
    cases which with
    | inl written => exact .inl written
    | inr replaced => exact .inr ⟨replaced.1, mem_append_right _ replaced.2⟩

theorem le_max_left_u64 {first second : UInt64} : first ≤ max first second := by
  rw [show max first second = if first ≤ second then second else first from rfl]
  split
  · assumption
  · exact UInt64.le_refl _

theorem le_max_right_u64 (first second : UInt64) : second ≤ max first second := by
  rw [show max first second = if first ≤ second then second else first from rfl]
  split
  · exact UInt64.le_refl _
  rename_i less
  exact UInt64.le_of_lt (UInt64.not_le.mp less)

theorem forall_some {p : α → Prop} (here : p a) : ∀ b, some a = some b → p b := by
  rintro _ ⟨⟩
  exact here

theorem forall_none {p : α → Prop} (none : o = none) : ∀ b, o = some b → p b := by
  rw [none]
  exact nofun

/-- The fingerprint and the state `load_peer` reads. -/
def View.disk (v : View S) : Fingerprint := v.file.elim noFile SessionFile.fingerprint

def View.stored (v : View S) (peer : B32) : PeerState S :=
  (v.file.bind SessionFile.content).getD (PeerState.new S peer)

def View.loadedFine (v : View S) (peer : B32) (record : Option Record) (seen : Seen) : View S := { v with
    record := record
    seen := some seen
    slot := some ⟨v.stored peer, false⟩
    past := { v.past with
      current := v.disk
      rejected := false
      accepted := v.disk :: v.past.accepted } }

def View.loadedBehind (v : View S) (peer : B32) (record : Option Record) (seen : Seen)
    (floor : UInt64) : View S :=
  { v with
    record := record
    seen := some seen
    slot := some ⟨{ v.stored peer with
      session := none
      sendSeq := max (v.stored peer).sendSeq floor }, true⟩
    past := { v.past with current := v.disk, rejected := true } }

namespace View.Safe

variable {used : List Fingerprint} {peer : B32} {v : View S}

theorem grow (safe : v.Safe used peer) (fingerprint : Fingerprint) : v.Safe (fingerprint :: used) peer := { safe with
  version := fun file inside =>
    ⟨(safe.version file inside).1, (safe.version file inside).2.1, mem_cons_of_mem _ (safe.version file inside).2.2⟩
  superseded_known := fun disk inside =>
    (safe.superseded_known disk inside).imp id (mem_cons_of_mem _)
  writes := fun writing here =>
    let writes := safe.writes writing here
    { writes with
      known := ⟨mem_cons_of_mem _ writes.known.1, writes.known.2⟩ } }

theorem unrejected (safe : v.Safe used peer) (absent : v.slot = none) : v.past.rejected = false := by
  cases rejected : v.past.rejected with
  | false => rfl
  | true =>
    obtain ⟨slot, held, -⟩ := safe.rejected_dirty rejected
    rw [absent] at held
    cases held

variable {record : Option Record} {seen : Seen}

section

variable (safe : v.Safe used peer)
include safe

/-- The file of a contact that is not loaded and not being written is usable if
`check` finds it fine. -/
theorem fine_usable (absent : v.slot = none) (idle : v.writing = none)
    (verdict : checkEntry v.record v.seen v.disk (v.stored peer).sendSeq =
      (record, seen, .fine)) : v.past.Usable v.disk := by
  cases marked : v.seen with
  | some s =>
    rw [marked] at verdict
    simp only [checkEntry] at verdict
    split at verdict
    · rename_i same
      rw [← same]
      exact (safe.seen_usable s marked (safe.unrejected absent)).1
    · cases verdict
  | none =>
    cases known : v.record with
    | some entry =>
      rw [marked, known] at verdict
      simp only [checkEntry] at verdict
      split at verdict
      · rename_i named
        obtain ⟨cur, next⟩ := safe.record_usable idle entry known
        cases named with
        | inl same =>
          rw [same]
          exact cur
        | inr same =>
          rw [same]
          exact next
      · cases verdict
    | none =>
      obtain ⟨noVersions, noSuperseded, -, last⟩ := safe.unrecorded known
      have gone : v.file = none := by
        cases there : v.file with
        | none => rfl
        | some file =>
          have inside := safe.file_known file there
          rw [noVersions] at inside
          cases inside
      have disk : v.disk = noFile := by rw [View.disk, gone]; rfl
      rw [Past.Usable, disk, noSuperseded]
      exact ⟨.inl last.symm, by simp⟩

theorem stored_counts (usable : v.disk ∉ v.past.superseded) : v.past.Counts (v.stored peer).sendSeq := by
  cases there : v.file with
  | none =>
    have disk : v.disk = noFile := by rw [View.disk, there]; rfl
    rw [disk] at usable
    rw [Past.Counts, safe.none_completed usable]
    simp
  | some file =>
    have inside := safe.file_known file there
    obtain ⟨⟨state, content, -⟩, -⟩ := safe.version file inside
    have disk : v.disk = file.fingerprint := by rw [View.disk, there]; rfl
    have stored : v.stored peer = state := by rw [View.stored, there]; simp [content]
    rw [disk] at usable
    rw [stored]
    exact safe.live file inside usable state content

theorem stored_peer : (v.stored peer).peer = peer := by
  cases there : v.file with
  | none => rw [View.stored, there]; rfl
  | some file =>
    obtain ⟨⟨state, content, owner⟩, -⟩ := safe.version file (safe.file_known file there)
    rw [View.stored, there]
    simpa [content] using owner

theorem load_fine (absent : v.slot = none) (idle : v.writing = none)
    (verdict : checkEntry v.record v.seen v.disk (v.stored peer).sendSeq =
      (record, seen, .fine)) : (v.loadedFine peer record seen).Safe used peer := by
  have usable := safe.fine_usable absent idle verdict
  have counts := safe.stored_counts usable.2
  have keep : ∀ {disk}, v.past.Usable disk → (v.loadedFine peer record seen).past.Usable disk :=
    fun usable => usable.accept v.disk false [v.disk]
  -- the record and the mark after `check`, whichever branch it took
  have entries : seen.onDisk = v.disk ∧ v.past.Counts seen.seqHwm ∧
      (record = v.record ∨ ∃ hwm, record = some ⟨v.disk, v.disk, hwm⟩ ∧ v.past.Counts hwm) := by
    cases marked : v.seen with
    | some s =>
      rw [marked] at verdict
      simp only [checkEntry] at verdict
      split at verdict
      · rename_i same
        cases verdict
        exact ⟨same, safe.seen_counts _ marked, .inl rfl⟩
      · cases verdict
    | none =>
      cases known : v.record with
      | some entry =>
        rw [marked, known] at verdict
        simp only [checkEntry] at verdict
        split at verdict
        · cases verdict
          have hwm : v.past.Counts (max entry.sendSeqHwm (v.stored peer).sendSeq) :=
            (safe.record_counts entry known).mono le_max_left_u64
          refine ⟨rfl, hwm, ?_⟩
          split
          · exact .inr ⟨_, rfl, hwm⟩
          · exact .inl rfl
        · cases verdict
      | none =>
        rw [marked, known] at verdict
        cases verdict
        refine ⟨rfl, counts, ?_⟩
        split
        · exact .inr ⟨_, rfl, counts⟩
        · exact .inl rfl
  obtain ⟨onDisk, seenCounts, recordCases⟩ := entries
  exact { safe with
    unrecorded := by
      intro missing
      cases recordCases with
      | inl same => exact safe.unrecorded (same ▸ missing)
      | inr settled =>
        obtain ⟨hwm, value, -⟩ := settled
        rw [value] at missing
        cases missing
    record_counts := by
      intro entry there
      cases recordCases with
      | inl same => exact safe.record_counts entry (same ▸ there)
      | inr settled =>
        obtain ⟨hwm, value, counts⟩ := settled
        rw [value] at there
        cases there
        exact counts
    record_usable := by
      intro _ entry there
      cases recordCases with
      | inl same =>
        obtain ⟨cur, next⟩ := safe.record_usable idle entry (same ▸ there)
        exact ⟨keep cur, keep next⟩
      | inr settled =>
        obtain ⟨hwm, value, -⟩ := settled
        rw [value] at there
        cases there
        exact ⟨keep usable, keep usable⟩
    seen_counts := forall_some seenCounts
    seen_current := forall_some onDisk
    seen_usable := by
      intro s there _
      cases there
      rw [onDisk]
      exact ⟨keep usable, .inr mem_cons_self⟩
    slot_seen := fun _ => rfl
    slot_counts := forall_some ⟨safe.stored_peer, counts⟩
    rejected_dirty := by rintro ⟨⟩
    writes := forall_none idle }

theorem load_behind (idle : v.writing = none)
    (verdict : checkEntry v.record v.seen v.disk (v.stored peer).sendSeq = (record, seen, .behind floor)) :
    v.past.Counts floor ∧ (v.loadedBehind peer record seen floor).Safe used peer := by
  have entries : seen.onDisk = v.disk ∧ seen.seqHwm = floor ∧ v.past.Counts floor ∧ record = v.record := by
    cases marked : v.seen with
    | some s =>
      rw [marked] at verdict
      simp only [checkEntry] at verdict
      split at verdict
      · cases verdict
      cases verdict
      exact ⟨rfl, rfl, (safe.seen_counts s marked).mono le_max_left_u64, rfl⟩
    | none =>
      cases known : v.record with
      | some entry =>
        rw [marked, known] at verdict
        simp only [checkEntry] at verdict
        split at verdict
        · cases verdict
        cases verdict
        exact ⟨rfl, rfl, safe.record_counts entry known, rfl⟩
      | none =>
        rw [marked, known] at verdict
        cases verdict
  obtain ⟨onDisk, mark, counts, same⟩ := entries
  subst same
  refine ⟨counts, ?_⟩
  exact { safe with
    record_usable := by
      intro _ entry there
      obtain ⟨cur, next⟩ := safe.record_usable idle entry there
      exact ⟨cur.accept v.disk true [], next.accept v.disk true []⟩
    seen_counts := forall_some (mark ▸ counts)
    seen_current := forall_some onDisk
    seen_usable := by rintro _ _ ⟨⟩
    slot_seen := fun _ => rfl
    slot_counts := forall_some ⟨safe.stored_peer, counts.mono (le_max_right_u64 _ _)⟩
    rejected_dirty := fun _ => ⟨_, rfl, rfl⟩
    writes := forall_none idle }

end

variable {slot : PeerSlot S}

theorem change (safe : v.Safe used peer) (idle : v.writing = none) (held : v.slot = some slot)
    (owner : state.peer = peer) (order : slot.state.sendSeq ≤ state.sendSeq) :
    ({ v with slot := some ⟨state, true⟩ } : View S).Safe used peer := {
  safe with
  slot_seen := fun _ => safe.slot_seen (by rw [held]; rfl)
  slot_counts := forall_some ⟨owner, (safe.slot_counts slot held).2.mono order⟩
  rejected_dirty := fun _ => ⟨_, rfl, rfl⟩
  writes := forall_none idle }

theorem evict (safe : v.Safe used peer) (idle : v.writing = none)
    (held : v.slot = some slot) (clean : slot.dirty = false) :
    ({ v with slot := none } : View S).Safe used peer := {
  safe with
  slot_seen := nofun
  slot_counts := nofun
  rejected_dirty := by
    intro rejected
    obtain ⟨slot', there, dirty⟩ := safe.rejected_dirty rejected
    rw [held] at there
    cases there
    rw [clean] at dirty
    cases dirty
  writes := forall_none idle }

theorem beforeWrite (safe : v.Safe used peer) (held : v.slot = some slot) (marked : v.seen = some s)
    (real : fingerprint ≠ noFile) (fresh : fingerprint ∉ used) :
    ({ v with
      record := some ⟨s.onDisk, fingerprint, max s.seqHwm slot.state.sendSeq⟩
      writing := some ⟨peer, fingerprint, slot.state, false⟩ } : View S).Safe (fingerprint :: used) peer := by
  have grown := safe.grow fingerprint
  exact { grown with
    unrecorded := nofun
    record_counts := forall_some ((safe.seen_counts s marked).mono le_max_left_u64)
    record_usable := nofun
    writes := forall_some {
        contact := ⟨rfl, (safe.slot_counts slot held).1⟩
        held := by
          rw [held]
          rfl
        known := by
          refine ⟨mem_cons_self, real, fun old => ?_⟩
          cases safe.superseded_known fingerprint old with
          | inl none => exact real none
          | inr known => exact fresh known
        counts := (safe.slot_counts slot held).2
        recorded := ⟨s, _, marked, rfl, rfl, rfl⟩
        unplaced := by
          intro _ file inside same
          change file.fingerprint = fingerprint at same
          exact fresh (same ▸ (safe.version file inside).2.2)
        placed := nofun } }

variable {writing : Writing S}

section

variable (safe : v.Safe used peer)
include safe

theorem replaceFile (here : v.writing = some writing) (unplaced : writing.placed = false) :
    ({ v with
      file := some ⟨writing.fingerprint, some writing.state⟩
      writing := some { writing with placed := true }
      past := { v.past with
        versions := v.past.versions ++ [⟨writing.fingerprint, some writing.state⟩] } } :
        View S).Safe used peer := by
  have writes := safe.writes writing here
  have new := writes.unplaced unplaced
  exact { safe with
    file_known := forall_some (mem_append_right _ mem_cons_self)
    version := forall_mem_snoc safe.version ⟨⟨writing.state, rfl, writes.contact.2⟩, writes.known.2.1, writes.known.1⟩
    distinct := by
      intro file inside other inside' same
      rcases mem_snoc.mp inside with old | rfl <;> rcases mem_snoc.mp inside' with old' | rfl
      · exact safe.distinct file old other old' same
      · exact absurd same (new file old)
      · exact absurd same.symm (new other old')
      · rfl
    live := by
      refine forall_mem_snoc safe.live fun usable state content => ?_
      cases content
      exact writes.counts
    unrecorded := by
      intro missing
      obtain ⟨s, entry, -, recorded, -⟩ := writes.recorded
      rw [recorded] at missing
      cases missing
    record_usable := nofun
    writes := forall_some { writes with
        unplaced := nofun
        placed := fun _ => mem_append_right _ mem_cons_self } }

theorem afterWrite (here : v.writing = some writing) (placed : writing.placed = true) (s : Seen) :
    ({ v with
      record := some ⟨writing.fingerprint, writing.fingerprint, max s.seqHwm writing.state.sendSeq⟩
      seen := some ⟨writing.fingerprint, max s.seqHwm writing.state.sendSeq⟩
      slot := some ⟨writing.state, false⟩
      writing := none
      past := { v.past with
        superseded := (noFile :: (v.past.versions.map SessionFile.fingerprint).filter
          (· ≠ writing.fingerprint)) ++ v.past.superseded
        completed := writing.state.sendSeq :: v.past.completed
        lastCompleted := writing.fingerprint
        interrupted := none
        current := writing.fingerprint
        rejected := false } } : View S).Safe used peer := by
  have writes := safe.writes writing here
  have onDisk := writes.placed placed
  have notOld : writing.fingerprint ∉ (noFile :: (v.past.versions.map SessionFile.fingerprint).filter
      (· ≠ writing.fingerprint)) ++ v.past.superseded := by
    simp only [cons_append, mem_cons, mem_append, mem_filter, not_or]
    exact ⟨writes.known.2.1, fun old => by simp at old, writes.known.2.2⟩
  have counts : ∀ old ∈ writing.state.sendSeq :: v.past.completed, old ≤ writing.state.sendSeq := by
    intro old inside
    cases mem_cons.mp inside with
    | inl same =>
      rw [same]
      exact UInt64.le_refl _
    | inr before => exact writes.counts old before
  have hwmCounts : ∀ old ∈ writing.state.sendSeq :: v.past.completed, old ≤ max s.seqHwm writing.state.sendSeq :=
    fun old inside => UInt64.le_trans (counts old inside) (le_max_right_u64 _ _)
  exact { safe with
    superseded_known := by
      intro disk inside
      cases mem_append.mp inside with
      | inl new =>
        cases mem_cons.mp new with
        | inl none => exact .inl none
        | inr version =>
          obtain ⟨inside, -⟩ := mem_filter.mp version
          obtain ⟨file, there, same⟩ := mem_map.mp inside
          exact .inr (same ▸ (safe.version file there).2.2)
      | inr old => exact safe.superseded_known disk old
    live := by
      -- every other version is superseded now
      intro file inside usable state content
      have same : file.fingerprint = writing.fingerprint := by
        by_contra other
        apply usable
        apply mem_append_left
        apply mem_cons_of_mem
        exact mem_filter.mpr ⟨mem_map_of_mem inside, by simpa using other⟩
      have written := safe.distinct file inside _ onDisk same
      subst written
      cases content
      exact counts
    none_completed := fun missing => absurd mem_cons_self missing
    unrecorded := nofun
    record_counts := forall_some hwmCounts
    record_usable := by
      intro _ entry there
      cases there
      exact ⟨⟨.inl rfl, notOld⟩, ⟨.inl rfl, notOld⟩⟩
    seen_counts := forall_some hwmCounts
    seen_current := forall_some rfl
    seen_usable := by
      intro s' there _
      cases there
      exact ⟨⟨.inl rfl, notOld⟩, .inl rfl⟩
    slot_seen := fun _ => rfl
    slot_counts := forall_some ⟨writes.contact.2, counts⟩
    rejected_dirty := nofun
    writes := nofun }

theorem crash_idle (idle : v.writing = none) : ({ v with
      seen := none
      slot := none
      past := { v.past with rejected := false } } : View S).Safe used peer := {
  safe with
  record_usable := by
    intro _ entry there
    obtain ⟨cur, next⟩ := safe.record_usable idle entry there
    exact ⟨cur.accept v.past.current false [], next.accept v.past.current false []⟩
  seen_counts := nofun
  seen_current := nofun
  seen_usable := nofun
  slot_seen := nofun
  slot_counts := nofun
  rejected_dirty := nofun
  writes := forall_none idle }

theorem crash_writing (here : v.writing = some writing) (trusted : v.past.rejected = false) :
    ({ v with
      seen := none
      slot := none
      writing := none
      past := { v.past with
        rejected := false
        interrupted := some (writing.fingerprint, v.past.current) } } : View S).Safe used peer := by
  have writes := safe.writes writing here
  obtain ⟨s, entry, marked, recorded, cur, next⟩ := writes.recorded
  obtain ⟨usable, provenance⟩ := safe.seen_usable s marked trusted
  have current := safe.seen_current s marked
  exact { safe with
    record_usable := by
      intro _ entry' there
      rw [recorded] at there
      cases there
      refine ⟨⟨?_, by rw [cur]; exact usable.2⟩, ⟨?_, by rw [next]; exact writes.known.2.2⟩⟩
      · cases provenance with
        | inl last => exact .inl (cur.trans last)
        | inr accepted =>
          exact .inr ⟨_, rfl, .inr ⟨cur.trans current, by rw [cur]; exact accepted⟩⟩
      · exact .inr ⟨_, rfl, .inl next⟩
    seen_counts := nofun
    seen_current := nofun
    seen_usable := nofun
    slot_seen := nofun
    slot_counts := nofun
    rejected_dirty := nofun
    writes := nofun }

theorem putBack {file : Option (SessionFile S)} (earlier : ∀ f, file = some f → f ∈ v.past.versions) :
    ({ v with file := file } : View S).Safe used peer := {
  safe with
  file_known := earlier
  writes := fun writing here =>
    let writes := safe.writes writing here
    ⟨writes.contact, writes.held, writes.known, writes.counts, writes.recorded, writes.unplaced, writes.placed⟩ }

end

end View.Safe

end Miasma.Chat.Rollback
