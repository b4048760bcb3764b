import Miasma.Chat.Group.Codec
import Miasma.Chat.Group.Engine

namespace Miasma.Chat.Group

open Data Descriptor List SortedMap Group.Sample Chain GroupCore GroupState GroupStore Storable

/-! # The engine keeps its group states storable -/

variable {P : Primitives} {result : Pushed}

namespace Chain

variable {chain next : Chain} {root d : Descriptor} {full : List Descriptor}

theorem epochs_push (epochs : ∀ e ∈ chain.items, e.epoch ≠ 0)
    (pushed : chain.push P d = .ok (next, result)) : ∀ e ∈ next.items, e.epoch ≠ 0 := by
  have latest := epochs chain.latest (getLast_mem chain.nonempty)
  rcases push_ok_cases pushed with ⟨-, rfl, -⟩ | ⟨-, rfl, same, -, -⟩ | ⟨-, rfl, above, -⟩
  · exact epochs
  · exact forall_mem_snoc (fun e old => epochs e (dropLast_subset _ old)) (same ▸ latest)
  intro e member
  have inside : e ∈ chain.items ++ [d] := by
    simp only [append] at member
    split at member
    · exact mem_of_mem_tail member
    · exact member
  rcases mem_snoc.mp inside with old | rfl
  · exact epochs e old
  intro zero
  rw [zero] at above
  simp at above

theorem History.push (history : History P root chain full)
    (pushed : chain.push P d = .ok (next, result)) : ∃ after, History P root next after := by
  obtain ⟨after, run, -⟩ := history.offered [d]
  refine ⟨after, ?_⟩
  simpa [offerEach, offer, pushed] using run

theorem History.pushEach (history : History P root chain full) :
    ∃ after, History P root (chain.pushEach P ds).1 after := by
  induction ds generalizing chain full with
  | nil => exact ⟨full, history⟩
  | cons d rest ih =>
    simp only [pushEach]
    split
    · rename_i next result pushed
      obtain ⟨after, step⟩ := history.push pushed
      exact ih step
    · exact ⟨full, history⟩

theorem epochs_pushEach (epochs : ∀ e ∈ chain.items, e.epoch ≠ 0) :
    ∀ e ∈ (chain.pushEach P ds).1.items, e.epoch ≠ 0 := by
  induction ds generalizing chain with
  | nil => exact epochs
  | cons d rest ih =>
    simp only [pushEach]
    split
    · rename_i next result pushed
      exact ih (epochs_push epochs pushed)
    · exact epochs

theorem pushAll_chain {chain : Chain} : (chain.pushAll P ds).1 = (chain.pushEach P ds).1 := by
  simp only [pushAll]
  split
  · split <;> rfl
  · rfl

end Chain

theorem length_updateFirst {change : α → α} : (updateFirst found change list).length = list.length := by
  induction list with
  | nil => rfl
  | cons first rest ih =>
    simp only [updateFirst]
    split <;> simp [ih]

theorem mem_updateFirst {change : α → α} (member : value ∈ updateFirst found change list) :
    value ∈ list ∨ ∃ old ∈ list, value = change old := by
  induction list with
  | nil => exact .inl member
  | cons first rest ih =>
    simp only [updateFirst] at member
    split at member
    · rcases mem_cons.mp member with same | later
      · exact .inr ⟨first, mem_cons_self, same⟩
      · exact .inl (mem_cons_of_mem first later)
    · rcases mem_cons.mp member with same | later
      · exact .inl (same ▸ mem_cons_self)
      rcases ih later with old | ⟨old, inside, same⟩
      · exact .inl (mem_cons_of_mem first old)
      · exact .inr ⟨old, mem_cons_of_mem first inside, same⟩

variable {chain : Chain}

namespace GroupState

variable {s : GroupState}

theorem storable_new {root : Descriptor} (history : History P root chain full)
    (epochs : ∀ d ∈ chain.items, d.epoch ≠ 0) {status : Status} : (new chain status).Storable P where
  rooted := ⟨root, full, history⟩
  epochs := epochs
  vectors := by simp [new, empty]
  pending := by simp [new]
  texts := by simp [new]
  dests := by simp [new]
  ledger := by simp [new]
  ctrl := by simp [new]
  confirmed := by simp [new]
  handed := by simp [new]

theorem Storable.confirm (storable : Storable P s) (peer : B32) : (s.confirm peer).1.Storable P := by
  unfold GroupState.confirm
  split
  · exact storable
  rename_i room
  refine { storable with confirmed := ?_ }
  simp only [ge_iff_le, Bool.or_eq_true, decide_eq_true_eq, not_or] at room
  simp only [length_append, length_singleton]
  omega

theorem Storable.confirmMember (storable : Storable P s) (peer : B32) :
    (s.confirmMember peer).1.Storable P := by
  unfold GroupState.confirmMember
  split
  · exact storable.confirm peer
  · exact storable

theorem Storable.owe (storable : Storable P s) (dest : B32) (kind : CtrlKind) (arg : UInt32) :
    (s.owe dest kind arg).1.Storable P := by
  unfold GroupState.owe
  simp only
  split
  · split
    · refine { storable with ctrl := ?_ }
      rw [length_updateFirst]
      exact storable.ctrl
    · exact storable
  · split
    · exact storable
    refine { storable with ctrl := ?_ }
    simp only [length_append, length_singleton]
    omega

theorem Storable.oweEach (storable : Storable P s) (dests : List B32) (kind : CtrlKind)
    (arg : UInt32) : (s.oweEach dests kind arg).Storable P := by
  induction dests generalizing s with
  | nil => exact storable
  | cons dest rest ih => exact ih (storable.owe dest kind arg)

theorem length_trimmed (within : list.length ≤ bound) (positive : 0 < bound) :
    ((if list.length ≥ bound then list.tail else list) ++ [value]).length ≤ bound := by
  split <;> simp only [length_append, length_tail, length_singleton] <;> omega

section

variable (storable : Storable P s)
include storable

theorem Storable.pushLedger : (s.pushLedger entry).Storable P :=
  { storable with ledger := length_trimmed storable.ledger (by decide) }

theorem Storable.changeLedger {id : B16} {change : LedgerEntry → LedgerEntry} :
    (s.changeLedger id change).Storable P := by
  refine { storable with ledger := ?_ }
  simp only [GroupState.changeLedger, length_reverse, length_updateFirst]
  exact storable.ledger

theorem Storable.markHandover (dest : B32) (epoch : UInt32) : (s.markHandover dest epoch).1.Storable P := by
  unfold GroupState.markHandover
  split
  · exact storable
  · exact { storable with handed := length_trimmed storable.handed (by decide) }

theorem Storable.shrinkPending {pending : List PendingMsg} (fewer : pending.length ≤ s.pending.length)
    (shrunk : ∀ p ∈ pending, ∃ old ∈ s.pending, p.text = old.text ∧ p.dest.length ≤ old.dest.length) :
    ({ s with pending := pending } : GroupState).Storable P := by
  refine { storable with pending := Nat.le_trans fewer storable.pending, texts := ?_, dests := ?_ }
  · intro p member
    obtain ⟨old, inside, text, -⟩ := shrunk p member
    rw [text]
    exact storable.texts old inside
  · intro p member
    obtain ⟨old, inside, -, dest⟩ := shrunk p member
    exact Nat.le_trans dest (storable.dests old inside)

theorem Storable.noteFailed : (s.noteFailed dropped).Storable P := by
  induction dropped generalizing s with
  | nil => exact storable
  | cons entry rest ih => exact ih (storable.changeLedger)

theorem Storable.filterCtrl : ({ s with ctrl := s.ctrl.filter keep } : GroupState).Storable P :=
  { storable with ctrl := Nat.le_trans (length_filter_le _ _) storable.ctrl }

theorem Storable.prune : s.prune.Storable P := by
  refine filterCtrl (noteFailed (shrinkPending storable ?_ ?_))
  · refine Nat.le_trans (length_filter_le _ _) ?_
    rw [length_map]
  intro p member
  obtain ⟨old, inside, rfl⟩ := mem_map.mp (mem_of_mem_filter member)
  exact ⟨old, inside, rfl, length_filter_le _ _⟩

theorem Storable.markCounter (counter : UInt64)
    (room : s.vectors.contains sender = true ∨ s.vectors.size < maxVectors) :
    (s.markCounter sender counter).Storable P := by
  refine { storable with vectors := ?_ }
  have fits : s.vectors.size ≤ maxVectors := storable.vectors
  change (s.vectors.insert sender _).size ≤ maxVectors
  rcases room with present | less
  · rw [size_insert_of_contains present]
    exact fits
  · exact Nat.le_trans size_insert_le less

theorem Storable.length_members : s.chain.latest.members.length ≤ maxMembers := by
  obtain ⟨root, full, history⟩ := storable.rooted
  exact (history.items_valid s.chain.latest (getLast_mem s.chain.nonempty)).1.bounded

theorem Storable.length_others (own : B32) : (s.others own).length ≤ maxMembers := by
  have filtered := length_filter_le (· != own) (s.chain.latest.members.map Member.id)
  rw [length_map] at filtered
  exact Nat.le_trans filtered storable.length_members

theorem Storable.queueMessage (id : B16) (now : UInt64) (room : s.pending.length < maxPending)
    (nonempty : 1 ≤ text.utf8ByteSize) (within : text.utf8ByteSize ≤ maxTextBytes)
    (few : recipients.length ≤ maxMembers) : (s.queueMessage id text now recipients).Storable P := by
  unfold GroupState.queueMessage
  split
  · exact { storable with }
  apply pushLedger
  refine { storable with
    pending := ?_
    texts := forall_mem_snoc storable.texts ⟨nonempty, within⟩
    dests := forall_mem_snoc storable.dests few }
  simp only [length_append, length_singleton]
  omega

theorem Storable.becomeMember (own addedBy : B32) : (s.becomeMember own addedBy).1.Storable P := by
  have joined : ({ s with status := .joined, addedBy := some addedBy } : GroupState).Storable P := { storable with }
  exact joined.oweEach _ _ _

theorem Storable.push {next : Chain} (pushed : s.chain.push P d = .ok (next, result)) :
    ({ s with chain := next } : GroupState).Storable P := by
  obtain ⟨root, full, history⟩ := storable.rooted
  obtain ⟨after, step⟩ := history.push pushed
  exact { storable with
    rooted := ⟨root, after, step⟩
    epochs := epochs_push storable.epochs pushed }

theorem Storable.pushAll (ds : List Descriptor) :
    ({ s with chain := (s.chain.pushAll P ds).1 } : GroupState).Storable P := by
  obtain ⟨root, full, history⟩ := storable.rooted
  obtain ⟨after, step⟩ := history.pushEach
  rw [pushAll_chain]
  exact { storable with
    rooted := ⟨root, after, step⟩
    epochs := epochs_pushEach storable.epochs }

theorem Storable.settlePending {id : B16} :
    ({ s with pending := settlePending s.pending peer id } : GroupState).Storable P := by
  refine storable.shrinkPending ?_ ?_
  · refine Nat.le_trans (length_filter_le _ _) ?_
    rw [length_updateFirst]
  intro p member
  rcases mem_updateFirst (mem_of_mem_filter member) with old | ⟨old, inside, rfl⟩
  · exact ⟨p, old, rfl, Nat.le_refl _⟩
  · exact ⟨old, inside, rfl, length_filter_le _ _⟩

theorem Storable.settleState (peer : B32) (work : Work)
    (delivered : Bool) : (GroupCore.settleState s peer work delivered).Storable P := by
  cases work with
  | descs | sync => exact storable.filterCtrl
  | hist => exact storable
  | text gid id =>
    refine changeLedger ?_
    split
    · exact (storable.settlePending).confirm peer
    · exact storable.settlePending

end

end GroupState

variable {m : GroupMsg}

namespace GroupStore

variable {store : GroupStore} {faults : Faults} {gid : B16}

theorem record_documents {after : GroupStore} {result : Except String Unit}
    (recorded : store.record faults gid m countAfter = (after, result)) :
    after.documents = store.documents := by
  unfold record at recorded
  split at recorded
  · cases recorded
    rfl
  split at recorded
  · cases recorded
    rfl
  simp only at recorded
  split at recorded
  · split at recorded
    · cases recorded
      rfl
    · cases recorded
      rfl
  · cases recorded
    rfl

theorem retain_documents {after : GroupStore} {result : Except String UInt64}
    (retained : store.retain faults gid keep = (after, result)) : after.documents = store.documents := by
  unfold retain at retained
  split at retained
  · cases retained
    rfl
  split at retained
  · cases retained
    rfl
  · cases retained
    rfl

end GroupStore

namespace GroupCore

/-- Every group in memory is storable, and every document was written from a
storable group. -/
structure Sound (P : Primitives) (core : GroupCore) : Prop where
  limit : core.maxText ≤ maxTextBytes
  groups : ∀ gid s, core.groups.get? gid = some s → s.Storable P
  documents : ∀ gid bytes, core.store.documents.get? gid = some bytes →
    ∃ s, Storable P s ∧ bytes = s.encode

variable {core : GroupCore} {s : GroupState} {faults : Faults} {gid : B16}

variable {result : Except GroupError Unit}

theorem save_eq :
    core.save faults s = match faults.write with
      | some e => (core, .error (.storage e))
      | none => ({ core with store.documents := core.store.documents.insert s.gid s.encode }, .ok ()) := by
  simp only [save, writeState]
  cases faults.write <;> rfl

theorem liveGroup_get? (live : core.liveGroup gid = .ok s) : core.groups.get? gid = some s := by
  unfold liveGroup at live
  split at live
  · contradiction
  rename_i held found
  split at live
  · contradiction
  cases live
  exact found

theorem storable_fromRoot {root : Descriptor} (started : fromRoot P root = .ok chain)
    (epoch : root.epoch ≠ 0) (status : Status) : (GroupState.new chain status).Storable P := by
  have items := (fromRoot_ok_iff.mp started).2
  refine storable_new (history_fromRoot started) ?_
  rw [items]
  simpa using epoch

variable {after store : GroupStore}

theorem deleteGroup_documents {result : Except String Unit}
    (deleted : store.deleteGroup faults gid = (after, result)) :
    after.documents = store.documents ∨ after.documents = store.documents.erase gid := by
  unfold deleteGroup at deleted
  split at deleted
  · cases deleted
    exact .inl rfl
  split at deleted
  all_goals
    cases deleted
    exact .inr rfl

theorem numberMessage_storable (storable : s.Storable P) :
    (numberMessage store s m).1.Storable P ∧ (numberMessage store s m).1.vectors = s.vectors := by
  unfold numberMessage
  split
  all_goals exact ⟨{ storable with }, rfl⟩

theorem recordLocked_frame {next : GroupState} (recorded : recordLocked store faults s m = (after, next, result)) :
    after.documents = store.documents ∧ next = (numberMessage store s m).1 := by
  simp only [recordLocked] at recorded
  split at recorded
  all_goals
    rename_i appended
    cases recorded
    exact ⟨record_documents appended, rfl⟩

theorem recordLocked_storable {next : GroupState} (storable : s.Storable P)
    (recorded : recordLocked store faults s m = (after, next, result)) :
    after.documents = store.documents ∧ next.Storable P ∧ next.vectors = s.vectors := by
  obtain ⟨documents, rfl⟩ := recordLocked_frame recorded
  exact ⟨documents, numberMessage_storable storable⟩

theorem vectors_room {vectors : SortedMap B32 SenderVec}
    (room : ¬ (!vectors.contains peer ∧ vectors.size ≥ maxVectors)) :
    vectors.contains peer = true ∨ vectors.size < maxVectors := by
  by_cases present : vectors.contains peer = true
  · exact .inl present
  refine .inr (Nat.not_le.mp fun full => room ⟨?_, full⟩)
  simpa using present

theorem standing_storable (storable : s.Storable P) (own peer : B32) (trusted autoJoin : Bool) :
    (standing s own peer trusted autoJoin).1.Storable P := by
  have cleared : ({ s with confirmed := [] } : GroupState).Storable P := { storable with confirmed := Nat.zero_le _ }
  have again := cleared.confirmMember peer
  unfold standing
  split
  · exact { storable with }
  · exact { storable with }
  · exact storable
  · exact storable
  · exact storable
  split
  · split
    · exact again.becomeMember own peer
    · exact { again with }
  · exact storable

variable {ds : List Descriptor}

theorem inviteChain_storable (epochs : ∀ d ∈ ds, d.epoch ≠ 0)
    (found : inviteChain P ds = some chain) (status : Status) :
    (GroupState.new chain status).Storable P := by
  induction ds with
  | nil => contradiction
  | cons d rest ih =>
    simp only [forall_mem_cons] at epochs
    simp only [inviteChain] at found
    split at found
    · exact ih epochs.2 found
    rename_i start started
    have fresh := storable_fromRoot started epochs.1 status
    have pushed := fresh.pushAll rest
    split at found
    · rename_i next _ answer
      cases found
      rw [GroupState.new, answer] at pushed
      exact pushed
    · rename_i next _ answer
      split at found
      · cases found
        rw [GroupState.new, answer] at pushed
        exact pushed
      · exact ih epochs.2 found

theorem epoch_of_decode (decoded : Descriptor.decode P bytes = .ok d) : d.epoch ≠ 0 := by
  unfold Descriptor.decode at decoded
  split at decoded
  · contradiction
  split at decoded
  · contradiction
  rename_i nonzero
  obtain ⟨-, same⟩ := check_ok_iff.mp decoded
  cases same
  exact nonzero

theorem parsed_ok_iff {record : Record} :
    (parsed value).map wrap = .ok record ↔ ∃ held, value = some held ∧ wrap held = record := by
  cases value with
  | none | some held => simp [parsed, Except.map]

theorem epochs_of_decode (decoded : Record.decode P plain = .ok (.descs ds)) : ∀ d ∈ ds, d.epoch ≠ 0 := by
  have item : Yields (Descriptor.readItem P) (·.epoch ≠ 0) := by
    refine Yields.bind fun length => Yields.bind fun raw => yields_lift fun d found => ?_
    cases result : Descriptor.decode P raw with
    | error =>
      rw [result] at found
      contradiction
    | ok =>
      rw [result] at found
      cases found
      exact epoch_of_decode result
  unfold Record.decode at decoded
  split at decoded
  · contradiction
  split at decoded
  · obtain ⟨_, -, same⟩ := parsed_ok_iff.mp decoded
    contradiction
  split at decoded
  · obtain ⟨held, read, same⟩ := parsed_ok_iff.mp decoded
    cases same
    exact (yields_list8 item).complete read
  split at decoded
  · obtain ⟨_, -, same⟩ := parsed_ok_iff.mp decoded
    contradiction
  split at decoded
  · obtain ⟨_, -, same⟩ := parsed_ok_iff.mp decoded
    contradiction
  · contradiction

variable {maxMessageBytes : Nat}

theorem mem_loaded {key : B32}
    (found : (GroupCore.new P key maxMessageBytes store).groups.get? gid = some s) :
    s.gid = gid ∧ ∃ bytes, store.documents.get? gid = some bytes ∧ GroupState.decode P bytes = some s := by
  have origin : ∀ (loaded : List GroupState) (map : SortedMap B16 GroupState),
      (∀ gid s, map.get? gid = some s → s.gid = gid) →
      (loaded.foldl (fun groups s => groups.insert s.gid s) map).get? gid = some s →
      s.gid = gid := by
    intro loaded
    induction loaded with
    | nil => exact fun map keyed found => keyed gid s found
    | cons first rest ih =>
      intro map keyed found
      refine ih _ (fun other held there => ?_) found
      rcases get?_insert_cases there with ⟨rfl, rfl⟩ | ⟨-, there⟩
      · rfl
      · exact keyed other held there
  have keyed := origin _ empty (by simp) found
  refine ⟨keyed, ?_⟩
  rcases get?_foldl_insert found with old | ⟨loaded, member, rfl⟩
  · contradiction
  obtain ⟨entry, inside, readable⟩ := mem_filterMap.mp member
  obtain ⟨decoded, same⟩ := Option.filter_eq_some_iff.mp readable
  have here : entry.1 = gid := (beq_iff_eq.mp same).symm.trans keyed
  exact ⟨entry.2, here ▸ get?_eq_some_iff.mpr inside, decoded⟩

/-- What a document written from `s` is read back as. -/
theorem decode_storable (storable : written.Storable P)
    (decoded : GroupState.decode P written.encode = some s) : s = written := by
  by_cases restorable : written.chain.Restorable
  · rw [storable.decode_encode restorable] at decoded
    exact (Option.some.inj decoded).symm
  · rw [storable.decode_refused restorable] at decoded
    contradiction

theorem Sound.new {key : B32} (documents : ∀ gid bytes, store.documents.get? gid = some bytes →
      ∃ s, Storable P s ∧ bytes = s.encode) :
    Sound P (GroupCore.new P key maxMessageBytes store) where
  limit := by
    simp only [GroupCore.new, maxTextBytes]
    omega
  groups := by
    intro gid s found
    obtain ⟨-, bytes, there, decoded⟩ := mem_loaded found
    obtain ⟨written, storable, rfl⟩ := documents gid bytes there
    exact decode_storable storable decoded ▸ storable
  documents := by
    intro gid bytes found
    exact documents gid bytes (get?_of_filter found)

/-! ## One operation -/

section

variable (sound : Sound P core)
include sound

theorem Sound.putGroup (gid : B16) (storable : s.Storable P) : Sound P (core.putGroup gid s) := by
  refine { sound with groups := ?_ }
  intro other held found
  rcases get?_insert_cases found with ⟨-, rfl⟩ | ⟨-, old⟩
  · exact storable
  · exact sound.groups other held old

theorem Sound.pushEvent (kind : GroupEventKind) (m : Option GroupMsg) : Sound P (core.pushEvent gid kind m) :=
  { sound with }

theorem Sound.withStore (same : store.documents = core.store.documents) : Sound P { core with store := store } := by
  refine { sound with documents := ?_ }
  intro other bytes found
  simp only [same] at found
  exact sound.documents other bytes found

theorem Sound.save (storable : s.Storable P) {after : GroupCore} (written : core.save faults s = (after, result)) :
    Sound P after := by
  rw [save_eq] at written
  split at written
  · cases written
    exact sound
  cases written
  refine { sound with documents := ?_ }
  intro other bytes found
  rcases get?_insert_cases found with ⟨-, rfl⟩ | ⟨-, old⟩
  · exact ⟨s, storable, rfl⟩
  · exact sound.documents other bytes old

theorem Sound.commit (storable : s.Storable P) (result : α) : Sound P (core.commit faults gid s result).1 := by
  have held := sound.putGroup gid storable
  unfold GroupCore.commit
  split
  · rename_i written
    exact held.save storable written
  · rename_i written
    exact (held.save storable written).pushEvent _ _

theorem Sound.live (live : core.liveGroup gid = .ok s) : s.Storable P := sound.groups gid s (liveGroup_get? live)

theorem Sound.create (name : String) (members : List (B32 × String))
    (now : UInt64) : Sound P (core.create P faults gid name members now).1 := by
  unfold GroupCore.create
  simp only
  split
  · exact sound
  split
  · exact sound
  split
  · exact sound
  split
  · exact sound
  rename_i chain started
  have fresh := storable_fromRoot started (by simp [Descriptor.signed]) .joined
  have stamped : ({ GroupState.new chain .joined with lastMs := now } : GroupState).Storable P := { fresh with }
  have owing := stamped.oweEach
    (({ GroupState.new chain .joined with lastMs := now } : GroupState).others core.own) .descs 0
  split
  · exact sound
  split
  · rename_i written
    exact sound.save owing written
  · rename_i written
    exact (sound.save owing written).putGroup gid owing

theorem Sound.add {new : List (B32 × String × Bool)} : Sound P (core.add P faults gid new).1 := by
  unfold GroupCore.add
  split
  · exact sound
  rename_i s live
  simp only
  split
  · exact sound
  split
  · exact sound
  split
  · exact sound
  split
  · exact sound
  rename_i chain _ pushed
  exact sound.commit (((sound.live live).push pushed).oweEach _ _ _) _

theorem Sound.remove : Sound P (core.remove P faults gid who).1 := by
  unfold GroupCore.remove
  split
  · exact sound
  rename_i s live
  simp only
  split
  · exact sound
  split
  · exact sound
  split
  · exact sound
  split
  · exact sound
  rename_i chain _ pushed
  exact sound.commit (((sound.live live).push pushed).prune.oweEach _ _ _) _

theorem Sound.leave : Sound P (core.leave P faults gid).1 := by
  unfold GroupCore.leave
  split
  · exact sound
  rename_i s live
  have storable := sound.live live
  have gone : ({ s with status := .left } : GroupState).Storable P := { storable with }
  simp only
  split
  · split
    all_goals
      rename_i written
      exact (sound.putGroup gid gone).save gone written
  split
  · exact sound
  split
  · exact sound
  rename_i chain _ pushed
  have left : ({ s with chain := chain, status := .left } : GroupState).Storable P := { storable.push pushed with }
  exact sound.commit (left.oweEach _ _ _) _

theorem Sound.acceptInvite : Sound P (core.acceptInvite faults gid).1 := by
  unfold GroupCore.acceptInvite
  split
  · exact sound
  rename_i s found
  split
  · exact sound.commit ((sound.groups gid s found).becomeMember _ _) _
  · exact sound
  · exact sound

theorem Sound.deleted {result : Except String Unit} (deleted : core.store.deleteGroup faults gid = (after, result)) :
    Sound P { core with store := after } := by
  rcases deleteGroup_documents deleted with same | erased
  · exact sound.withStore same
  refine { sound with documents := ?_ }
  exact fun other bytes found => sound.documents other bytes (get?_of_erase (erased ▸ found))

theorem Sound.forget : Sound P (core.forget faults gid).1 := by
  unfold GroupCore.forget
  split
  · exact sound
  split
  · exact sound
  split
  · rename_i deleted
    exact sound.deleted deleted
  rename_i deleted
  refine { sound.deleted deleted with groups := ?_ }
  exact fun other held found => sound.groups other held (get?_of_erase found)

theorem Sound.send (id : B16) (text : String) (now : UInt64) :
    Sound P (core.send faults gid id text now).1 := by
  unfold GroupCore.send
  split
  · exact sound
  rename_i nonempty
  split
  · exact sound
  rename_i within
  split
  · exact sound
  rename_i s live
  have storable := sound.live live
  split
  · exact sound
  rename_i room
  have textSize : 1 ≤ text.utf8ByteSize := by
    rw [Nat.one_le_iff_ne_zero]
    intro zero
    exact nonempty (by simpa [String.isEmpty] using zero)
  have queued := storable.queueMessage id now (Nat.not_le.mp room) textSize
    (Nat.le_trans (Nat.not_lt.mp within) sound.limit) (storable.length_others core.own)
  simp only
  split
  · rename_i recorded
    obtain ⟨documents, numbered, -⟩ := recordLocked_storable queued recorded
    exact (sound.withStore documents).putGroup gid numbered
  rename_i recorded
  obtain ⟨documents, numbered, -⟩ := recordLocked_storable queued recorded
  have held := (sound.withStore documents).putGroup gid numbered
  split
  all_goals
    rename_i written
    exact held.save numbered written

theorem Sound.saveFirst (storable : s.Storable P) : Sound P (core.save faults s).1 :=
  sound.save storable (Prod.eta _).symm

theorem Sound.takeMessage (storable : s.Storable P) (m : GroupMsg)
    (room : s.vectors.contains m.sender = true ∨ s.vectors.size < maxVectors)
    {after : GroupState → GroupState} (keeps : ∀ s, s.Storable P → (after s).Storable P) :
    Sound P (core.takeMessage faults gid s m after).1 := by
  unfold GroupCore.takeMessage
  split
  · rename_i recorded
    exact sound.withStore (recordLocked_storable storable recorded).1
  rename_i store next recorded
  obtain ⟨documents, numbered, vectors⟩ := recordLocked_storable storable recorded
  have kept := keeps _ (numbered.markCounter m.counter (vectors ▸ room))
  have held := (sound.withStore documents).putGroup gid kept
  simp only
  split
  · rename_i written
    exact held.save kept written
  · rename_i written
    exact (held.save kept written).pushEvent _ _

theorem Sound.updateGroup (storable : s.Storable P) (peer : B32)
    (ds : List Descriptor) (trusted : B32 → Bool) :
    Sound P (core.updateGroup P faults peer gid s ds trusted).1 := by
  have pushed := storable.pushAll ds
  unfold GroupCore.updateGroup
  simp only
  split
  · rename_i chain answer
    rw [answer] at pushed
    exact sound.putGroup gid pushed
  · rename_i chain _ answer
    rw [answer] at pushed
    exact sound.putGroup gid pushed
  · rename_i chain answer
    rw [answer] at pushed
    have confirmed := pushed.confirmMember peer
    split
    · rename_i next news
      rw [news] at confirmed
      exact (sound.putGroup gid confirmed).saveFirst confirmed
    · rename_i next news
      rw [news] at confirmed
      exact sound.putGroup gid confirmed
  · rename_i chain answer
    rw [answer] at pushed
    have confirmed := pushed.confirmMember peer
    have pruned := (standing_storable confirmed core.own peer (trusted peer) core.autoJoin).prune
    have held := sound.putGroup gid pruned
    split
    · rename_i written
      exact held.save pruned written
    · rename_i written
      exact (held.save pruned written).pushEvent _ _

section

variable (peer : B32)

theorem Sound.settle : Sound P (core.settle faults peer work delivered) := by
  unfold GroupCore.settle
  split
  · split
    · exact sound
    · exact { sound with }
  · split
    · exact sound
    rename_i s found
    have settled := (sound.groups _ s found).settleState peer work delivered
    exact (sound.putGroup _ settled).saveFirst settled

theorem Sound.handleText : Sound P (core.handleText faults peer t now trusted).1 := by
  unfold GroupCore.handleText
  split
  · exact sound
  rename_i s found
  have storable := sound.groups _ s found
  split
  · exact sound
  · exact sound
  · exact sound
  simp only
  split
  · have owing := storable.owe peer .sync s.chain.epoch
    split
    · rename_i next owed
      rw [owed] at owing
      exact (sound.putGroup _ owing).saveFirst owing
    · rename_i next owed
      rw [owed] at owing
      exact sound.putGroup _ owing
  split
  · exact sound
  split
  · exact sound
  split
  · exact sound
  split
  · exact sound
  rename_i room
  exact sound.takeMessage storable _ (vectors_room room) (fun s held => held.confirm peer)

theorem Sound.handleHistOffer : Sound P (core.handleHistOffer faults peer o now).1 := by
  unfold GroupCore.handleHistOffer
  split
  · exact sound
  rename_i s found
  have storable := sound.groups _ s found
  split
  · exact sound
  · exact sound
  · exact sound
  split
  · exact sound
  split
  · exact sound
  split
  · exact sound
  split
  · exact sound
  split
  · exact sound
  rename_i room
  exact sound.takeMessage storable _ (vectors_room room) (fun s held => held)

theorem Sound.handleSync : Sound P (core.handleSync faults peer gid).1 := by
  unfold GroupCore.handleSync
  split
  · exact sound
  rename_i s found
  have storable := sound.groups _ s found
  split
  · exact sound
  split
  · exact sound
  have owing := (storable.confirmMember peer).owe peer .descs 0
  have held := sound.putGroup gid owing
  simp only
  split
  · split
    all_goals
      rename_i written
      exact held.save owing written
  · exact held

theorem Sound.invite (epochs : ∀ d ∈ ds, d.epoch ≠ 0) (latest : Descriptor) (now : UInt64)
    (trusted : B32 → Bool) : Sound P (core.invite P faults peer gid ds latest now trusted).1 := by
  unfold GroupCore.invite
  split
  · exact sound
  split
  · exact sound
  split
  · exact sound
  split
  · exact sound
  rename_i chain found
  split
  · exact sound
  have fresh := inviteChain_storable epochs found (.pending peer)
  have stamped : ({ GroupState.new chain (.pending peer) with lastMs := now } : GroupState).Storable P :=
    { fresh with }
  have confirmed := stamped.confirm peer
  have ready : (if core.autoJoin
      then ((({ GroupState.new chain (.pending peer) with lastMs := now } : GroupState).confirm
        peer).1.becomeMember core.own peer)
      else ((({ GroupState.new chain (.pending peer) with lastMs := now } : GroupState).confirm peer).1,
        [])).1.Storable P := by
    split
    · exact confirmed.becomeMember core.own peer
    · exact confirmed
  simp only
  split
  · rename_i written
    exact sound.save ready written
  · rename_i written
    exact ((sound.save ready written).putGroup gid ready).pushEvent _ _

theorem Sound.handleDescs (epochs : ∀ d ∈ ds, d.epoch ≠ 0) :
    Sound P (core.handleDescs P faults peer ds now trusted).1 := by
  unfold GroupCore.handleDescs
  split
  · split
    · exact sound
    split
    · rename_i s found
      split
      · exact sound
      · exact sound.updateGroup (sound.groups _ s found) peer ds trusted
    · exact sound.invite peer epochs _ now trusted
  · exact sound

theorem Sound.handle : Sound P (core.handle P faults peer plain now trusted).1 := by
  unfold GroupCore.handle
  split
  · exact sound
  · exact sound
  · exact sound.handleText peer
  · rename_i ds decoded
    exact sound.handleDescs peer (epochs_of_decode decoded)
  · exact sound.handleHistOffer peer
  · exact sound.handleSync peer

end

theorem Sound.handover (dest : B32) : Sound P (core.handover faults gid dest).1 := by
  unfold GroupCore.handover
  split
  · exact sound
  split
  · exact sound
  rename_i s live
  simp only
  split
  · exact sound
  have marked := (sound.live live).markHandover dest s.chain.latest.epoch
  split
  · exact sound
  rename_i next answer
  rw [answer] at marked
  have held := sound.putGroup gid marked
  split
  · rename_i written
    have undone := held.save marked written
    refine undone.putGroup gid { marked with handed := ?_ }
    exact Nat.le_trans (length_filter_le _ _) marked.handed
  · rename_i written
    have saved := held.save marked written
    split
    · exact saved
    · exact { saved with }

theorem Sound.sweepGroup : Sound P (sweepGroup faults cutoff core gid) := by
  unfold GroupCore.sweepGroup
  split
  · rename_i retained
    exact sound.withStore (retain_documents retained)
  rename_i retained
  have swept := sound.withStore (retain_documents retained)
  simp only
  split
  · exact swept
  rename_i s found
  have storable := sound.groups gid s found
  exact swept.putGroup gid { storable with }

theorem Sound.sweepRetention : Sound P (core.sweepRetention faults cutoff) := by
  unfold GroupCore.sweepRetention
  generalize core.groups.keys = gids
  induction gids generalizing core with
  | nil => exact sound
  | cons gid rest ih => exact ih (sound.sweepGroup)

theorem Sound.flushAll : Sound P (core.flushAll faults) := by
  unfold GroupCore.flushAll
  have storable : ∀ s ∈ core.groups.values, s.Storable P := by
    intro s member
    obtain ⟨gid, found⟩ := mem_values_iff.mp member
    exact sound.groups gid s found
  generalize core.groups.values = states at storable
  induction states generalizing core with
  | nil => exact sound
  | cons s rest ih =>
    simp only [forall_mem_cons] at storable
    exact ih (sound.saveFirst storable.1) storable.2

theorem Sound.step (faults : Faults) (op : Op) : Sound P (core.step P faults op) := by
  cases op with
  | create gid name members now => exact sound.create name members now
  | add gid new => exact sound.add
  | remove gid who => exact sound.remove
  | leave => exact sound.leave
  | acceptInvite => exact sound.acceptInvite
  | forget => exact sound.forget
  | send gid id text now => exact sound.send id text now
  | settle peer work delivered => exact sound.settle peer
  | handle peer plain now trusted => exact sound.handle peer
  | handover gid dest => exact sound.handover dest
  | sweepRetention cutoff => exact sound.sweepRetention
  | setAutoJoin => exact { sound with }
  | flushAll => exact sound.flushAll
  | restart => exact Sound.new sound.documents

theorem Sound.run : Sound P (core.run P ops) := by
  induction ops generalizing core with
  | nil => exact sound
  | cons op rest ih => exact ih (sound.step op.1 op.2)

end

end GroupCore

/-- A device that has just been set up. -/
def GroupCore.fresh (P : Primitives) (key : B32) (maxMessageBytes : Nat) (settings : StoreSettings) :
    GroupCore :=
  GroupCore.new P key maxMessageBytes (GroupStore.new settings)

/-- A chain is rebuilt from its descriptors, and a saved group is read back,
exactly when the oldest descriptor kept is signed by one of its own admins and
is not a first descriptor that names a predecessor. -/
theorem saved_group_reads_back_iff (P : Primitives) :
    (∀ (root : Descriptor) (start chain : Chain) (offered : List Descriptor),
      fromRoot P root = .ok start → start.offerEach P offered = chain →
        (fromItems P chain.items = .ok chain ↔ chain.Restorable)) ∧
    (∀ (key : B32) (maxMessageBytes : Nat) (settings : StoreSettings)
      (ops : List (Faults × Op)) (gid : B16) (s : GroupState),
      ((fresh P key maxMessageBytes settings).run P ops).groups.get? gid = some s →
        (GroupState.decode P s.encode = some s ↔ s.chain.Restorable)) := by
  constructor
  · intro root start chain offered started same
    obtain ⟨full, history, -⟩ := (history_fromRoot started).offered offered
    subst same
    exact history.fromItems_iff
  · intro key maxMessageBytes settings ops gid s found
    have begun : (fresh P key maxMessageBytes settings).Sound P := Sound.new (by
        intro gid bytes found
        contradiction)
    exact ((begun.run).groups gid s found).decode_encode_iff

namespace Sample

def other : B32 := ByteVec.fill 32 3

def gid : B16 := ByteVec.fill 16 9

def core : GroupCore := fresh .checksum admin 4096 ⟨true, 1000, 1000⟩

/-- The guest leaves by its own signature. -/
def departure : Descriptor := change root "team" [⟨admin, .admin, ""⟩] guest

/-- The guest leaves; then the admin adds and removes somebody until the
departure is the oldest descriptor kept. -/
def departureOps : List (Faults × Op) := [({}, .create gid "team" [(guest, "")] 1000),
    ({}, .handle guest ((encodeDescs [departure]).toOption.getD []) 1001 (fun _ => true)),
    ({}, .add gid [(other, "", false)]), ({}, .remove gid other),
    ({}, .add gid [(other, "", false)]), ({}, .remove gid other),
    ({}, .add gid [(other, "", false)]), ({}, .remove gid other),
    ({}, .add gid [(other, "", false)])]

/-- With one change more the departure is gone as well. -/
def trimmedOps : List (Faults × Op) := departureOps.concat ({}, .remove gid other)

theorem root_kept : [root] ≠ [] := by simp

def rootChain : Chain := ⟨[root], root_kept⟩

end Sample

theorem saved_group_reads_back_trimmed :
    ∃ s, (core.run .checksum trimmedOps).groups.get? gid = some s ∧
      s.chain.oldest.epoch = 3 ∧ fromItems .checksum s.chain.items = .ok s.chain ∧
      GroupState.decode .checksum s.encode = some s := by
  have kept : ((core.run .checksum trimmedOps).groups.get? gid).any (fun s =>
      s.chain.Restorable ∧ s.chain.oldest.epoch = 3 ∧
        rootChain.offerEach .checksum (departure :: s.chain.items) = s.chain) = true := by
    decide +kernel
  obtain ⟨s, found, holds⟩ := (Option.any_eq_true _ _).mp kept
  obtain ⟨restorable, oldest, offered⟩ := of_decide_eq_true holds
  have started : fromRoot .checksum root = .ok rootChain := by decide +kernel
  obtain ⟨rebuilt, decoded⟩ := saved_group_reads_back_iff .checksum
  exact ⟨s, found, oldest, (rebuilt root rootChain s.chain _ started offered).mpr restorable,
    (decoded _ _ _ _ _ s found).mpr restorable⟩

/-- After seven more changes the group's document is refused. -/
theorem departed_group_is_lost : ∃ s, (core.run .checksum departureOps).groups.get? gid = some s ∧
      fromItems .checksum s.chain.items = .error .notAuthorized ∧
      GroupState.decode .checksum s.encode = none := by
  have lost : ((core.run .checksum departureOps).groups.get? gid).any
      (fun s => fromItems .checksum s.chain.items = .error .notAuthorized ∧
        GroupState.decode .checksum s.encode = none) = true := by
    decide +kernel
  obtain ⟨s, found, holds⟩ := (Option.any_eq_true _ _).mp lost
  exact ⟨s, found, by simpa using holds⟩

end Miasma.Chat.Group
