import Miasma.Chat.Group.Held

namespace Miasma.Chat.Group

open Data Group.Sample List GroupCore Descriptor

/-! # To whom a group's items are offered

Messages and requests are pruned with every change of the list; the hand-over queues are not. -/

variable {P : Primitives}

theorem Descriptor.isMember_iff {d : Descriptor} {id : B32} :
    d.isMember id = true ↔ id ∈ d.members.map Member.id := by
  simp [isMember, member]

variable {next : Chain}

namespace GroupCore

variable {members : List Member} {new : List (B32 × String × Bool)}

variable {chain : Chain} {pushed : Pushed} {key id : B32}

theorem isMember_next (push : chain.push P (nextDescriptor P chain.latest members key) = .ok (next, pushed))
    (listed : chain.latest.isMember id = true) (kept : id ∈ members.map Member.id) :
    next.latest.isMember id = true := by
  rcases Chain.latest_push push with rfl | newest
  · exact listed
  rw [newest, isMember_iff]
  exact kept

theorem isMember_added (listed : addList chain.latest.members new = .ok members)
    (push : chain.push P (nextDescriptor P chain.latest members key) = .ok (next, pushed))
    (member : chain.latest.isMember id = true) : next.latest.isMember id = true := by
  refine isMember_next push member ?_
  obtain ⟨m, there, same⟩ := mem_map.mp (isMember_iff.mp member)
  rw [addList_ok listed]
  exact mem_map.mpr ⟨m, mem_append_left _ there, same⟩

theorem isMember_without (push : chain.push P (nextDescriptor P chain.latest
      (chain.latest.members.filter (·.id != who)) key) = .ok (next, pushed))
    (member : chain.latest.isMember id = true) (different : id ≠ who) : next.latest.isMember id = true := by
  refine isMember_next push member ?_
  obtain ⟨m, there, same⟩ := mem_map.mp (isMember_iff.mp member)
  refine mem_map.mpr ⟨m, mem_filter.mpr ⟨there, ?_⟩, same⟩
  simpa [same] using different

end GroupCore

variable {dest peer : B32}

namespace GroupState

variable {s next : GroupState} {own : B32}

theorem mem_others {id : B32} : id ∈ s.others own ↔ id ≠ own ∧ s.chain.latest.isMember id = true := by
  rw [isMember_iff, others, mem_filter]
  simp [and_comm]

/-- No message and no request of the group is addressed to this device. -/
structure Outward (own : B32) (s : GroupState) : Prop where
  pending : ∀ p ∈ s.pending, ∀ dest ∈ p.dest, dest ≠ own
  requests : ∀ c ∈ s.ctrl, c.kind = .sync → c.dest ≠ own

/-- Messages and requests are owed to other listed members only. -/
structure Addressed (own : B32) (s : GroupState) : Prop extends Outward own s where
  listed : ∀ p ∈ s.pending, ∀ dest ∈ p.dest, s.chain.latest.isMember dest = true
  asked : ∀ c ∈ s.ctrl, c.kind = .sync → s.chain.latest.isMember c.dest = true

theorem Outward.quiet (outward : Outward own s) (quiet : s.Quiet next) : Outward own next :=
  ⟨quiet.pending ▸ outward.pending, quiet.ctrl ▸ outward.requests⟩

theorem Outward.rechain (outward : Outward own s) {chain : Chain} :
    Outward own { s with chain := chain } :=
  ⟨outward.pending, outward.requests⟩

theorem Outward.becomeMember (outward : Outward own s) {addedBy : B32} :
    Outward own (s.becomeMember own addedBy).1 where
  pending := by simpa [GroupState.becomeMember] using outward.pending
  requests c owed sync := by
    rcases mem_ctrl_oweEach owed with ⟨old, member, same, kinds⟩ | ⟨other, -⟩
    · exact same ▸ outward.requests old member (kinds.trans sync)
    · exact (mem_others.mp other).1

theorem Outward.prune (outward : Outward own s) : Addressed own s.prune where
  pending p member dest inside := by
    rw [pending_prune] at member
    obtain ⟨old, there, rfl⟩ := mem_map.mp (mem_of_mem_filter member)
    exact outward.pending old there dest (mem_of_mem_filter inside)
  requests c owed sync := by
    rw [ctrl_prune] at owed
    exact outward.requests c (mem_of_mem_filter owed) sync
  listed p member dest inside := by
    rw [pending_prune] at member
    obtain ⟨old, there, rfl⟩ := mem_map.mp (mem_of_mem_filter member)
    rw [chain_prune, isMember_iff]
    simpa using (mem_filter.mp inside).2
  asked c owed sync := by
    rw [chain_prune, isMember_iff]
    simpa using (mem_filter.mp owed).2

theorem pending_settleState (member : p ∈ (settleState s peer work delivered).pending) :
    ∃ old ∈ s.pending, ∀ dest ∈ p.dest, dest ∈ old.dest := by
  cases work with
  | descs | sync | hist gid dest => exact ⟨p, member, fun dest inside => inside⟩
  | text gid id =>
    have there : p ∈ settlePending s.pending peer id := by
      simp only [settleState, changeLedger] at member
      split at member
      · rwa [(quiet_confirm _ peer).pending] at member
      · exact member
    rcases mem_updateFirst (mem_of_mem_filter there) with old | ⟨old, inside, rfl⟩
    · exact ⟨p, old, fun dest inside => inside⟩
    · exact ⟨old, inside, fun dest inside => mem_of_mem_filter inside⟩

theorem ctrl_settleState (member : c ∈ (settleState s peer work delivered).ctrl) : c ∈ s.ctrl := by
  cases work with
  | descs | sync => exact mem_of_mem_filter member
  | hist => exact member
  | text =>
    simp only [settleState, changeLedger] at member
    split at member
    · rwa [(quiet_confirm _ peer).ctrl] at member
    · exact member

section

variable (addressed : Addressed own s)
include addressed

theorem Addressed.quiet (quiet : s.Quiet next) : Addressed own next where
  toOutward := addressed.toOutward.quiet quiet
  listed := quiet.pending ▸ quiet.chain ▸ addressed.listed
  asked := quiet.ctrl ▸ quiet.chain ▸ addressed.asked

theorem Addressed.relist {chain : Chain} {status : Status}
    (keeps : ∀ id, id ≠ own → s.chain.latest.isMember id = true → chain.latest.isMember id = true) :
    Addressed own { s with chain := chain, status := status } where
  pending := addressed.pending
  requests := addressed.requests
  listed p member dest inside :=
    keeps dest (addressed.pending p member dest inside) (addressed.listed p member dest inside)
  asked c member kind := keeps c.dest (addressed.requests c member kind) (addressed.asked c member kind)

theorem Addressed.owe (entitled : kind = .sync → dest ≠ own ∧ s.chain.latest.isMember dest = true) :
    Addressed own (s.owe dest kind arg).1 where
  pending := by simpa using addressed.pending
  requests c owed sync := by
    rcases mem_ctrl_owe owed with ⟨old, member, same, kinds⟩ | ⟨same, kinds⟩
    · exact same ▸ addressed.requests old member (kinds.trans sync)
    · exact same ▸ (entitled (kinds.symm.trans sync)).1
  listed := by simpa using addressed.listed
  asked c owed sync := by
    rw [chain_owe]
    rcases mem_ctrl_owe owed with ⟨old, member, same, kinds⟩ | ⟨same, kinds⟩
    · exact same ▸ addressed.asked old member (kinds.trans sync)
    · exact same ▸ (entitled (kinds.symm.trans sync)).2

theorem Addressed.oweEach
    (entitled : kind = .sync → ∀ dest ∈ dests, dest ≠ own ∧ s.chain.latest.isMember dest = true) :
    Addressed own (s.oweEach dests kind arg) := by
  induction dests generalizing s with
  | nil => exact addressed
  | cons dest rest ih =>
    refine ih (addressed.owe fun sync => entitled sync dest mem_cons_self) fun sync other later => ?_
    rw [chain_owe]
    exact entitled sync other (mem_cons_of_mem dest later)

theorem Addressed.becomeMember {addedBy : B32} : Addressed own (s.becomeMember own addedBy).1 := by
  have joined : Addressed own { s with status := .joined, addedBy := some addedBy } :=
    ⟨⟨addressed.pending, addressed.requests⟩, addressed.listed, addressed.asked⟩
  exact joined.oweEach fun _ dest other => mem_others.mp other

theorem Addressed.queueMessage {id : B16} :
    Addressed own (s.queueMessage id text now (s.others own)) := by
  simp only [GroupState.queueMessage]
  split
  · exact ⟨⟨addressed.pending, addressed.requests⟩, addressed.listed, addressed.asked⟩
  exact ⟨⟨forall_mem_snoc addressed.pending fun dest inside => (mem_others.mp inside).1, addressed.requests⟩,
    forall_mem_snoc addressed.listed fun dest inside => (mem_others.mp inside).2, addressed.asked⟩

theorem Addressed.settleState : Addressed own (settleState s peer work delivered) where
  pending p member dest inside := by
    obtain ⟨old, there, fewer⟩ := pending_settleState member
    exact addressed.pending old there dest (fewer dest inside)
  requests c owed := addressed.requests c (ctrl_settleState owed)
  listed p member dest inside := by
    obtain ⟨old, there, fewer⟩ := pending_settleState member
    rw [chain_settleState]
    exact addressed.listed old there dest (fewer dest inside)
  asked c owed := by
    rw [chain_settleState]
    exact addressed.asked c (ctrl_settleState owed)

end

theorem Outward.standing (outward : Outward own s) {trusted autoJoin : Bool} :
    Outward own (GroupCore.standing s own peer trusted autoJoin).1 := by
  have cleared : Outward own { s with confirmed := [] } := ⟨outward.pending, outward.requests⟩
  have again := cleared.quiet (quiet_confirmMember _ peer)
  simp only [GroupCore.standing]
  split
  · exact ⟨outward.pending, outward.requests⟩
  · exact ⟨outward.pending, outward.requests⟩
  · exact outward
  · exact outward
  · exact outward
  split
  · split
    · exact again.becomeMember
    · exact ⟨again.pending, again.requests⟩
  · exact outward

end GroupState

namespace GroupCore

/-! ## The hand-over queues -/

def queue (core : GroupCore) (dest : B32) : List HistJob := (core.hist.get? dest).getD []

def queued (core : GroupCore) (dest : B32) (gid : B16) : Bool :=
  (core.queue dest).any (histGid ·.plain == some gid)

end GroupCore

theorem histGid_header {gid : B16} : histGid (kindHistOffer :: (gid.toList ++ rest)) = some gid := by
  have length := gid.length_toList
  simp [histGid, take_left' length, length]

theorem histGid_encode {o : HistOffer} (encoded : o.encode = .ok plain) : histGid plain = some o.gid := by
  simp only [HistOffer.encode] at encoded
  split at encoded
  · contradiction
  cases encoded
  have kind : putU8 kindHistOffer = [kindHistOffer] := by decide
  simp only [kind, append_assoc, cons_append, nil_append]
  exact histGid_header

namespace GroupCore

theorem mem_numberJobs (member : job ∈ numberJobs seq offers) : job.plain ∈ offers := by
  induction offers generalizing seq with
  | nil => contradiction
  | cons plain rest ih =>
    rcases mem_cons.mp member with rfl | later
    · exact mem_cons_self
    · exact mem_cons_of_mem plain (ih later)

variable {plain : Bytes}

theorem histGid_offer {store : GroupStore} {gid : B16}
    (offered : plain ∈ handoverOffers store gid dest) : histGid plain = some gid := by
  obtain ⟨m, -, encoded⟩ := mem_filterMap.mp offered
  cases result : HistOffer.encode ⟨gid, m.epoch, m.sender, m.counter, m.id, m.sentMs, m.text⟩ with
  | error =>
    simp only [result] at encoded
    contradiction
  | ok =>
    simp only [result] at encoded
    cases encoded
    exact histGid_encode result

/-- Every waiting offer is for another member that its group lists. -/
def Offered (own : B32) (core : GroupCore) : Prop :=
  ∀ dest, ∀ job ∈ core.queue dest, dest ≠ own ∧ ∃ gid s, histGid job.plain = some gid ∧
    core.groups.get? gid = some s ∧ s.chain.latest.isMember dest = true

variable {core after : GroupCore} {own : B32} {gid : B16} {s next : GroupState}

theorem Offered.carry (offered : Offered own core) (fewer : ∀ dest, ∀ job ∈ after.queue dest, job ∈ core.queue dest)
    (lists : ∀ gid s dest, core.groups.get? gid = some s → dest ≠ own → core.queued dest gid = true →
      s.chain.latest.isMember dest = true →
      ∃ next, after.groups.get? gid = some next ∧ next.chain.latest.isMember dest = true) :
    Offered own after := by
  intro dest job waiting
  have before := fewer dest job waiting
  obtain ⟨other, gid, s, about, found, listed⟩ := offered dest job before
  have queued : core.queued dest gid = true := any_eq_true.mpr ⟨job, before, by simp [about]⟩
  obtain ⟨next, there, still⟩ := lists gid s dest found other queued listed
  exact ⟨other, gid, next, about, there, still⟩

/-! ## The condition on the steps -/

def Op.text? (P : Primitives) : Op → Option (B32 × GroupText)
  | .handle peer plain _ _ =>
    match Record.decode P plain with
    | .ok (.text t) => some (peer, t)
    | _ => none
  | _ => none

def Op.descs? (P : Primitives) : Op → Option (List Descriptor)
  | .handle _ plain _ _ =>
    match Record.decode P plain with
    | .ok (.descs ds) => some ds
    | _ => none
  | _ => none

def Op.removal? : Op → Option (B16 × B32)
  | .remove gid who => some (gid, who)
  | _ => none

def Op.created? : Op → Option B16
  | .create gid _ _ _ => some gid
  | _ => none

def Op.renewal? : Op → Option B16
  | .create gid _ _ _ => some gid
  | .forget gid => some gid
  | _ => none

/-- Nobody with a waiting offer is removed, no group with waiting offers is dropped or
created again, received descriptors list everybody for whom an offer waits and
share no hash with the newest one unless they are that one, and a text whose
epoch is ahead comes from another listed member. -/
@[mk_iff] structure Orderly (P : Primitives) (core : GroupCore) (event : Faults × Op) : Prop where
  removal : ∀ pair ∈ Op.removal? event.2, core.queued pair.2 pair.1 = false
  renewal : ∀ gid ∈ Op.renewal? event.2, ∀ dest ∈ core.hist.keys, core.queued dest gid = false
  descs : ∀ ds ∈ Op.descs? P event.2, ∀ first ∈ ds.head?, ∀ s ∈ core.groups.get? first.gid,
    (∀ d ∈ ds, d.hash P = s.chain.latest.hash P → d = s.chain.latest) ∧
    ∀ dest ∈ core.hist.keys, core.queued dest first.gid = true → ∀ d ∈ ds, d.isMember dest = true
  texts : ∀ pair ∈ Op.text? P event.2, ∀ s ∈ core.groups.get? pair.2.gid,
    s.status = .joined → pair.2.epoch > s.chain.epoch → pair.1 ≠ core.own ∧ s.chain.latest.isMember pair.1 = true

instance (P : Primitives) (core : GroupCore) (event : Faults × Op) : Decidable (Orderly P core event) :=
  decidable_of_iff' _ (orderly_iff P core event)

variable {trusted : B32 → Bool}

theorem Op.mem_text? (read : Record.decode P plain = .ok (.text t)) :
    (peer, t) ∈ Op.text? P (.handle peer plain now trusted) := by
  simp [Op.text?, read]

theorem Op.mem_descs? (read : Record.decode P plain = .ok (.descs ds)) :
    ds ∈ Op.descs? P (.handle peer plain now trusted) := by
  simp [Op.descs?, read]

theorem mem_keys_of_queued (waiting : core.queued dest gid = true) : dest ∈ core.hist.keys := by
  cases found : core.hist.get? dest with
  | none => simp [queued, queue, found] at waiting
  | some jobs => exact mem_map.mpr ⟨(dest, jobs), SortedMap.get?_eq_some_iff.mp found, rfl⟩

end GroupCore

theorem Chain.latest_unmoved {next : Chain} {answer : Except DescError Bool} {chain : Chain}
    (push : chain.pushAll P ds = (next, answer))
    (nothing : answer ≠ .ok true) (distinct : ∀ d ∈ ds, d.hash P = chain.latest.hash P → d = chain.latest) :
    next.latest = chain.latest := by
  have same : next.latest.hash P = chain.latest.hash P := by
    simp only [pushAll] at push
    split at push
    · split at push
      · rename_i changed
        cases push
        exact absurd rfl (changed ▸ nothing)
      · rename_i unchanged
        cases push
        simpa using unchanged
    · cases push
      simpa using nothing
  rcases Chain.latest_pushAll push with old | member
  · exact old
  · exact distinct _ member same

namespace GroupCore

variable {core after : GroupCore} {own : B32} {gid : B16} {s next : GroupState} {op : Op}
  {faults : Faults}

theorem Change.addressed (change : Change P core op gid s next) (orderly : Orderly P core (faults, op))
    (found : core.groups.get? gid = some s) (addressed : s.Addressed core.own) :
    next.Addressed core.own := by
  cases change with
  | quiet kind quiet => exact addressed.quiet quiet
  | added joined admin listed push =>
    exact (addressed.relist fun id _ member => isMember_added listed push member).oweEach nofun
  | removed =>
    exact (addressed.toOutward.rechain).prune.oweEach nofun
  | leftAlone =>
    exact addressed.relist fun id _ member => member
  | left joined company push =>
    exact (addressed.relist fun id other member => isMember_without push member other).oweEach nofun
  | accepted => exact addressed.becomeMember
  | sent joined quiet => exact (addressed.queueMessage).quiet quiet
  | settled => exact addressed.settleState
  | asked read joined ahead =>
    refine addressed.owe fun _ => ?_
    exact orderly.texts _ (Op.mem_text? read) s found joined ahead
  | synced =>
    exact (addressed.quiet (GroupState.quiet_confirmMember s _)).owe nofun
  | unmoved read head push nothing quiet =>
    have held := (orderly.descs _ (Op.mem_descs? read) _ head s found).1
    have same := Chain.latest_unmoved push nothing held
    refine (addressed.relist fun id _ member => ?_).quiet quiet
    rw [same]
    exact member
  | updated =>
    refine GroupState.Outward.prune (GroupState.Outward.standing ?_)
    exact (addressed.toOutward.rechain).quiet (GroupState.quiet_confirmMember _ _)

theorem addressed_new : GroupState.Addressed own { GroupState.new chain status with lastMs := now } := by
  refine ⟨⟨?_, ?_⟩, ?_, ?_⟩ <;> simp [GroupState.new]

theorem Begins.addressed (begins : Begins P core op gid next) : next.Addressed core.own := by
  cases begins with
  | created => exact addressed_new.oweEach nofun
  | invited =>
    simp only [invitedGroup]
    split
    · exact (addressed_new.quiet (GroupState.quiet_confirm _ _)).becomeMember
    · exact addressed_new.quiet (GroupState.quiet_confirm _ _)

theorem Change.lists (change : Change P core op gid s next) (orderly : Orderly P core (faults, op))
    (found : core.groups.get? gid = some s) (other : dest ≠ core.own)
    (waiting : core.queued dest gid = true) (listed : s.chain.latest.isMember dest = true) :
    next.chain.latest.isMember dest = true := by
  cases change with
  | quiet kind quiet => rwa [quiet.chain]
  | added joined admin grown push =>
    rw [GroupState.chain_oweEach]
    exact isMember_added grown push listed
  | removed joined admin notSelf member push =>
    rw [GroupState.chain_oweEach, GroupState.chain_prune]
    refine isMember_without push listed ?_
    rintro rfl
    have none := orderly.removal _ rfl
    exact Bool.noConfusion (waiting.symm.trans none)
  | leftAlone => exact listed
  | left joined company push =>
    rw [GroupState.chain_oweEach]
    exact isMember_without push listed other
  | accepted => rwa [GroupState.chain_becomeMember]
  | sent joined quiet => rwa [quiet.chain, GroupState.chain_queueMessage]
  | settled => rwa [GroupState.chain_settleState]
  | asked => rwa [GroupState.chain_owe]
  | synced => rwa [GroupState.chain_owe, (GroupState.quiet_confirmMember s _).chain]
  | unmoved read head push nothing quiet =>
    have held := (orderly.descs _ (Op.mem_descs? read) _ head s found).1
    rw [quiet.chain, Chain.latest_unmoved push nothing held]
    exact listed
  | updated read head rising push =>
    have all := (orderly.descs _ (Op.mem_descs? read) _ head s found).2 dest (mem_keys_of_queued waiting) waiting
    rw [GroupState.chain_prune, GroupState.chain_standing, (GroupState.quiet_confirmMember _ _).chain]
    rcases Chain.latest_pushAll push with same | member
    · rw [same]
      exact listed
    · exact all _ member

theorem Begins.notQueued (begins : Begins P core op gid next) (orderly : Orderly P core (faults, op))
    (found : core.groups.get? gid = some s) : core.queued dest gid = false := by
  cases begins with
  | created =>
    by_contra waiting
    rw [Bool.not_eq_false] at waiting
    have none := orderly.renewal _ rfl dest (mem_keys_of_queued waiting)
    exact Bool.noConfusion (waiting.symm.trans none)
  | invited read head unknown =>
    rw [unknown] at found
    contradiction

theorem Effect.offered (effect : Effect P core op after) (orderly : Orderly P core (faults, op))
    (offered : Offered core.own core) : Offered core.own after := by
  cases effect with
  | kept same =>
    refine offered.carry (fun dest job waiting => ?_) fun gid s dest found _ _ listed => ?_
    · rwa [queue, same.hist] at waiting
    · exact ⟨s, same.groups ▸ found, listed⟩
  | changed there change puts =>
    rename_i place before now
    refine offered.carry (fun dest job waiting => ?_) fun gid s dest found other waiting listed => ?_
    · rwa [queue, puts.hist] at waiting
    rw [puts.groups]
    split
    · rename_i here
      subst here
      cases found.symm.trans there
      exact ⟨now, rfl, change.lists orderly there other waiting listed⟩
    · exact ⟨s, found, listed⟩
  | began begins puts =>
    refine offered.carry (fun dest job waiting => ?_) fun gid s dest found other waiting listed => ?_
    · rwa [queue, puts.hist] at waiting
    rw [puts.groups]
    split
    · rename_i here
      subst here
      exact Bool.noConfusion (waiting.symm.trans (begins.notQueued orderly found))
    · exact ⟨s, found, listed⟩

/-! ## Whole runs -/

/-- Every item of the groups and of the queues is for somebody entitled to it. -/
structure Delivers (P : Primitives) (core : GroupCore) : Prop where
  held : Held P (GroupState.Addressed (P.verifyingKey core.key)) core
  offered : Offered (P.verifyingKey core.key) core

theorem Offered.step (offered : Offered core.own core) (orderly : Orderly P core (faults, op)) :
    Offered core.own (core.step P faults op) := by
  by_cases plain : op.isPlain = true
  · exact (step_effect core faults plain).offered orderly offered
  cases op with
  | create | add | remove | leave | acceptInvite | send | handle | setAutoJoin => exact absurd rfl plain
  | settle peer work delivered =>
    cases work with
    | text | descs | sync => exact absurd rfl plain
    | hist gid dest seq =>
      obtain ⟨hist, same, fewer⟩ := settle_hist core faults peer dest gid seq delivered
      simp only [GroupCore.step, same]
      exact offered.carry fewer fun gid s dest found _ _ listed => ⟨s, found, listed⟩
  | forget gid =>
    refine offered.carry (fun dest job waiting => ?_) fun place s dest found _ waiting listed => ?_
    · have hist := (forget_frame core faults gid).1
      simp only [GroupCore.step, queue, hist] at waiting
      exact waiting
    -- A group with waiting offers is not the one that is dropped.
    refine ⟨s, ?_, listed⟩
    have different : place ≠ gid := by
      rintro rfl
      have nothing := orderly.renewal _ rfl dest (mem_keys_of_queued waiting)
      exact Bool.noConfusion (waiting.symm.trans nothing)
    simp only [GroupCore.step, forget]
    split
    · exact found
    split
    · exact found
    split
    · exact found
    · simpa [SortedMap.get?_erase, different] using found
  | handover gid dest =>
    obtain ⟨mid, effect, same⟩ := handover_effect (P := P) core faults gid dest
    have between := effect.offered orderly offered
    rcases same with same | ⟨other, ⟨s, found, listed⟩, same⟩
    · simp only [GroupCore.step, same]
      exact between
    simp only [GroupCore.step, same]
    intro place job waiting
    simp only [queue, SortedMap.get?_insert] at waiting
    split at waiting
    · rename_i here
      subst here
      rcases mem_append.mp waiting with old | new
      · exact between place job old
      · exact ⟨other, gid, s, histGid_offer (mem_numberJobs new), found, listed⟩
    · exact between place job waiting
  | sweepRetention cutoff =>
    obtain ⟨-, hist, -, -⟩ := sweepRetention_frame core faults cutoff
    refine offered.carry (fun dest job waiting => ?_) fun place s dest found _ _ listed => ?_
    · simpa only [GroupCore.step, queue, hist] using waiting
    obtain ⟨next, there, quiet⟩ := sweepRetention_found core faults found
    exact ⟨next, there, by rwa [quiet.chain]⟩
  | flushAll =>
    obtain ⟨groups, hist, -, -⟩ := flushAll_frame core faults
    refine offered.carry (fun dest job waiting => ?_) fun place s dest found _ _ listed => ⟨s, ?_, listed⟩
    · simpa only [GroupCore.step, queue, hist] using waiting
    · simpa only [GroupCore.step, groups] using found
  | restart =>
    intro dest job waiting
    simp [GroupCore.step, new, queue] at waiting

theorem Delivers.step (delivers : Delivers P core) (orderly : Orderly P core (faults, op)) :
    Delivers P (core.step P faults op) := by
  have own := delivers.held.own
  constructor
  · rw [step_key, ← own]
    refine (own ▸ delivers.held : Held P (GroupState.Addressed core.own) core).step faults op ?_ ?_
    · intro gid s next found addressed change
      exact change.addressed orderly found addressed
    · exact fun begins => begins.addressed
  · rw [step_key, ← own]
    exact (own ▸ delivers.offered : Offered core.own core).step orderly

/-! ## What is offered -/

variable {peer : B32}

theorem mem_of_foldl_owed {owed : List PendingMsg} {best : Option PendingMsg} (found : owed.foldl (fun best p =>
      match best with
      | none => some p
      | some held => if p.counter < held.counter then some p else some held) best = some p) :
    best = some p ∨ p ∈ owed := by
  induction owed generalizing best with
  | nil => exact .inl found
  | cons head rest ih =>
    rcases ih found with same | later
    · cases best with
      | none =>
        cases same
        exact .inr mem_cons_self
      | some held =>
        simp only at same
        split at same
        · cases same
          exact .inr mem_cons_self
        · exact .inl same
    · exact .inr (mem_cons_of_mem head later)

theorem firstOwed_mem (first : firstOwed peer pending = some p) : p ∈ pending ∧ peer ∈ p.dest := by
  rcases mem_of_foldl_owed first with nothing | member
  · contradiction
  obtain ⟨there, owed⟩ := mem_filter.mp member
  exact ⟨there, by simpa using owed⟩

variable {out : Outgoing}

theorem nextCtrl_cases (item : nextCtrl peer states = some (some out)) :
    ∃ s ∈ states, out.work = .descs s.gid ∨
      out.work = .sync s.gid ∧ ∃ c ∈ s.ctrl, c.kind = .sync ∧ c.dest = peer := by
  induction states with
  | nil => contradiction
  | cons s rest ih =>
    simp only [nextCtrl] at item
    split at item
    · obtain ⟨held, member, kind⟩ := ih item
      exact ⟨held, mem_cons_of_mem s member, kind⟩
    rename_i c found
    have there := mem_of_find?_eq_some found
    have dest : c.dest = peer := by simpa using find?_some found
    split at item
    · obtain ⟨plain, -, same⟩ := Option.map_eq_some_iff.mp (Option.some.inj item)
      exact ⟨s, mem_cons_self, .inl (same ▸ rfl)⟩
    rename_i kind
    cases item
    exact ⟨s, mem_cons_self, .inr ⟨rfl, c, there, kind, dest⟩⟩

theorem nextText_cases (item : nextText peer states = some (some out)) :
    ∃ s ∈ states, ∃ p ∈ s.pending, out.work = .text s.gid p.id ∧ peer ∈ p.dest := by
  induction states with
  | nil => contradiction
  | cons s rest ih =>
    simp only [nextText] at item
    split at item
    · obtain ⟨held, member, kind⟩ := ih item
      exact ⟨held, mem_cons_of_mem s member, kind⟩
    rename_i p found
    obtain ⟨there, owed⟩ := firstOwed_mem found
    obtain ⟨plain, -, same⟩ := Option.map_eq_some_iff.mp (Option.some.inj item)
    exact ⟨s, mem_cons_self, p, there, same ▸ rfl, owed⟩

theorem nextFor_cases (item : core.nextFor peer = some out) : (∃ s ∈ core.groups.values, out.work = .descs s.gid ∨
      out.work = .sync s.gid ∧ ∃ c ∈ s.ctrl, c.kind = .sync ∧ c.dest = peer) ∨
    (∃ s ∈ core.groups.values, ∃ p ∈ s.pending, out.work = .text s.gid p.id ∧ peer ∈ p.dest) ∨
    ∃ job ∈ core.queue peer, out.work = .hist ((histGid job.plain).getD default) peer job.seq := by
  simp only [nextFor] at item
  split at item
  · rename_i ctrl
    exact .inl (nextCtrl_cases (item ▸ ctrl))
  split at item
  · rename_i text
    exact .inr (.inl (nextText_cases (item ▸ text)))
  split at item
  · rename_i job rest found
    cases item
    exact .inr (.inr ⟨job, by simp [queue, found], rfl⟩)
  · contradiction

/-- The item is of descriptors, or of a group whose newest list has `peer`. -/
def Entitled (core : GroupCore) (peer : B32) (work : Work) : Prop := work = .descs (Work.gid work) ∨
    ∃ s, core.groups.get? (Work.gid work) = some s ∧ s.chain.latest.isMember peer = true

theorem Delivers.entitled (delivers : Delivers P core)
    (item : core.nextFor peer = some out) : core.Entitled peer out.work := by
  have group : ∀ s ∈ core.groups.values, core.groups.get? s.gid = some s ∧ s.Addressed (P.verifyingKey core.key) := by
    intro s member
    obtain ⟨gid, found⟩ := SortedMap.mem_values_iff.mp member
    rw [delivers.held.keyed gid s found]
    exact ⟨found, delivers.held.groups gid s found⟩
  rcases nextFor_cases item with ⟨s, member, descs | ⟨sync, c, there, kind, rfl⟩⟩ |
    ⟨s, member, p, there, text, owed⟩ | ⟨job, waiting, hist⟩
  · rw [descs]
    exact .inl rfl
  · rw [sync]
    exact .inr ⟨s, (group s member).1, (group s member).2.asked c there kind⟩
  · rw [text]
    exact .inr ⟨s, (group s member).1, (group s member).2.listed p there peer owed⟩
  obtain ⟨-, gid, s, about, found, listed⟩ := delivers.offered peer job waiting
  rw [hist, about]
  exact .inr ⟨s, found, listed⟩

end GroupCore

/-- In every run whose steps are orderly, whatever is offered to somebody is
descriptors, or belongs to a group whose newest descriptor lists them. -/
theorem offered_to_listed_of_orderly (P : Primitives) (key : B32) (maxMessageBytes : Nat)
    (settings : StoreSettings) (ops : List (Faults × Op))
    (orderly : Along (advance P) (Orderly P) (fresh P key maxMessageBytes settings) ops)
    (peer : B32) (out : Outgoing)
    (item : ((fresh P key maxMessageBytes settings).run P ops).nextFor peer = some out) :
    ((fresh P key maxMessageBytes settings).run P ops).Entitled peer out.work := by
  have keeps : ∀ {core : GroupCore} {event : Faults × Op} {after : GroupCore},
      core.Delivers P → core.Orderly P event → core.advance P event = some after →
      after.Delivers P := by
    intro core event after delivers met stepped
    cases stepped
    exact delivers.step met
  have start : (fresh P key maxMessageBytes settings).Delivers P :=
    ⟨held_fresh key maxMessageBytes settings, by
      intro dest job waiting
      simp [fresh, new, queue] at waiting⟩
  exact (invariant_of_run keeps start orderly (run_advance P _ ops)).entitled item

namespace Sample

def letter : B16 := ByteVec.fill 16 7

/-- A group of three is told, hears a message, and the guest is handed the
history; then somebody is removed and the guest is told so. -/
def removalOps (who : B32) : List (Faults × Op) :=
  [({}, .create gid "team" [(guest, ""), (other, "")] 1000),
    ({}, .settle guest (.descs gid) true), ({}, .settle other (.descs gid) true),
    ({}, .send gid letter "hello" 1001), ({}, .handover gid guest),
    ({}, .settle guest (.text gid letter) true),
    ({}, .remove gid who), ({}, .settle guest (.descs gid) true)]

end Sample

theorem offered_to_listed_of_removal :
    ∃ out, (core.run .checksum (removalOps other)).nextFor guest = some out ∧ out.work = .hist gid guest 1 ∧
      (core.run .checksum (removalOps other)).Entitled guest out.work := by
  have orderly : Along (advance .checksum) (Orderly .checksum)
      core (removalOps other) := by
    decide +kernel
  have shown : ((core.run .checksum (removalOps other)).nextFor
      guest).any (·.work = .hist gid guest 1) = true := by
    decide +kernel
  obtain ⟨out, item, work⟩ := exists_of_any shown
  exact ⟨out, item, work, offered_to_listed_of_orderly _ _ _ _ _ orderly guest out item⟩

/-- The guest that was removed is still handed the history. -/
theorem removed_member_is_handed_history :
    ∃ out, (core.run .checksum (removalOps guest)).nextFor guest = some out ∧
      ¬ (core.run .checksum (removalOps guest)).Entitled guest out.work := by
  have shown : ((core.run .checksum (removalOps guest)).nextFor
      guest).any (·.work = .hist gid guest 1) = true := by
    decide +kernel
  have gone : ((core.run .checksum (removalOps guest)).groups.get?
      gid).all (!·.chain.latest.isMember guest) = true := by
    decide +kernel
  obtain ⟨out, item, work⟩ := exists_of_any shown
  refine ⟨out, item, ?_⟩
  rw [work]
  rintro (descs | ⟨s, found, listed⟩)
  · cases descs
  rw [Work.gid] at found
  rw [found] at gone
  simp [listed] at gone

end Miasma.Chat.Group
