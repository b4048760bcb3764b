import Miasma.Chat.Group.Saved
import Miasma.Chat.Group.Settlement

namespace Miasma.Chat.Group

open Data GroupState SortedMap GroupCore List

/-! # What one step can do to a group -/

variable {P : Primitives} {ds : List Descriptor}

namespace Chain

variable {chain next : Chain} {d : Descriptor} {result : Pushed}

theorem latest_push (pushed : chain.push P d = .ok (next, result)) : next = chain ∨ next.latest = d := by
  rcases push_ok_cases pushed with ⟨-, rfl, -⟩ | ⟨-, rfl, -⟩ | ⟨-, rfl, -⟩
  · exact .inl rfl
  · exact .inr (latest_replaceLatest chain d)
  · exact .inr (latest_append chain d)

theorem gid_push (pushed : chain.push P d = .ok (next, result)) : next.gid = chain.gid := by
  have same : d.gid = chain.latest.gid := by
    dsimp only [push] at pushed
    split at pushed
    · contradiction
    rename_i same
    exact Decidable.not_not.mp same
  rcases latest_push pushed with rfl | newest
  · rfl
  · rw [gid, gid, newest, same]

theorem gid_pushEach (chain : Chain) (ds : List Descriptor) : (chain.pushEach P ds).1.gid = chain.gid := by
  induction ds generalizing chain with
  | nil => rfl
  | cons d rest ih =>
    simp only [pushEach]
    split
    · rename_i next result pushed
      rw [ih, gid_push pushed]
    · rfl

variable {answer : Except DescError Bool}

theorem gid_pushAll (pushed : chain.pushAll P ds = (next, answer)) : next.gid = chain.gid := by
  have same : (chain.pushAll P ds).1.gid = chain.gid := by rw [pushAll_chain, gid_pushEach]
  rwa [pushed] at same

theorem latest_pushEach (chain : Chain) (ds : List Descriptor) :
    (chain.pushEach P ds).1.latest = chain.latest ∨ (chain.pushEach P ds).1.latest ∈ ds := by
  induction ds generalizing chain with
  | nil => exact .inl rfl
  | cons d rest ih =>
    simp only [pushEach]
    split
    · rename_i next result pushed
      rcases ih next with same | member
      · rcases latest_push pushed with rfl | newest
        · exact .inl same
        · exact .inr (by rw [same, newest]; exact mem_cons_self)
      · exact .inr (mem_cons_of_mem d member)
    · exact .inl rfl

theorem latest_pushAll
    (pushed : chain.pushAll P ds = (next, answer)) : next.latest = chain.latest ∨ next.latest ∈ ds := by
  have newest := latest_pushEach (P := P) chain ds
  rwa [← pushAll_chain, pushed] at newest

end Chain

/-- Everything that membership, delivery and the ledger depend on is the same. -/
structure GroupState.Quiet (s next : GroupState) : Prop where
  chain : next.chain = s.chain
  status : next.status = s.status
  pending : next.pending = s.pending
  ledger : next.ledger = s.ledger
  ctrl : next.ctrl = s.ctrl

variable {result : Except GroupError Unit}

namespace GroupState

variable {s next last : GroupState}

theorem Quiet.refl : s.Quiet s := ⟨rfl, rfl, rfl, rfl, rfl⟩

theorem Quiet.trans (first : s.Quiet next) (second : next.Quiet last) : s.Quiet last :=
  ⟨second.chain.trans first.chain, second.status.trans first.status,
    second.pending.trans first.pending, second.ledger.trans first.ledger,
    second.ctrl.trans first.ctrl⟩

theorem quiet_confirm (s : GroupState) (peer : B32) : s.Quiet (s.confirm peer).1 := by
  simp only [confirm]
  split
  · exact .refl
  · exact ⟨rfl, rfl, rfl, rfl, rfl⟩

theorem quiet_confirmMember (s : GroupState) (peer : B32) : s.Quiet (s.confirmMember peer).1 := by
  simp only [confirmMember]
  split
  · exact quiet_confirm s peer
  · exact .refl

theorem quiet_markHandover (s : GroupState) (dest : B32) (epoch : UInt32) :
    s.Quiet (s.markHandover dest epoch).1 := by
  simp only [markHandover]
  split
  · exact .refl
  · exact ⟨rfl, rfl, rfl, rfl, rfl⟩

theorem quiet_numberMessage (store : GroupStore) (s : GroupState) (m : GroupMsg) :
    s.Quiet (numberMessage store s m).1 := by
  simp only [numberMessage]
  split
  all_goals exact ⟨rfl, rfl, rfl, rfl, rfl⟩

theorem quiet_recordLocked {store after : GroupStore}
    (recorded : recordLocked store faults s m = (after, next, result)) : s.Quiet next := by
  rw [(recordLocked_frame recorded).2]
  exact quiet_numberMessage store s m

/-! Owing something touches only the control list, and a failed copy only the
ledger. -/

theorem owe_rest : (s.owe dest kind arg).1 = { s with ctrl := (s.owe dest kind arg).1.ctrl } := by
  simp only [owe]
  split
  · split <;> rfl
  · split <;> rfl

theorem oweEach_rest (s : GroupState) (dests : List B32) (kind : CtrlKind) (arg : UInt32) :
    s.oweEach dests kind arg = { s with ctrl := (s.oweEach dests kind arg).ctrl } := by
  unfold oweEach
  induction dests generalizing s with
  | nil => rfl
  | cons dest rest ih =>
    rw [foldl_cons, ih, owe_rest]

section

variable (s : GroupState) (dest : B32) (kind : CtrlKind) (arg : UInt32)

@[simp] theorem chain_owe : (s.owe dest kind arg).1.chain = s.chain := by rw [owe_rest]

@[simp] theorem status_owe : (s.owe dest kind arg).1.status = s.status := by rw [owe_rest]

@[simp] theorem pending_owe : (s.owe dest kind arg).1.pending = s.pending := by rw [owe_rest]

@[simp] theorem ledger_owe : (s.owe dest kind arg).1.ledger = s.ledger := by rw [owe_rest]

end

section

variable (s : GroupState) (dests : List B32) (kind : CtrlKind) (arg : UInt32)

@[simp] theorem chain_oweEach : (s.oweEach dests kind arg).chain = s.chain := by rw [oweEach_rest]

@[simp] theorem status_oweEach : (s.oweEach dests kind arg).status = s.status := by rw [oweEach_rest]

@[simp] theorem pending_oweEach : (s.oweEach dests kind arg).pending = s.pending := by rw [oweEach_rest]

@[simp] theorem ledger_oweEach : (s.oweEach dests kind arg).ledger = s.ledger := by rw [oweEach_rest]

end

theorem mem_ctrl_owe (owed : c ∈ (s.owe dest kind arg).1.ctrl) :
    (∃ old ∈ s.ctrl, old.dest = c.dest ∧ old.kind = c.kind) ∨ c.dest = dest ∧ c.kind = kind := by
  simp only [owe] at owed
  split at owed
  · split at owed
    · rcases mem_updateFirst owed with old | ⟨old, member, rfl⟩
      · exact .inl ⟨c, old, rfl, rfl⟩
      · exact .inl ⟨old, member, rfl, rfl⟩
    · exact .inl ⟨c, owed, rfl, rfl⟩
  · split at owed
    · exact .inl ⟨c, owed, rfl, rfl⟩
    rcases mem_snoc.mp owed with old | rfl
    · exact .inl ⟨c, old, rfl, rfl⟩
    · exact .inr ⟨rfl, rfl⟩

theorem mem_ctrl_oweEach (owed : c ∈ (s.oweEach dests kind arg).ctrl) :
    (∃ old ∈ s.ctrl, old.dest = c.dest ∧ old.kind = c.kind) ∨ c.dest ∈ dests ∧ c.kind = kind := by
  induction dests generalizing s with
  | nil => exact .inl ⟨c, owed, rfl, rfl⟩
  | cons dest rest ih =>
    rcases ih owed with ⟨old, member, toSame, same⟩ | ⟨later, same⟩
    · rcases mem_ctrl_owe member with ⟨older, there, toSameToo, sameToo⟩ | ⟨new, newKind⟩
      · exact .inl ⟨older, there, toSameToo.trans toSame, sameToo.trans same⟩
      · exact .inr ⟨by rw [← toSame, new]; exact mem_cons_self, same.symm.trans newKind⟩
    · exact .inr ⟨mem_cons_of_mem dest later, same⟩

section

variable (s : GroupState)

theorem noteFailed_rest (dropped : List (B16 × UInt8)) :
    s.noteFailed dropped = { s with ledger := (s.noteFailed dropped).ledger } := by
  unfold noteFailed
  induction dropped generalizing s with
  | nil => rfl
  | cons entry rest ih =>
    rw [foldl_cons, ih]
    rfl

@[simp] theorem chain_prune : s.prune.chain = s.chain := by
  simp only [prune]
  rw [noteFailed_rest]

@[simp] theorem status_prune : s.prune.status = s.status := by
  simp only [prune]
  rw [noteFailed_rest]

theorem pending_prune : s.prune.pending = (s.pending.map (fun p => { p with
      dest := p.dest.filter (fun t => (s.chain.latest.members.map Member.id).contains t) })).filter
        (!·.dest.isEmpty) := by
  simp only [prune]
  rw [noteFailed_rest]

theorem ctrl_prune : s.prune.ctrl =
    s.ctrl.filter (fun c => (s.chain.latest.members.map Member.id).contains c.dest) := by
  simp only [prune]
  rw [noteFailed_rest]

@[simp] theorem chain_becomeMember {own addedBy : B32} : (s.becomeMember own addedBy).1.chain = s.chain := by
  simp [becomeMember]

@[simp] theorem chain_queueMessage {id : B16} :
    (s.queueMessage id text now recipients).chain = s.chain := by
  simp only [queueMessage]
  split <;> rfl

@[simp] theorem chain_settleState : (settleState s peer work delivered).chain = s.chain := by
  cases work with
  | descs | sync | hist => rfl
  | text =>
    simp only [settleState, changeLedger]
    split
    · exact (quiet_confirm _ peer).chain
    · rfl

@[simp] theorem chain_standing (own peer : B32) (trusted autoJoin : Bool) :
    (standing s own peer trusted autoJoin).1.chain = s.chain := by
  simp only [standing]
  have cleared := (quiet_confirmMember { s with confirmed := [] } peer).chain
  split
  · rfl
  · rfl
  · rfl
  · rfl
  · rfl
  split
  · split
    · rw [chain_becomeMember]
      exact cleared
    · exact cleared
  · rfl

end

end GroupState

namespace GroupCore

/-! ## The changes of one group -/

/-- The operations that may touch only a group's counters and markers. -/
def Op.isQuiet : Op → Bool
  | .handle _ _ _ _ | .handover _ _ | .sweepRetention _ => true
  | _ => false

def invited : B32 × String × Bool → Member
  | (id, hint, admin) => ⟨id, if admin then .admin else .member, trimHint hint⟩

theorem addList_ok {new : List (B32 × String × Bool)} (listed : addList members new = .ok list) :
    list = members ++ new.map invited := by
  induction new generalizing members with
  | nil =>
    cases listed
    exact (append_nil _).symm
  | cons entry rest ih =>
    simp only [addList] at listed
    split at listed
    · contradiction
    rw [ih listed, append_assoc]
    rfl

/-- How an operation changes a group that the device holds under `gid`. -/
inductive Change (P : Primitives) (core : GroupCore) : Op → B16 → GroupState → GroupState → Prop
  | quiet {op gid s next} (kind : op.isQuiet = true) (quiet : s.Quiet next) : Change P core op gid s next
  | added {gid new s members chain pushed} (joined : s.status = .joined)
      (admin : s.chain.latest.isAdmin core.own = true)
      (listed : addList s.chain.latest.members new = .ok members)
      (push : s.chain.push P (nextDescriptor P s.chain.latest members core.key) = .ok (chain, pushed)) :
      Change P core (.add gid new) gid s (({ s with chain := chain } : GroupState).oweEach
          (({ s with chain := chain } : GroupState).others core.own) .descs 0)
  | removed {gid who s chain pushed} (joined : s.status = .joined)
      (admin : s.chain.latest.isAdmin core.own = true) (notSelf : who ≠ core.own)
      (member : s.chain.latest.isMember who = true)
      (push : s.chain.push P (nextDescriptor P s.chain.latest
        (s.chain.latest.members.filter (·.id != who)) core.key) = .ok (chain, pushed)) :
      Change P core (.remove gid who) gid s (({ s with chain := chain } : GroupState).prune.oweEach
          (({ s with chain := chain } : GroupState).prune.others core.own ++ [who]) .descs 0)
  | leftAlone {gid s} (joined : s.status = .joined)
      (alone : (s.chain.latest.members.filter (·.id != core.own)).isEmpty = true) :
      Change P core (.leave gid) gid s { s with status := .left }
  | left {gid s chain pushed} (joined : s.status = .joined)
      (company : (s.chain.latest.members.filter (·.id != core.own)).isEmpty = false)
      (push : s.chain.push P (nextDescriptor P s.chain.latest
        (s.chain.latest.members.filter (·.id != core.own)) core.key) = .ok (chain, pushed)) :
      Change P core (.leave gid) gid s (({ s with chain := chain, status := .left } : GroupState).oweEach
          ((s.chain.latest.members.filter (·.id != core.own)).map Member.id) .descs 0)
  | accepted {gid s invitedBy} (pending : s.status = .pending invitedBy) :
      Change P core (.acceptInvite gid) gid s (s.becomeMember core.own invitedBy).1
  | sent {gid id text now s next} (joined : s.status = .joined)
      (quiet : (s.queueMessage id text now (s.others core.own)).Quiet next) :
      Change P core (.send gid id text now) gid s next
  | settled {peer work delivered s} :
      Change P core (.settle peer work delivered) (Work.gid work) s (settleState s peer work delivered)
  | asked {peer plain now trusted s t} (read : Record.decode P plain = .ok (.text t))
      (joined : s.status = .joined) (ahead : t.epoch > s.chain.epoch) :
      Change P core (.handle peer plain now trusted) t.gid s (s.owe peer .sync s.chain.epoch).1
  | synced {peer plain now trusted s gid epoch} (read : Record.decode P plain = .ok (.sync gid epoch))
      (known : s.chain.everMember peer = true) :
      Change P core (.handle peer plain now trusted) gid s ((s.confirmMember peer).1.owe peer .descs 0).1
  | unmoved {peer plain now trusted s ds chain first answer next}
      (read : Record.decode P plain = .ok (.descs ds)) (head : ds.head? = some first)
      (push : s.chain.pushAll P ds = (chain, answer)) (nothing : answer ≠ .ok true)
      (quiet : ({ s with chain := chain } : GroupState).Quiet next) :
      Change P core (.handle peer plain now trusted) first.gid s next
  | updated {peer plain now trusted s ds chain first}
      (read : Record.decode P plain = .ok (.descs ds)) (head : ds.head? = some first)
      (rising : ascending ds = true) (push : s.chain.pushAll P ds = (chain, .ok true)) :
      Change P core (.handle peer plain now trusted) first.gid s
        (standing (({ s with chain := chain } : GroupState).confirmMember peer).1 core.own peer
          (trusted peer) core.autoJoin).1.prune

/-- A group as its creator starts it: the others are owed the descriptor. -/
def createdGroup (chain : Chain) (own : B32) (now : UInt64) : GroupState :=
  let s := { GroupState.new chain .joined with lastMs := now }
  s.oweEach (s.others own) .descs 0

/-- A group as an invitation from `peer` starts it. -/
def invitedGroup (chain : Chain) (own peer : B32) (now : UInt64) (autoJoin : Bool) : GroupState :=
  let s := (GroupState.confirm { GroupState.new chain (.pending peer) with lastMs := now } peer).1
  (if autoJoin then s.becomeMember own peer else (s, [])).1

inductive Begins (P : Primitives) (core : GroupCore) : Op → B16 → GroupState → Prop
  | created {gid name members now list d chain}
      (listed : createList core.own [⟨core.own, .admin, ""⟩] members = .ok list)
      (made : d = Descriptor.signed P
        { gid := gid, epoch := 1, name := trim name, createdMs := now, prevHash := ByteVec.fill 32 0,
          members := list, signer := ByteVec.fill 32 0, sig := ByteVec.fill 64 0 } core.key)
      (root : Chain.fromRoot P d = .ok chain) :
      Begins P core (.create gid name members now) gid (createdGroup chain core.own now)
  | invited {peer plain now trusted ds chain first latest}
      (read : Record.decode P plain = .ok (.descs ds)) (head : ds.head? = some first)
      (unknown : core.groups.get? first.gid = none)
      (last : ds.getLast? = some latest) (oneGroup : ∀ d ∈ ds, d.gid = first.gid)
      (rising : ascending ds = true) (lists : latest.isMember core.own = true)
      (offered : inviteChain P ds = some chain) (newest : chain.epoch = latest.epoch) :
      Begins P core (.handle peer plain now trusted) first.gid (invitedGroup chain core.own peer now core.autoJoin)

/-! ## The effect of an operation on the engine -/

structure Keeps (core after : GroupCore) : Prop where
  groups : after.groups = core.groups
  documents : after.store.documents = core.store.documents
  hist : after.hist = core.hist
  key : after.key = core.key
  own : after.own = core.own

/-- The group under `gid` is `next`, written to its document or not. -/
structure Puts (core : GroupCore) (gid : B16) (next : GroupState) (after : GroupCore) : Prop where
  groups : ∀ other, after.groups.get? other = if other = gid then some next else core.groups.get? other
  documents : after.store.documents = core.store.documents ∨
    after.store.documents = core.store.documents.insert next.gid next.encode
  hist : after.hist = core.hist
  key : after.key = core.key
  own : after.own = core.own

inductive Effect (P : Primitives) (core : GroupCore) (op : Op) (after : GroupCore) : Prop
  | kept (same : Keeps core after)
  | changed {gid s next} (found : core.groups.get? gid = some s) (change : Change P core op gid s next)
      (puts : Puts core gid next after)
  | began {gid next} (begins : Begins P core op gid next) (puts : Puts core gid next after)

variable {core after : GroupCore} {op : Op} {s next : GroupState} {faults : Faults} {gid : B16}

theorem Keeps.refl (core : GroupCore) : Keeps core core := ⟨rfl, rfl, rfl, rfl, rfl⟩

theorem Effect.refl : Effect P core op core := .kept (.refl core)

theorem Effect.frame (effect : Effect P core op after) : after.key = core.key ∧ after.own = core.own := by
  cases effect with
  | kept same => exact ⟨same.key, same.own⟩
  | changed found change puts | began begins puts => exact ⟨puts.key, puts.own⟩

theorem puts_putGroup (core : GroupCore) (gid : B16) (next : GroupState) :
    Puts core gid next (core.putGroup gid next) :=
  ⟨fun _ => get?_insert _, .inl rfl, rfl, rfl, rfl⟩

variable {store : GroupStore}

theorem Puts.withStore (same : store.documents = core.store.documents)
    (puts : Puts { core with store := store } gid next after) : Puts core gid next after where
  groups := puts.groups
  documents := same ▸ puts.documents
  hist := puts.hist
  key := puts.key
  own := puts.own

theorem Puts.save (puts : Puts core gid next after) (same : after.store.documents = core.store.documents) :
    Puts core gid next (after.save faults next).1 := by
  rw [save_eq]
  split
  · exact puts
  · exact { puts with documents := .inr (same ▸ rfl) }

theorem Puts.pushEvent (puts : Puts core gid next after) (other : B16) (kind : GroupEventKind)
    (m : Option GroupMsg) : Puts core gid next (after.pushEvent other kind m) :=
  { puts with }

theorem puts_saved (core : GroupCore) (faults : Faults) (gid : B16) (next : GroupState) :
    Puts core gid next ((core.putGroup gid next).save faults next).1 :=
  (puts_putGroup core gid next).save rfl

variable {mid : GroupCore}

theorem save_fst_of_eq (written : core.save faults s = (mid, result)) : mid = (core.save faults s).1 := by
  rw [written]

theorem puts_commit (core : GroupCore) (faults : Faults) (gid : B16) (next : GroupState)
    (result : α) : Puts core gid next (core.commit faults gid next result).1 := by
  unfold commit
  split
  · rename_i written
    exact save_fst_of_eq written ▸ puts_saved core faults gid next
  · rename_i written
    exact (save_fst_of_eq written ▸ puts_saved core faults gid next).pushEvent _ _ _

theorem keeps_save_error (written : core.save faults s = (mid, .error e)) : Keeps core mid := by
  rw [save_eq] at written
  split at written
  · cases written
    exact .refl core
  · cases written

theorem puts_save_first (written : core.save faults next = (mid, .ok ())) :
    Puts core gid next (mid.putGroup gid next) := by
  rw [save_eq] at written
  split at written
  · cases written
  cases written
  exact ⟨fun _ => get?_insert _, .inr rfl, rfl, rfl, rfl⟩

theorem liveGroup_joined (live : core.liveGroup gid = .ok s) : s.status = .joined := by
  unfold liveGroup at live
  split at live
  · contradiction
  split at live
  · contradiction
  rename_i joined
  cases live
  exact Decidable.not_not.mp joined

/-! ### Operations of this device

A call is refused without an effect, whatever the files answer, or it commits one
change. -/

/-- Every call of the family is refused with the same error. -/
def Refuses (core : GroupCore) (call : Faults → GroupCore × Except GroupError α) : Prop :=
  ∃ e, ∀ faults, call faults = (core, .error e)

/-- Every call of the family puts the same changed group in memory; what the
files answer decides only the result. -/
def Commits (P : Primitives) (core : GroupCore) (op : Op) (gid : B16)
    (call : Faults → GroupCore × Except GroupError α) : Prop :=
  ∃ s next result, core.groups.get? gid = some s ∧ Change P core op gid s next ∧
    ∀ faults, call faults = core.commit faults gid next result

variable {call : Faults → GroupCore × Except GroupError α}

theorem Commits.effect
    (commits : Commits P core op gid call) (faults : Faults) : Effect P core op (call faults).1 := by
  obtain ⟨s, next, result, found, change, same⟩ := commits
  rw [same faults]
  exact .changed found change (puts_commit core faults gid next result)

theorem Refuses.effect (refuses : Refuses core call) (faults : Faults) : Effect P core op (call faults).1 := by
  obtain ⟨e, same⟩ := refuses
  rw [same faults]
  exact .refl

section

variable (core : GroupCore) (gid : B16)

theorem add_cases {new : List (B32 × String × Bool)} :
    Refuses core (core.add P · gid new) ∨
      Commits P core (.add gid new) gid (core.add P · gid new) := by
  simp only [add]
  split
  · exact .inl ⟨_, fun _ => rfl⟩
  rename_i s live
  split
  · exact .inl ⟨_, fun _ => rfl⟩
  rename_i admin
  split
  · exact .inl ⟨_, fun _ => rfl⟩
  split
  · exact .inl ⟨_, fun _ => rfl⟩
  rename_i members listed
  split
  · exact .inl ⟨_, fun _ => rfl⟩
  rename_i chain pushed push
  exact .inr ⟨s, _, _, liveGroup_get? live,
    .added (liveGroup_joined live) (by simpa using admin) listed push, fun _ => rfl⟩

theorem remove_cases (who : B32) : Refuses core (core.remove P · gid who) ∨
      Commits P core (.remove gid who) gid (core.remove P · gid who) := by
  simp only [remove]
  split
  · exact .inl ⟨_, fun _ => rfl⟩
  rename_i s live
  split
  · exact .inl ⟨_, fun _ => rfl⟩
  rename_i admin
  split
  · exact .inl ⟨_, fun _ => rfl⟩
  rename_i notSelf
  split
  · exact .inl ⟨_, fun _ => rfl⟩
  rename_i member
  split
  · exact .inl ⟨_, fun _ => rfl⟩
  rename_i chain pushed push
  exact .inr ⟨s, _, _, liveGroup_get? live,
    .removed (liveGroup_joined live) (by simpa using admin) notSelf (by simpa using member) push,
    fun _ => rfl⟩

theorem leave_cases : Refuses core (core.leave P · gid) ∨
      Commits P core (.leave gid) gid (core.leave P · gid) ∨
      ∃ s next, core.groups.get? gid = some s ∧ Change P core (.leave gid) gid s next ∧
        ∀ faults, core.leave P faults gid = (((core.putGroup gid next).save faults next).1,
            ((core.putGroup gid next).save faults next).2.map (fun _ => [])) := by
  simp only [leave]
  split
  · exact .inl ⟨_, fun _ => rfl⟩
  rename_i s live
  split
  · rename_i alone
    refine .inr (.inr ⟨s, _, liveGroup_get? live, .leftAlone (liveGroup_joined live) alone, ?_⟩)
    intro faults
    have nobody := isEmpty_iff.mp alone
    split
    · rename_i written
      rw [written]
      rfl
    · rename_i written
      rw [written, nobody]
      rfl
  rename_i company
  split
  · exact .inl ⟨_, fun _ => rfl⟩
  split
  · exact .inl ⟨_, fun _ => rfl⟩
  rename_i chain pushed push
  exact .inr (.inl ⟨s, _, _, liveGroup_get? live,
    .left (liveGroup_joined live) (by simpa using company) push, fun _ => rfl⟩)

theorem leave_effect (faults : Faults) (gid : B16) :
    Effect P core (.leave gid) (core.leave P faults gid).1 := by
  rcases leave_cases (P := P) core gid with refuses | commits | ⟨s, next, found, change, same⟩
  · exact refuses.effect faults
  · exact commits.effect faults
  rw [same faults]
  exact .changed found change (puts_saved core faults gid next)

theorem acceptInvite_cases : Refuses core (core.acceptInvite · gid) ∨
      (∀ faults, core.acceptInvite faults gid = (core, .ok [])) ∨
      Commits P core (.acceptInvite gid) gid (core.acceptInvite · gid) := by
  simp only [acceptInvite]
  split
  · exact .inl ⟨_, fun _ => rfl⟩
  rename_i s found
  split
  · rename_i invitedBy pending
    exact .inr (.inr ⟨s, _, _, found, .accepted pending, fun _ => rfl⟩)
  · exact .inr (.inl fun _ => rfl)
  · exact .inl ⟨_, fun _ => rfl⟩

theorem acceptInvite_effect (faults : Faults) (gid : B16) :
    Effect P core (.acceptInvite gid) (core.acceptInvite faults gid).1 := by
  rcases acceptInvite_cases (P := P) core gid with refuses | idle | commits
  · exact refuses.effect faults
  · rw [idle faults]
    exact .refl
  · exact commits.effect faults

theorem create_effect (faults : Faults) (gid : B16) (name : String)
    (members : List (B32 × String)) (now : UInt64) :
    Effect P core (.create gid name members now) (core.create P faults gid name members now).1 := by
  simp only [create]
  split
  · exact .refl
  split
  · exact .refl
  split
  · exact .refl
  rename_i list listed
  split
  · exact .refl
  rename_i chain root
  split
  · exact .refl
  split
  · rename_i written
    exact .kept (keeps_save_error written)
  · rename_i written
    exact .began (.created listed rfl root) (puts_save_first written)

end

theorem save_frame (core : GroupCore) (faults : Faults) (s : GroupState) :
    (core.save faults s).1.groups = core.groups ∧ (core.save faults s).1.hist = core.hist ∧
      (core.save faults s).1.key = core.key ∧ (core.save faults s).1.own = core.own ∧
      ((core.save faults s).1.store.documents = core.store.documents ∨
        (core.save faults s).1.store.documents = core.store.documents.insert s.gid s.encode) := by
  rw [save_eq]
  split
  · exact ⟨rfl, rfl, rfl, rfl, .inl rfl⟩
  · exact ⟨rfl, rfl, rfl, rfl, .inr rfl⟩

theorem send_cases (core : GroupCore) (gid id : B16) (text : String) (now : UInt64) :
    Refuses core (core.send · gid id text now) ∨
      ∃ s queued, core.groups.get? gid = some s ∧ s.status = .joined ∧
        (s.queueMessage id text now (s.others core.own)).Quiet queued ∧
        ∀ faults, (core.send faults gid id text now).1.groups = core.groups.insert gid queued ∧
          Puts core gid queued (core.send faults gid id text now).1 := by
  simp only [send]
  split
  · exact .inl ⟨_, fun _ => rfl⟩
  split
  · exact .inl ⟨_, fun _ => rfl⟩
  split
  · exact .inl ⟨_, fun _ => rfl⟩
  rename_i s live
  split
  · exact .inl ⟨_, fun _ => rfl⟩
  generalize GroupMsg.mk 0 true core.own (s.myCounter + 1) id now now s.chain.latest.epoch text none = m
  refine .inr ⟨s, (numberMessage core.store (s.queueMessage id text now (s.others core.own)) m).1,
    liveGroup_get? live, liveGroup_joined live, quiet_numberMessage core.store _ _,
    fun faults => ?_⟩
  split
  · rename_i recorded
    rw [← (recordLocked_frame recorded).2]
    exact ⟨rfl, (puts_putGroup _ gid _).withStore (recordLocked_frame recorded).1⟩
  rename_i store queued recorded
  rw [← (recordLocked_frame recorded).2]
  have groups := (save_frame (putGroup { core with store := store } gid queued) faults queued).1
  have puts := (puts_saved { core with store := store } faults gid queued).withStore (recordLocked_frame recorded).1
  split
  all_goals
    rename_i written
    rw [← save_fst_of_eq written] at groups puts
    exact ⟨groups, puts⟩

theorem send_effect (core : GroupCore) (faults : Faults) (gid id : B16) (text : String)
    (now : UInt64) : Effect P core (.send gid id text now) (core.send faults gid id text now).1 := by
  rcases send_cases core gid id text now with refuses | ⟨s, queued, found, joined, quiet, ends⟩
  · exact refuses.effect faults
  · exact .changed found (.sent joined quiet) (ends faults).2

theorem settle_effect (core : GroupCore) (faults : Faults) (peer : B32) (delivered : Bool)
    (item : ∀ gid dest seq, work ≠ .hist gid dest seq) :
    Effect P core (.settle peer work delivered) (core.settle faults peer work delivered) := by
  unfold settle
  split
  · rename_i gid dest seq
    exact absurd rfl (item gid dest seq)
  split
  · exact .refl
  rename_i s found
  exact .changed found .settled (puts_saved core faults _ _)

/-! ### Received records -/

theorem takeMessage_effect (kind : op.isQuiet = true) (found : core.groups.get? gid = some s) (m : GroupMsg)
    (quiet : ∀ s : GroupState, s.Quiet (stamp s)) :
    Effect P core op (core.takeMessage faults gid s m stamp).1 := by
  unfold takeMessage
  split
  · rename_i recorded
    exact .kept ⟨rfl, (recordLocked_frame recorded).1, rfl, rfl, rfl⟩
  rename_i store numbered recorded
  have marked : numbered.Quiet (numbered.markCounter m.sender m.counter) := ⟨rfl, rfl, rfl, rfl, rfl⟩
  have taken : s.Quiet (stamp (numbered.markCounter m.sender m.counter)) :=
    ((quiet_recordLocked recorded).trans marked).trans (quiet _)
  have puts := (puts_saved { core with store := store } faults gid
    (stamp (numbered.markCounter m.sender m.counter))).withStore (recordLocked_frame recorded).1
  simp only
  split
  · rename_i written
    exact .changed found (.quiet kind taken) (save_fst_of_eq written ▸ puts)
  · rename_i written
    exact .changed found (.quiet kind taken) ((save_fst_of_eq written ▸ puts).pushEvent _ _ _)

variable {plain : Bytes}

section

variable (core : GroupCore) (faults : Faults) (peer : B32) (now : UInt64) (trusted : B32 → Bool)

theorem handleText_effect (read : Record.decode P plain = .ok (.text t)) :
    Effect P core (.handle peer plain now trusted) (core.handleText faults peer t now trusted).1 := by
  simp only [handleText]
  split
  · exact .refl
  rename_i s found
  split
  · exact .refl
  · exact .refl
  · exact .refl
  rename_i joined
  split
  · rename_i ahead
    have change : Change P core (.handle peer plain now trusted) t.gid s
        (s.owe peer .sync s.chain.epoch).1 := .asked read joined ahead
    split
    · rename_i owing owed
      rw [owed] at change
      exact .changed found change (puts_saved core faults t.gid owing)
    · rename_i owing owed
      rw [owed] at change
      exact .changed found change (puts_putGroup core t.gid owing)
  split
  · exact .refl
  split
  · exact .refl
  split
  · exact .refl
  split
  · exact .refl
  exact takeMessage_effect rfl found _ fun s => quiet_confirm s peer

theorem handleHistOffer_effect (o : HistOffer) (plain : Bytes) :
    Effect P core (.handle peer plain now trusted) (core.handleHistOffer faults peer o now).1 := by
  simp only [handleHistOffer]
  split
  · exact .refl
  rename_i s found
  split
  · exact .refl
  · exact .refl
  · exact .refl
  split
  · exact .refl
  split
  · exact .refl
  split
  · exact .refl
  split
  · exact .refl
  split
  · exact .refl
  exact takeMessage_effect rfl found _ fun s => .refl

theorem handleSync_effect (read : Record.decode P plain = .ok (.sync gid epoch)) :
    Effect P core (.handle peer plain now trusted) (core.handleSync faults peer gid).1 := by
  simp only [handleSync]
  split
  · exact .refl
  rename_i s found
  split
  · exact .refl
  rename_i known
  split
  · exact .refl
  have change : Change P core (.handle peer plain now trusted) gid s
      ((s.confirmMember peer).1.owe peer .descs 0).1 := .synced read (by simpa using known)
  split
  · split
    all_goals
      rename_i written
      exact .changed found change (save_fst_of_eq written ▸ puts_saved core faults gid _)
  · exact .changed found change (puts_putGroup core gid _)

theorem updateGroup_effect (read : Record.decode P plain = .ok (.descs ds)) (head : ds.head? = some first)
    (rising : ascending ds = true) (found : core.groups.get? first.gid = some s) :
    Effect P core (.handle peer plain now trusted) (core.updateGroup P faults peer first.gid s ds trusted).1 := by
  simp only [updateGroup]
  split
  · rename_i chain push
    exact .changed found (.unmoved read head push nofun .refl) (puts_putGroup core _ _)
  · rename_i chain e push
    exact .changed found (.unmoved read head push nofun .refl) (puts_putGroup core _ _)
  · rename_i chain push
    have change : Change P core (.handle peer plain now trusted) first.gid s
        (({ s with chain := chain } : GroupState).confirmMember peer).1 :=
      .unmoved read head push (by simp) (quiet_confirmMember _ peer)
    split
    · rename_i confirmed news
      rw [news] at change
      exact .changed found change (puts_saved core faults _ confirmed)
    · rename_i confirmed news
      rw [news] at change
      exact .changed found change (puts_putGroup core _ confirmed)
  · rename_i chain push
    have change : Change P core (.handle peer plain now trusted) first.gid s _ := .updated read head rising push
    split
    · rename_i written
      exact .changed found change (save_fst_of_eq written ▸ puts_saved core faults _ _)
    · rename_i written
      exact .changed found change ((save_fst_of_eq written ▸ puts_saved core faults _ _).pushEvent _ _ _)

theorem invite_effect (read : Record.decode P plain = .ok (.descs ds)) (head : ds.head? = some first)
    (unknown : core.groups.get? first.gid = none) (last : ds.getLast? = some latest)
    (oneGroup : ∀ d ∈ ds, d.gid = first.gid) (rising : ascending ds = true) :
    Effect P core (.handle peer plain now trusted) (core.invite P faults peer first.gid ds latest now trusted).1 := by
  simp only [invite]
  split
  · exact .refl
  split
  · exact .refl
  rename_i listed
  split
  · exact .refl
  split
  · exact .refl
  rename_i chain offered
  split
  · exact .refl
  rename_i newest
  simp only [Bool.not_eq_true', not_or, Bool.not_eq_false] at listed
  split
  · rename_i written
    exact .kept (keeps_save_error written)
  rename_i written
  exact .began (.invited read head unknown last oneGroup rising listed.1 offered
    (Decidable.not_not.mp newest)) ((puts_save_first written).pushEvent _ _ _)

theorem handle_effect (plain : Bytes) :
    Effect P core (.handle peer plain now trusted) (core.handle P faults peer plain now trusted).1 := by
  unfold handle
  split
  · exact .refl
  · exact .refl
  · rename_i t read
    exact handleText_effect core faults peer now trusted read
  · rename_i ds read
    unfold handleDescs
    split
    · rename_i first latest head last
      split
      · exact .refl
      rename_i shape
      simp only [Bool.or_eq_true, any_eq_true, bne_iff_ne, ne_eq, Bool.not_eq_true', not_or,
        not_exists, not_and, not_not, Bool.not_eq_false] at shape
      split
      · rename_i s found
        split
        · exact .refl
        · exact updateGroup_effect core faults peer now trusted read head shape.2 found
      · rename_i unknown
        exact invite_effect core faults peer now trusted read head unknown last shape.1 shape.2
    · exact .refl
  · exact handleHistOffer_effect core faults peer now trusted _ plain
  rename_i gid epoch read
  exact handleSync_effect core faults peer now trusted read

end

/-! ### The other operations -/

section

variable (core : GroupCore) (faults : Faults) (gid : B16)

theorem handover_effect (dest : B32) :
    ∃ mid, Effect P core (.handover gid dest) mid ∧ ((core.handover faults gid dest).1 = mid ∨ dest ≠ core.own ∧
        (∃ s, mid.groups.get? gid = some s ∧ s.chain.latest.isMember dest = true) ∧
        (core.handover faults gid dest).1 = { mid with
            hist := mid.hist.insert dest ((mid.hist.get? dest).getD [] ++
              numberJobs mid.histSeq (handoverOffers mid.store gid dest))
            histSeq := mid.histSeq + UInt64.ofNat (handoverOffers mid.store gid dest).length }) := by
  simp only [handover]
  split
  · exact ⟨core, .refl, .inl rfl⟩
  rename_i other
  split
  · exact ⟨core, .refl, .inl rfl⟩
  rename_i s live
  split
  · exact ⟨core, .refl, .inl rfl⟩
  rename_i member
  have marked := quiet_markHandover s dest s.chain.latest.epoch
  split
  · exact ⟨core, .refl, .inl rfl⟩
  rename_i round answer
  rw [answer] at marked
  have puts := puts_saved core faults gid round
  split
  · rename_i mid e written
    rw [← save_fst_of_eq written] at puts
    have undone : round.Quiet { round with
        handed := round.handed.filter (fun h => !(h.dest == dest && h.epoch == s.chain.latest.epoch)) } :=
      ⟨rfl, rfl, rfl, rfl, rfl⟩
    refine ⟨_, .changed (liveGroup_get? live) (.quiet rfl (marked.trans undone)) ?_, .inl rfl⟩
    refine ⟨fun other => ?_, .inl ?_, puts.hist, puts.key, puts.own⟩
    · simp only [putGroup, get?_insert, puts.groups]
      split <;> rfl
    · exact (keeps_save_error written).documents
  · rename_i mid written
    rw [← save_fst_of_eq written] at puts
    have effect : Effect P core (.handover gid dest) mid := .changed (liveGroup_get? live) (.quiet rfl marked) puts
    split
    · exact ⟨mid, effect, .inl rfl⟩
    have listed : round.chain.latest.isMember dest = true := by
      rw [marked.chain]
      simpa using member
    exact ⟨mid, effect, .inr ⟨other, ⟨round, by rw [puts.groups, if_pos rfl], listed⟩, rfl⟩⟩

theorem forget_groups (found : (core.forget faults gid).1.groups.get? other = some s) :
    core.groups.get? other = some s := by
  simp only [forget] at found
  split at found
  · exact found
  split at found
  · exact found
  split at found
  · exact found
  · exact get?_of_erase found

theorem forget_documents (found : (core.forget faults gid).1.store.documents.get? other = some bytes) :
    core.store.documents.get? other = some bytes := by
  have fewer : ∀ {store : GroupStore} {result : Except String Unit},
      core.store.deleteGroup faults gid = (store, result) →
      store.documents.get? other = some bytes → core.store.documents.get? other = some bytes := by
    intro store result deleted there
    rcases deleteGroup_documents deleted with same | erased
    · exact same ▸ there
    · exact get?_of_erase (erased ▸ there)
  simp only [forget] at found
  split at found
  · exact found
  split at found
  · exact found
  split at found
  all_goals
    rename_i deleted
    exact fewer deleted found

theorem forget_frame : (core.forget faults gid).1.hist = core.hist ∧ (core.forget faults gid).1.key = core.key ∧
      (core.forget faults gid).1.own = core.own := by
  simp only [forget]
  split
  · exact ⟨rfl, rfl, rfl⟩
  split
  · exact ⟨rfl, rfl, rfl⟩
  split
  all_goals exact ⟨rfl, rfl, rfl⟩

end

theorem quiet_rel_refl (group : Option GroupState) : Option.Rel Quiet group group := by
  cases group with
  | none => exact .none
  | some s => exact .some .refl

theorem quiet_rel_trans (left : Option.Rel Quiet first second) (right : Option.Rel Quiet second third) :
    Option.Rel Quiet first third := by
  cases left with
  | none => exact right
  | some quiet =>
    cases right with
    | some more => exact .some (quiet.trans more)

section

variable (core : GroupCore) (faults : Faults)

theorem sweepRetention_groups (cutoff : UInt64) (gid : B16) :
    Option.Rel Quiet (core.groups.get? gid) ((core.sweepRetention faults cutoff).groups.get? gid) := by
  unfold sweepRetention
  generalize core.groups.keys = gids
  induction gids generalizing core with
  | nil => exact quiet_rel_refl _
  | cons first rest ih =>
    have swept : Option.Rel Quiet (core.groups.get? gid) ((sweepGroup faults cutoff core first).groups.get? gid) := by
      simp only [sweepGroup]
      split
      · exact quiet_rel_refl _
      split
      · exact quiet_rel_refl _
      rename_i s there
      simp only [putGroup, get?_insert]
      split
      · rename_i same
        rw [same, there]
        exact .some ⟨rfl, rfl, rfl, rfl, rfl⟩
      · exact quiet_rel_refl _
    exact quiet_rel_trans swept (ih (sweepGroup faults cutoff core first))

theorem sweepRetention_origin (found : (core.sweepRetention faults cutoff).groups.get? gid = some next) :
    ∃ s, core.groups.get? gid = some s ∧ s.Quiet next := by
  have swept := sweepRetention_groups core faults cutoff gid
  rw [found] at swept
  generalize before : core.groups.get? gid = group at swept
  cases swept with
  | some quiet => exact ⟨_, rfl, quiet⟩

theorem sweepRetention_found (found : core.groups.get? gid = some s) :
    ∃ next, (core.sweepRetention faults cutoff).groups.get? gid = some next ∧ s.Quiet next := by
  have swept := sweepRetention_groups core faults cutoff gid
  rw [found] at swept
  generalize (core.sweepRetention faults cutoff).groups.get? gid = group at swept
  cases swept with
  | some quiet => exact ⟨_, rfl, quiet⟩

theorem sweepRetention_frame (cutoff : UInt64) :
    (core.sweepRetention faults cutoff).store.documents = core.store.documents ∧
      (core.sweepRetention faults cutoff).hist = core.hist ∧
      (core.sweepRetention faults cutoff).key = core.key ∧
      (core.sweepRetention faults cutoff).own = core.own := by
  unfold sweepRetention
  generalize core.groups.keys = gids
  induction gids generalizing core with
  | nil => exact ⟨rfl, rfl, rfl, rfl⟩
  | cons first rest ih =>
    rw [foldl_cons]
    obtain ⟨documents, hist, key, own⟩ := ih (sweepGroup faults cutoff core first)
    rw [documents, hist, key, own]
    simp only [sweepGroup]
    split
    · rename_i retained
      exact ⟨GroupStore.retain_documents retained, rfl, rfl, rfl⟩
    rename_i retained
    have same := GroupStore.retain_documents retained
    split
    all_goals exact ⟨same, rfl, rfl, rfl⟩

theorem flushAll_frame : (core.flushAll faults).groups = core.groups ∧ (core.flushAll faults).hist = core.hist ∧
      (core.flushAll faults).key = core.key ∧ (core.flushAll faults).own = core.own := by
  unfold flushAll
  generalize core.groups.values = states
  induction states generalizing core with
  | nil => exact ⟨rfl, rfl, rfl, rfl⟩
  | cons s rest ih =>
    obtain ⟨groups, hist, key, own, -⟩ := save_frame core faults s
    obtain ⟨groupsRest, histRest, keyRest, ownRest⟩ := ih (core.save faults s).1
    exact ⟨groupsRest.trans groups, histRest.trans hist, keyRest.trans key, ownRest.trans own⟩

theorem flushAll_documents (found : (core.flushAll faults).store.documents.get? gid = some bytes) :
    core.store.documents.get? gid = some bytes ∨ ∃ s ∈ core.groups.values, s.gid = gid ∧ bytes = s.encode := by
  unfold flushAll at found
  generalize core.groups.values = states at found
  induction states generalizing core with
  | nil => exact .inl found
  | cons s rest ih =>
    rcases ih (core.save faults s).1 found with old | ⟨other, member, same⟩
    · obtain ⟨-, -, -, -, same | written⟩ := save_frame core faults s
      · exact .inl (same ▸ old)
      rw [written] at old
      rcases get?_insert_cases old with ⟨rfl, rfl⟩ | ⟨-, old⟩
      · exact .inr ⟨s, mem_cons_self, rfl, rfl⟩
      · exact .inl old
    · exact .inr ⟨other, mem_cons_of_mem s member, same⟩

end

/-! ## One step -/

/-- The operations whose effect is on at most one group. -/
def Op.isPlain : Op → Bool
  | .settle _ (.hist _ _ _) _ => false
  | .forget _ | .handover _ _ | .sweepRetention _ | .flushAll | .restart _ => false
  | _ => true

section

variable (core : GroupCore) (faults : Faults)

theorem step_effect (plain : op.isPlain = true) : Effect P core op (core.step P faults op) := by
  cases op with
  | create gid name members now => exact create_effect core faults gid name members now
  | add gid new => exact (add_cases core gid).elim (·.effect faults) (·.effect faults)
  | remove gid who => exact (remove_cases core gid who).elim (·.effect faults) (·.effect faults)
  | leave gid => exact leave_effect core faults gid
  | acceptInvite gid => exact acceptInvite_effect core faults gid
  | send gid id text now => exact send_effect core faults gid id text now
  | handle peer record now trusted => exact handle_effect core faults peer now trusted record
  | setAutoJoin => exact .kept ⟨rfl, rfl, rfl, rfl, rfl⟩
  | settle peer work delivered =>
    cases work with
    | hist => contradiction
    | text | descs | sync => exact settle_effect core faults peer delivered (by simp)
  | forget | handover | sweepRetention | flushAll | restart => contradiction

theorem settle_hist (peer dest : B32) (gid : B16) (seq : UInt64) (delivered : Bool) :
    ∃ hist, core.settle faults peer (.hist gid dest seq) delivered = { core with hist := hist } ∧
      ∀ other job, job ∈ (hist.get? other).getD [] → job ∈ (core.hist.get? other).getD [] := by
  simp only [settle]
  split
  · exact ⟨core.hist, rfl, fun _ _ member => member⟩
  rename_i queue found
  refine ⟨_, rfl, fun other job member => ?_⟩
  by_cases here : other = dest
  · subst here
    rw [found]
    split at member
    · simp [get?_erase] at member
    simp only [get?_insert_self, Option.getD_some] at member
    exact mem_of_mem_filter member
  · split at member
    · simpa [get?_erase, here] using member
    · simpa [get?_insert, here] using member

end

end GroupCore

end Miasma.Chat.Group
