import Miasma.Chat.Group.Told

namespace Miasma.Chat.Group

open Data GroupState GroupCore List

/-! # Our standing in a group

The status follows the newest descriptor only when descriptors are received. -/

variable {P : Primitives}

def Status.isLive : Status → Bool
  | .joined => true
  | .pending _ => true
  | .left => false
  | .removed => false

/-- A group that we are in, or are asked to join, lists us. -/
def GroupState.Listed (own : B32) (s : GroupState) : Prop :=
  s.status.isLive = true → s.chain.latest.isMember own = true

/-! ## Descriptors that add us again -/

section Readding

variable {ds rest : List Descriptor} {d : Descriptor} {chain : Chain} {own : B32}

theorem ascending_pairwise (rising : ascending ds = true) :
    ds.Pairwise (·.epoch < ·.epoch) := by
  have chained : ds.IsChain (·.epoch < ·.epoch) := by
    induction ds with
    | nil => exact .nil
    | cons first rest ih =>
      cases rest with
      | nil => exact .singleton first
      | cons second rest =>
        simp only [ascending, Bool.and_eq_true, decide_eq_true_eq] at rising
        exact .cons_cons rising.1 (ih rising.2)
  exact isChain_iff_pairwise.mp chained

theorem eq_last_of_epoch (rising : ascending ds = true) (last : ds.getLast? = some latest) (member : d ∈ ds)
    (epoch : d.epoch = latest.epoch) : d = latest := by
  obtain ⟨before, rfl⟩ := getLast?_eq_some_iff.mp last
  rcases mem_append.mp member with early | here
  · have below := (pairwise_append.mp (ascending_pairwise rising)).2.2 d early latest mem_cons_self
    exact absurd epoch (UInt32.ne_of_lt below)
  · exact mem_singleton.mp here

/-- `d` lists `own` and the descriptor before it does not. -/
structure Readds (P : Primitives) (own : B32) (before d : Descriptor) : Prop where
  step : Descriptor.Extends P before d
  out : before.isMember own = false
  listed : d.isMember own = true

/-- A chain that does not list us comes to list us only through a descriptor that
adds us again, unless a competing newest descriptor lists us. -/
theorem readds_of_pushEach (rising : ds.Pairwise (·.epoch < ·.epoch))
    (out : chain.latest.isMember own = false)
    (rivals : ∀ d ∈ ds, d.epoch = chain.latest.epoch → d.isMember own = false)
    (back : (chain.pushEach P ds).1.latest.isMember own = true) :
    ∃ before ∈ chain.latest :: ds, ∃ d ∈ ds, d.gid = chain.gid ∧ Readds P own before d := by
  induction ds generalizing chain with
  | nil => exact Bool.noConfusion (out.symm.trans back)
  | cons d rest ih =>
    obtain ⟨above, rising⟩ := pairwise_cons.mp rising
    obtain ⟨first, later⟩ := forall_mem_cons.mp rivals
    simp only [Chain.pushEach] at back
    split at back
    · rename_i next result pushed
      -- After `d` is taken, what follows has later epochs and cannot compete.
      have taken : next.latest = d → d.isMember own = false →
          ∃ before ∈ chain.latest :: d :: rest, ∃ e ∈ d :: rest, e.gid = chain.gid ∧ Readds P own before e := by
        intro newest outside
        obtain ⟨before, inside, e, member, readds⟩ := ih rising (newest ▸ outside)
          (fun e member same => absurd (newest ▸ same.symm) (UInt32.ne_of_lt (above e member))) back
        rw [newest] at inside
        rw [Chain.gid_push pushed] at readds
        exact ⟨before, mem_cons_of_mem _ inside, e, mem_cons_of_mem _ member, readds⟩
      rcases Chain.push_ok_cases pushed with ⟨-, rfl, -⟩ | ⟨-, rfl, epoch, -⟩ | ⟨-, rfl, epoch, accepted⟩
      · obtain ⟨before, inside, e, member, readds⟩ := ih rising out later back
        refine ⟨before, ?_, e, mem_cons_of_mem _ member, readds⟩
        rcases mem_cons.mp inside with here | there
        · exact here ▸ mem_cons_self
        · exact mem_cons_of_mem _ (mem_cons_of_mem _ there)
      · exact taken (Chain.latest_replaceLatest chain d) (first epoch)
      cases listed : d.isMember own with
      | false => exact taken (Chain.latest_append chain d) listed
      | true =>
        have step := Descriptor.Extends.of_accepted accepted epoch
        exact ⟨chain.latest, mem_cons_self, d, mem_cons_self, step.gid, step, out, listed⟩
    · exact Bool.noConfusion (out.symm.trans back)

end Readding

namespace GroupState

variable {s next : GroupState} {own : B32}

/-! ## The operations on one group -/

theorem Listed.keep (listed : s.Listed own) (status : next.status = s.status)
    (kept : s.chain.latest.isMember own = true → next.chain.latest.isMember own = true) :
    next.Listed own := fun live => kept (listed (status ▸ live))

theorem Listed.same (listed : s.Listed own) (status : next.status = s.status)
    (chain : next.chain = s.chain) : next.Listed own := listed.keep status (chain ▸ id)

theorem listed_of_member (member : s.chain.latest.isMember own = true) : s.Listed own := fun _ => member

@[simp] theorem status_queueMessage {s : GroupState} {id : B16} :
    (s.queueMessage id text now recipients).status = s.status := by
  simp only [queueMessage]
  split <;> rfl

@[simp] theorem status_settleState : (settleState s peer work delivered).status = s.status := by
  cases work with
  | descs | sync | hist => rfl
  | text =>
    simp only [settleState, changeLedger]
    split
    · exact (quiet_confirm _ peer).status
    · rfl

theorem listed_standing {trusted autoJoin : Bool} : (standing s own peer trusted autoJoin).1.Listed own := by
  intro live
  rw [chain_standing]
  by_contra out
  rw [Bool.not_eq_true] at out
  simp only [standing, out] at live
  cases status : s.status <;> simp [status, Status.isLive] at live

end GroupState

namespace GroupCore

variable {core after : GroupCore} {op : Op} {gid : B16} {s next : GroupState} {faults : Faults}

theorem createList_grows {own : B32} {new : List (B32 × String)}
    (listed : createList own list new = .ok members) : ∀ m ∈ list, m ∈ members := by
  induction new generalizing list with
  | nil =>
    cases listed
    exact fun m member => member
  | cons entry rest ih =>
    simp only [createList] at listed
    split at listed
    · contradiction
    · exact fun m member => ih listed m (mem_append_left _ member)

/-- No received descriptor of a held group has the hash of its newest one without
being it. -/
@[reducible] def SingleHash (P : Primitives) (core : GroupCore) (op : Op) : Prop :=
  ∀ ds ∈ Op.descs? P op, ∀ first ∈ ds.head?, ∀ s ∈ core.groups.get? first.gid,
    ∀ d ∈ ds, d.hash P = s.chain.latest.hash P → d = s.chain.latest

theorem Change.listed (change : Change P core op gid s next) (found : core.groups.get? gid = some s)
    (single : SingleHash P core op) (listed : s.Listed core.own) : next.Listed core.own := by
  cases change with
  | quiet kind quiet => exact listed.same quiet.status quiet.chain
  | added joined admin grown push =>
    refine listed.keep (status_oweEach _ _ _ _) fun member => ?_
    rw [chain_oweEach]
    exact isMember_added grown push member
  | removed joined admin notSelf member push =>
    refine listed.keep ?_ fun member => ?_
    · rw [status_oweEach, status_prune]
    rw [chain_oweEach, chain_prune]
    exact isMember_without push member (Ne.symm notSelf)
  | leftAlone => exact fun live => by contradiction
  | left =>
    intro live
    rw [status_oweEach] at live
    contradiction
  | accepted pending =>
    refine listed_of_member ?_
    rw [chain_becomeMember]
    exact listed (by rw [pending]; rfl)
  | sent joined quiet =>
    exact listed.same (quiet.status.trans status_queueMessage)
      (quiet.chain.trans (chain_queueMessage _))
  | settled => exact listed.same status_settleState (chain_settleState _)
  | asked =>
    exact listed.same (status_owe _ _ _ _) (chain_owe _ _ _ _)
  | synced =>
    have quiet := quiet_confirmMember s
    exact listed.same ((status_owe _ _ _ _).trans (quiet _).status) ((chain_owe _ _ _ _).trans (quiet _).chain)
  | unmoved read head push nothing quiet =>
    refine listed.keep quiet.status fun member => ?_
    rw [quiet.chain, Chain.latest_unmoved push nothing (single _ (Op.mem_descs? read) _ head s found)]
    exact member
  | updated =>
    intro live
    rw [status_prune] at live
    rw [chain_prune]
    exact listed_standing live

theorem Begins.listed (begins : Begins P core op gid next) : next.Listed core.own := by
  refine listed_of_member ?_
  cases begins with
  | @created gid name members now list d chain listed made root =>
    have items := (Chain.fromRoot_ok_iff.mp root).2
    have newest : chain.latest = d := by simp [Chain.latest, items]
    rw [chain_createdGroup, newest, made, Descriptor.isMember_iff]
    exact mem_map.mpr ⟨_, createList_grows listed _ mem_cons_self, rfl⟩
  | @invited peer plain now trusted ds chain first latest read head unknown last oneGroup rising lists offered newest =>
    rw [chain_invitedGroup, eq_last_of_epoch rising last (inviteChain_latest offered) newest]
    exact lists

/-! ## Coming back -/

def live (core : GroupCore) (gid : B16) : Bool := (core.groups.get? gid).any (·.status.isLive)

/-- The operation brings a descriptor of the held group `gid` that lists us, and
the one before it does not. -/
def Readded (P : Primitives) (core : GroupCore) (op : Op) (gid : B16) : Prop :=
  ∃ ds ∈ Op.descs? P op, ∃ s, core.groups.get? gid = some s ∧
    ∃ before ∈ s.chain.latest :: ds, ∃ d ∈ ds, d.gid = gid ∧ Readds P core.own before d

/-- Descriptors of a group that we left come while the group is held and its newest
descriptor does not list us, nor does one of them with the same epoch; no group is
created under its ID. -/
@[reducible] def Apart (P : Primitives) (core : GroupCore) (op : Op) (gid : B16) : Prop :=
  (∀ created ∈ Op.created? op, created ≠ gid) ∧
  ∀ ds ∈ Op.descs? P op, ∀ first ∈ ds.head?, first.gid = gid →
    ∃ s ∈ core.groups.get? gid, s.chain.latest.isMember core.own = false ∧
      ∀ d ∈ ds, d.epoch = s.chain.latest.epoch → d.isMember core.own = false

theorem Change.away (change : Change P core op gid s next) (found : core.groups.get? gid = some s)
    (keyed : s.gid = gid) (apart : Apart P core op gid) (away : s.status.isLive = false)
    (back : next.status.isLive = true) :
    Readded P core op gid := by
  have still : ∀ {mid : GroupState}, mid.status = s.status → mid.status.isLive = true → Readded P core op gid :=
    fun same live => by
      rw [same, away] at live
      contradiction
  have joined : s.status = .joined → Readded P core op gid := fun joined => by
    rw [joined] at away
    contradiction
  cases change with
  | quiet kind quiet => exact still quiet.status back
  | added isJoined | removed isJoined | leftAlone isJoined | left isJoined | sent isJoined | asked _ isJoined =>
    exact joined isJoined
  | accepted pending =>
    rw [pending] at away
    contradiction
  | settled => exact still status_settleState back
  | synced =>
    exact still ((status_owe _ _ _ _).trans (quiet_confirmMember s _).status) back
  | unmoved read head push nothing quiet => exact still quiet.status back
  | @updated peer plain now trusted s ds chain first read head rising push =>
    rw [status_prune] at back
    have listed := listed_standing back
    rw [chain_standing, (quiet_confirmMember _ _).chain] at listed
    obtain ⟨held, there, out, rivals⟩ := apart.2 ds (Op.mem_descs? read) first head rfl
    have same : held = s := Option.some.inj (there.symm.trans found)
    subst same
    have pushed : chain = (held.chain.pushEach P ds).1 := by rw [← Chain.pushAll_chain, push]
    rw [pushed] at listed
    obtain ⟨before, inside, d, member, place, readds⟩ :=
      readds_of_pushEach (ascending_pairwise rising) out rivals listed
    exact ⟨ds, Op.mem_descs? read, held, found, before, inside, d, member, place.trans keyed, readds⟩

/-- The group is not one we are in, neither in memory nor on disk. -/
@[reducible] def Away (P : Primitives) (core : GroupCore) (gid : B16) : Prop :=
  Tracked P (·.status.isLive = false) core gid

theorem live_eq_false (away : Away P core gid) : core.live gid = false := by
  unfold live
  cases found : core.groups.get? gid with
  | none => rfl
  | some s => exact away.memory s found

theorem Away.step (away : Away P core gid) (grounded : Grounded P core)
    (out : (core.step P faults op).live gid = false) : Away P (core.step P faults op) gid := by
  have gone : ∀ next, (core.step P faults op).groups.get? gid = some next → next.status.isLive = false := by
    intro next there
    simpa only [live, there, Option.any_some] using out
  exact away.moves grounded (fun _ _ _ there => gone _ there) (fun _ there => gone _ there)
    (grounded.sound.step faults op) (step_moves core faults op)

theorem Away.readded (away : Away P core gid) (grounded : Grounded P core) (apart : Apart P core op gid)
    (back : (core.step P faults op).live gid = true) : Readded P core op gid := by
  by_contra not
  have away : Away P (core.step P faults op) gid := by
    refine away.moves grounded ?_ ?_ (grounded.sound.step faults op) (step_moves core faults op)
    · intro s next found out change _
      cases live : next.status.isLive with
      | false => rfl
      | true => exact absurd (change.away found (grounded.keyed _ _ found) apart out live) not
    intro next begins _
    exfalso
    cases begins with
    | created => exact apart.1 _ rfl rfl
    | invited read head unknown =>
      obtain ⟨s, there, -⟩ := apart.2 _ (Op.mem_descs? read) _ head rfl
      rw [unknown] at there
      contradiction
  rw [live_eq_false away] at back
  contradiction

/-! ### Leaving -/

theorem Change.left_away (change : Change P core (.leave gid) gid s next) : next.status.isLive = false := by
  cases change with
  | quiet => contradiction
  | leftAlone => rfl
  | left =>
    rw [status_oweEach]
    rfl

theorem away_leave (grounded : Grounded P core) (done : (core.leave P faults gid).2 = .ok told) :
    Away P (core.step P faults (.leave gid)) gid := by
  have sound := grounded.sound.step faults (.leave gid)
  have written : ∀ {after : GroupCore} {s next : GroupState}, core.groups.get? gid = some s →
      Change P core (.leave gid) gid s next → Sound P after → Puts core gid next after →
      after.store.documents = core.store.documents.insert next.gid next.encode → Away P after gid := by
    intro after s next found change sound puts documents
    have there : after.groups.get? gid = some next := by rw [puts.groups, if_pos rfl]
    have keyed : next.gid = gid := change.gid_eq.trans (grounded.keyed _ _ found)
    refine ⟨fun held inside => ?_, fun bytes inside => ?_⟩
    · rw [there] at inside
      cases inside
      exact change.left_away
    · rw [documents, keyed, SortedMap.get?_insert_self] at inside
      cases inside
      exact ⟨next, sound.groups gid next there, change.left_away, rfl⟩
  simp only [step] at sound ⊢
  rcases leave_cases (P := P) core gid with ⟨e, refused⟩ | ⟨s, next, result, found, change, committed⟩ |
      ⟨s, next, found, change, saved⟩
  · have same : core.leave P faults gid = (core, .error e) := refused faults
    rw [same] at done
    contradiction
  · have same : core.leave P faults gid = core.commit faults gid next result := committed faults
    rw [same] at done sound ⊢
    exact written found change sound (puts_commit core faults gid next result) (commit_ok done)
  rw [saved faults] at done sound ⊢
  refine written found change sound (puts_saved core faults gid next) (save_ok ?_)
  cases wrote : ((core.putGroup gid next).save faults next).2 with
  | ok => rfl
  | error =>
    rw [wrote] at done
    contradiction

end GroupCore

namespace Parting

open GroupCore

/-! ## Runs -/

/-- A group that we had left is one we are in again after `op` in `core`. -/
structure Return where
  core : GroupCore
  op : Op
  gid : B16

/-- A device with the groups that it left and the ways in which it came back. -/
structure World where
  core : GroupCore
  left : List B16
  returns : List Return

def leaves (P : Primitives) (core : GroupCore) (faults : Faults) : Op → List B16
  | .leave gid =>
    match (core.leave P faults gid).2 with
    | .ok _ => [gid]
    | .error _ => []
  | _ => []

def World.step (P : Primitives) (w : World) (event : Faults × Op) : Option World :=
  let core := w.core.step P event.1 event.2
  some
    { core := core
      left := (w.left ++ leaves P w.core event.1 event.2).filter (!core.live ·)
      returns := w.returns ++ (w.left.filter core.live).map (fun gid => ⟨w.core, event.2, gid⟩) }

/-- Every group that we are in, or are asked to join, lists us, and we came back to
a group that we left only when somebody added us again. -/
structure World.Follows (P : Primitives) (w : World) : Prop where
  listed : ∀ gid s, w.core.groups.get? gid = some s → s.Listed w.core.own
  returned : ∀ r ∈ w.returns, Readded P r.core r.op r.gid

@[reducible] def Unrivalled (P : Primitives) (w : World) (event : Faults × Op) : Prop :=
  SingleHash P w.core event.2 ∧ ∀ gid ∈ w.left, Apart P w.core event.2 gid

structure World.Inv (P : Primitives) (w : World) : Prop where
  held : Held P (Listed (P.verifyingKey w.core.key)) w.core
  away : ∀ gid ∈ w.left, Away P w.core gid
  returned : ∀ r ∈ w.returns, Readded P r.core r.op r.gid

theorem away_leaves {gid : B16} (grounded : Grounded P core) (member : gid ∈ leaves P core faults op) :
    Away P (core.step P faults op) gid := by
  cases op with
  | leave =>
    simp only [leaves] at member
    split at member
    · rename_i done
      rw [mem_singleton.mp member]
      exact away_leave grounded done
    · contradiction
  | _ => contradiction

theorem World.Inv.step {next : World} (inv : w.Inv P) (unrivalled : Unrivalled P w event)
    (stepped : w.step P event = some next) : next.Inv P := by
  cases stepped
  have grounded := inv.held.toGrounded
  refine ⟨?_, fun gid member => ?_, fun r member => ?_⟩
  · rw [step_key]
    refine inv.held.step event.1 event.2 ?_ ?_
    · rw [← inv.held.own]
      exact fun found listed change => change.listed found unrivalled.1 listed
    · rw [← inv.held.own]
      exact fun begins => begins.listed
  · obtain ⟨inside, out⟩ := mem_filter.mp member
    rcases mem_append.mp inside with before | now
    · exact (inv.away gid before).step grounded (by simpa using out)
    · exact away_leaves grounded now
  · rcases mem_append.mp member with old | new
    · exact inv.returned r old
    obtain ⟨gid, back, rfl⟩ := mem_map.mp new
    obtain ⟨before, live⟩ := mem_filter.mp back
    exact (inv.away gid before).readded grounded (unrivalled.2 gid before) live

end Parting

open Parting in
/-- In every run in which no competing descriptor of the epoch of a leave lists us,
our standing follows the member list. -/
theorem standing_follows_of_unrivalled (P : Primitives) (key : B32) (maxMessageBytes : Nat)
    (settings : StoreSettings) (events : List (Faults × Op)) (last : World)
    (unrivalled : Along (World.step P) (Unrivalled P) ⟨fresh P key maxMessageBytes settings, [], []⟩ events)
    (ran : run (World.step P) ⟨fresh P key maxMessageBytes settings, [], []⟩ events = some last) :
    last.Follows P := by
  have start : World.Inv P ⟨fresh P key maxMessageBytes settings, [], []⟩ :=
    ⟨held_fresh key maxMessageBytes settings, by simp, by simp⟩
  have inv := invariant_of_run World.Inv.step start unrivalled ran
  refine ⟨fun gid s found => ?_, inv.returned⟩
  rw [inv.held.own]
  exact inv.held.groups gid s found

namespace Sample

open Parting

/-- A group with a second admin, which this device leaves. -/
def partingOps : List (Faults × Op) :=
  [({}, .create gid "team" [(guest, "")] 1000), ({}, .add gid [(other, "", true)]), ({}, .leave gid)]

def newest (ops : List (Faults × Op)) : Descriptor :=
  ((core.run .checksum ops).groups.get? gid).elim root (·.chain.latest)

/-- The newest descriptors before and after the leave. -/
def together : Descriptor := newest (partingOps.take 2)

def parting : Descriptor := newest partingOps

/-- What the other admin signs without having heard of the leave. -/
def rival : Descriptor := change together "team" together.members other

/-- The other admin adds this device again. -/
def welcome : Descriptor := change parting "team" together.members other

def partingWorld : World := ⟨core, [], []⟩

def letterOf (d : Descriptor) : Faults × Op :=
  ({}, .handle other ((encodeDescs [d]).toOption.getD []) 1001 (fun _ => true))

/-- The leave, then a descriptor from the other admin. -/
def hears (d : Descriptor) : List (Faults × Op) := partingOps ++ [letterOf d]

end Sample

open Group.Sample

theorem standing_follows_welcome :
    ∃ last, run (Parting.World.step .checksum) partingWorld (hears welcome) =
        some last ∧
      last.returns.length = 1 ∧ last.Follows .checksum := by
  have unrivalled : Along (Parting.World.step .checksum) (Parting.Unrivalled .checksum)
      partingWorld (hears welcome) := by
    decide +kernel
  have shown : (run (Parting.World.step .checksum) partingWorld
      (hears welcome)).any (·.returns.length = 1) = true := by
    decide +kernel
  obtain ⟨last, ran, once⟩ := exists_of_any shown
  exact ⟨last, ran, once, standing_follows_of_unrivalled _ _ _ _ _ last unrivalled ran⟩

/-- The competing descriptor undoes the leave. -/
theorem rival_undoes_leave :
    ∃ last, run (Parting.World.step .checksum) partingWorld (hears rival) = some last ∧
      ¬ last.Follows .checksum := by
  have shown : (run (Parting.World.step .checksum) partingWorld
      (hears rival)).any (fun last => last.returns.any (fun r =>
        (Op.descs? .checksum r.op) = some [rival] ∧
        (r.core.groups.get? r.gid).all (·.chain.latest.hash .checksum ≠ rival.prevHash))) =
        true := by
    decide +kernel
  obtain ⟨last, ran, facts⟩ := (Option.any_eq_true _ _).mp shown
  refine ⟨last, ran, fun follows => ?_⟩
  obtain ⟨r, member, facts⟩ := any_eq_true.mp facts
  obtain ⟨brought, unlinked⟩ := of_decide_eq_true facts
  obtain ⟨ds, inside, s, found, before, candidates, d, there, -, readds⟩ := follows.returned r member
  have same : ds = [rival] := Option.some.inj (inside.symm.trans brought)
  subst same
  rw [mem_singleton.mp there] at readds
  rw [found, Option.all_some, decide_eq_true_eq] at unlinked
  rcases mem_cons.mp candidates with here | again
  · exact unlinked (here ▸ readds.step.prevHash.symm)
  rw [mem_singleton.mp again] at readds
  have epochs := readds.step.epoch
  omega

end Miasma.Chat.Group
