import Miasma.Chat.Group.Held

namespace Miasma.Chat.Group

open Data Group.Sample GroupCore

/-! # What a failed call leaves behind

`create` writes before it changes anything in memory; the other calls change memory first. -/

namespace GroupCore

inductive Call where
  | create (gid : B16) (name : String) (members : List (B32 × String)) (now : UInt64)
  | add (gid : B16) (new : List (B32 × String × Bool))
  | remove (gid : B16) (who : B32)
  | leave (gid : B16)
  | acceptInvite (gid : B16)
  | send (gid id : B16) (text : String) (now : UInt64)

/-- The engine after a call, and the error the caller is told. -/
def answer : GroupCore × Except GroupError α → GroupCore × Option GroupError
  | (core, .error e) => (core, some e)
  | (core, .ok _) => (core, none)

def call (P : Primitives) (core : GroupCore) (faults : Faults) : Call → GroupCore × Option GroupError
  | .create gid name members now => answer (core.create P faults gid name members now)
  | .add gid new => answer (core.add P faults gid new)
  | .remove gid who => answer (core.remove P faults gid who)
  | .leave gid => answer (core.leave P faults gid)
  | .acceptInvite gid => answer (core.acceptInvite faults gid)
  | .send gid id text now => answer (core.send faults gid id text now)

@[simp] theorem answer_fst : (answer result).1 = result.1 := by
  obtain ⟨core, _ | _⟩ := result <;> rfl

theorem answer_eq_some : (answer result).2 = some e ↔ result.2 = .error e := by
  obtain ⟨core, _ | _⟩ := result <;> simp [answer]

/-- A check refuses the call, or the call has nothing to change: at the last epoch
the chain stays as it is, and what a change would owe may be owed already. -/
def Refused (P : Primitives) (core : GroupCore) : Call → Prop
  | .create _ _ _ _ => True
  | .add gid new => ∀ s ∈ (core.liveGroup gid).toOption, s.chain.latest.isAdmin core.own →
      s.chain.latest.members.length + new.length ≤ maxMembers →
      ∀ members ∈ (addList s.chain.latest.members new).toOption,
      ∀ _ ∈ (s.chain.push P (nextDescriptor P s.chain.latest members core.key)).toOption,
      s.chain.latest.epoch = 0xffffffff ∧ s.oweEach (s.others core.own) .descs 0 = s
  | .remove gid who => ∀ s ∈ (core.liveGroup gid).toOption, s.chain.latest.isAdmin core.own → who ≠ core.own →
      s.chain.latest.isMember who → ∀ _ ∈ (s.chain.push P (nextDescriptor P s.chain.latest
        (s.chain.latest.members.filter fun m => m.id != who) core.key)).toOption,
      s.chain.latest.epoch = 0xffffffff ∧ s.prune.oweEach (s.others core.own ++ [who]) .descs 0 = s
  | .leave gid => ∀ s ∈ (core.liveGroup gid).toOption,
      let members := s.chain.latest.members.filter fun m => m.id != core.own
      members ≠ [] ∧ (s.chain.latest.isAdmin core.own ∧ ¬ members.any (·.role == .admin) ∨
        (s.chain.push P (nextDescriptor P s.chain.latest members core.key)).toOption = none)
  | .acceptInvite gid => ∀ s ∈ core.groups.get? gid, s.status.isPending = false
  | .send gid _ text _ => text.isEmpty ∨ core.maxText < text.utf8ByteSize ∨
      ∀ s ∈ (core.liveGroup gid).toOption, maxPending ≤ s.pending.length

end GroupCore

namespace Chain

variable {P : Primitives} {chain next : Chain} {key : B32}

/-- A change signed on top of the newest descriptor is taken for a known one only
where the epoch has no successor. -/
theorem push_next (below : chain.latest.epoch ≠ 0xffffffff)
    (push : chain.push P (nextDescriptor P chain.latest members key) = .ok (next, pushed)) :
    next.latest = nextDescriptor P chain.latest members key ∧ Descriptor.Extends P chain.latest next.latest := by
  have epoch : (nextDescriptor P chain.latest members key).epoch.toNat = chain.latest.epoch.toNat + 1 := by
    have room : chain.latest.epoch.toNat ≠ 0xffffffff := fun full => below (UInt32.toNat_inj.mp full)
    have bound := chain.latest.epoch.toNat_lt
    exact Nat.mod_eq_of_lt (by simp; omega)
  rcases push_ok_cases push with ⟨-, -, old⟩ | ⟨-, -, same, -⟩ | ⟨-, rfl, -, accepted⟩
  · have := UInt32.le_iff_toNat_le.mp old
    omega
  · rw [same] at epoch
    omega
  · rw [latest_append]
    exact ⟨rfl, .of_accepted accepted epoch⟩

/-- At the last epoch the next one wraps to zero, which the chain takes for a known one. -/
theorem push_kept_iff (push : chain.push P (nextDescriptor P chain.latest members key) = .ok (next, pushed)) :
    next = chain ↔ chain.latest.epoch = 0xffffffff := by
  constructor
  · rintro rfl
    by_contra below
    have epoch := (push_next below push).2.epoch
    omega
  · intro last
    have first : (nextDescriptor P chain.latest members key).epoch = 0 := by
      simp [nextDescriptor, Descriptor.signed, last]
    rcases push_ok_cases push with ⟨-, kept, -⟩ | ⟨-, -, same, -⟩ | ⟨-, -, ahead, -⟩
    · exact kept
    · rw [first, last] at same
      contradiction
    · rw [first, last] at ahead
      contradiction

end Chain

theorem GroupState.moved {s next : GroupState} {chain : Chain} {key : B32}
    (push : s.chain.push P (nextDescriptor P s.chain.latest members key) = .ok (chain, pushed))
    (below : s.chain.latest.epoch ≠ 0xffffffff) (holds : next.chain = chain) : next ≠ s :=
  ne_of_apply_ne GroupState.chain (holds ▸ mt (Chain.push_kept_iff push).mp below)

namespace GroupCore

variable {P : Primitives} {core : GroupCore}

theorem groups_saved {after : GroupCore} {gid : B16}
    (written : (core.putGroup gid s).save faults s = (after, result)) :
    after.groups = core.groups.insert gid s := by
  have saved := (save_frame (core.putGroup gid s) faults s).1
  rw [written] at saved
  exact saved

theorem commit_groups {core : GroupCore} {gid : B16} (found : core.groups.get? gid = some s) :
    (core.commit faults gid next result).1.groups = core.groups ↔ next = s := by
  have groups : (core.commit faults gid next result).1.groups = core.groups.insert gid next := by
    unfold commit
    split
    all_goals
      rename_i written
      have saved := groups_saved written
      exact saved
  rw [groups, SortedMap.insert_eq_iff, found, Option.some_inj, eq_comm]

/-! Each call, by the checks it makes in the source's order. -/

section

variable (core : GroupCore) (gid : B16)

theorem add_groups (new : List (B32 × String × Bool)) :
    (core.add P faults gid new).1.groups = core.groups ↔ core.Refused P (.add gid new) := by
  simp only [add, Refused]
  cases live : core.liveGroup gid with
  | error => simp [Except.toOption]
  | ok s =>
    simp only [Except.toOption, Option.mem_some, forall_eq']
    split
    · simp_all
    split
    · simp_all
    split
    · simp_all
    split
    · simp_all
    rename_i chain pushed push
    rw [commit_groups (liveGroup_get? live)]
    by_cases last : s.chain.latest.epoch = 0xffffffff
    · cases (Chain.push_kept_iff push).mpr last
      simp_all
    · rw [iff_false_left (GroupState.moved push last (GroupState.chain_oweEach ..))]
      simp_all

theorem remove_groups (who : B32) :
    (core.remove P faults gid who).1.groups = core.groups ↔ core.Refused P (.remove gid who) := by
  simp only [remove, Refused]
  cases live : core.liveGroup gid with
  | error => simp [Except.toOption]
  | ok s =>
    simp only [Except.toOption, Option.mem_some, forall_eq']
    split
    · simp_all
    split
    · simp_all
    split
    · simp_all
    split
    · simp_all
    rename_i chain pushed push
    rw [commit_groups (liveGroup_get? live)]
    by_cases last : s.chain.latest.epoch = 0xffffffff
    · cases (Chain.push_kept_iff push).mpr last
      simp_all [GroupState.others]
    · rw [iff_false_left (GroupState.moved push last (by rw [GroupState.chain_oweEach, GroupState.chain_prune]))]
      simp_all

theorem leave_groups :
    (core.leave P faults gid).1.groups = core.groups ↔ core.Refused P (.leave gid) := by
  simp only [leave, Refused]
  cases live : core.liveGroup gid with
  | error => simp [Except.toOption]
  | ok s =>
    have gone {next : GroupState} (left : next.status = .left) : next ≠ s :=
      ne_of_apply_ne GroupState.status (by simp [left, liveGroup_joined live])
    have found := liveGroup_get? live
    simp only [Except.toOption, Option.mem_some, forall_eq']
    split
    · have moved : core.groups.insert gid { s with status := .left } ≠ core.groups := by
        rw [Ne, SortedMap.insert_eq_iff, found, Option.some_inj]
        exact (gone rfl).symm
      split
      all_goals
        rename_i written
        have := groups_saved written
        simp_all
    split
    · simp_all
    split
    · simp_all
    rw [commit_groups found]
    simp_all

theorem acceptInvite_groups :
    (core.acceptInvite faults gid).1.groups = core.groups ↔ core.Refused P (.acceptInvite gid) := by
  simp only [acceptInvite, Refused]
  cases found : core.groups.get? gid with
  | none => simp
  | some s =>
    simp only [Option.mem_some, forall_eq']
    split
    · rename_i invitedBy pending
      have moved : (s.becomeMember core.own invitedBy).1 ≠ s :=
        ne_of_apply_ne GroupState.status (by simp [pending, GroupState.becomeMember])
      rw [commit_groups found, iff_false_left moved]
      simp [pending, Status.isPending]
    · simp_all [Status.isPending]
    · simp_all [Status.isPending]

theorem send_groups (id : B16) (text : String) (now : UInt64) :
    (core.send faults gid id text now).1.groups = core.groups ↔ core.Refused P (.send gid id text now) := by
  simp only [send, Refused]
  split
  · simp_all
  split
  · simp_all
  cases live : core.liveGroup gid with
  | error => simp [Except.toOption]
  | ok s =>
    simp only [Except.toOption, Option.mem_some, forall_eq']
    split
    · simp_all
    -- a queued message takes the next counter of the sender, also with no one to send it to
    have moved {next : GroupState} {m : GroupMsg}
        (same : next = (numberMessage core.store (s.queueMessage id text now (s.others core.own)) m).1) :
        core.groups.insert gid next ≠ core.groups := by
      have counter : next.myCounter = s.myCounter + 1 := by
        simp only [same, numberMessage, GroupState.queueMessage]
        split_ifs <;> rfl
      rw [Ne, SortedMap.insert_eq_iff, liveGroup_get? live, Option.some_inj]
      exact ne_of_apply_ne GroupState.myCounter (by simp [counter])
    split
    · rename_i recorded
      have := moved (recordLocked_frame recorded).2
      simp_all [putGroup]
    · rename_i recorded
      have := moved (recordLocked_frame recorded).2
      split
      all_goals
        rename_i written
        have := groups_saved written
        simp_all

end

theorem create_unchanged (core : GroupCore) (faults : Faults) (gid : B16) (name : String)
    (members : List (B32 × String)) (now : UInt64) :
    (core.create P faults gid name members now).1.groups = core.groups ∨
      (core.create P faults gid name members now).2 = .ok gid := by
  simp only [create]
  split
  · exact .inl rfl
  split
  · exact .inl rfl
  split
  · exact .inl rfl
  split
  · exact .inl rfl
  split
  · exact .inl rfl
  split
  · rename_i written
    exact .inl (keeps_save_error written).groups
  · exact .inr rfl

end GroupCore

/-- When a call fails, the groups in memory are what they were exactly if the call
is `create` or was to change nothing. -/
theorem failed_call_atomic_iff (P : Primitives) (core : GroupCore) (faults : Faults)
    (call : Call) (e : GroupError) (failed : (core.call P faults call).2 = some e) :
    (core.call P faults call).1.groups = core.groups ↔ core.Refused P call := by
  cases call with
  | create gid name members now =>
    have refused := answer_eq_some.mp failed
    rcases create_unchanged (P := P) core faults gid name members now with same | done
    · simp [call, same, Refused]
    rw [done] at refused
    contradiction
  | add gid new =>
    simp only [call, answer_fst]
    exact add_groups core gid new
  | remove gid who =>
    simp only [call, answer_fst]
    exact remove_groups core gid who
  | leave gid =>
    simp only [call, answer_fst]
    exact leave_groups core gid
  | acceptInvite gid =>
    simp only [call, answer_fst]
    exact acceptInvite_groups core gid
  | send gid id text now =>
    simp only [call, answer_fst]
    exact send_groups core gid id text now

namespace Sample

/-- A group of the device and one guest, who has been told. -/
def pair : GroupCore := core.run .checksum
  [({}, .create gid "team" [(guest, "")] 1000), ({}, .settle guest (.descs gid) true)]

end Sample

/-- Leaving as the last admin fails whatever the files do, and changes nothing. -/
theorem failed_call_atomic_last_admin :
    (pair.call .checksum { write := some "full" } (.leave gid)).2 = some .lastAdmin ∧
      (pair.call .checksum { write := some "full" } (.leave gid)).1.groups = pair.groups := by
  have failed : (pair.call .checksum { write := some "full" } (.leave gid)).2 =
      some .lastAdmin := by decide +kernel
  refine ⟨failed, (failed_call_atomic_iff _ _ _ _ _ failed).mpr ?_⟩
  have refused : (pair.liveGroup gid).toOption.all (fun s =>
      !(s.chain.latest.members.filter fun m => m.id != pair.own).isEmpty && s.chain.latest.isAdmin pair.own &&
        !(s.chain.latest.members.filter fun m => m.id != pair.own).any (·.role == .admin)) = true := by
    decide +kernel
  simp only [Option.all_eq_true, Bool.and_eq_true, Bool.not_eq_true', List.isEmpty_eq_false_iff] at refused
  intro s live
  obtain ⟨⟨company, admin⟩, none⟩ := refused s live
  exact ⟨company, .inl ⟨admin, by simp [none]⟩⟩

/-- A message that was reported as not sent, and a removal that was reported as
failed, are on their way all the same. -/
theorem failed_calls_are_delivered : ((pair.send { append := some "full" } gid (ByteVec.fill 16 7) "hello" 1001).2 =
        .error (.storage "full") ∧
      ((pair.send { append := some "full" } gid (ByteVec.fill 16 7) "hello" 1001).1.nextFor
        guest).any (fun out => out.work = .text gid (ByteVec.fill 16 7)) = true) ∧
    ((pair.remove .checksum { write := some "full" } gid guest).2 = .error (.storage "full") ∧
      ((pair.remove .checksum { write := some "full" } gid guest).1.nextFor guest).any (fun out =>
          match Record.decode .checksum out.plain with
          | .ok (.descs ds) => ds.getLast?.any (!·.isMember guest)
          | _ => false) = true) := by
  decide +kernel

/-! ## What a successful change leaves behind -/

variable {P : Primitives} {core : GroupCore}

namespace GroupCore

variable {after : GroupCore} {gid : B16} {s next : GroupState} {members : List Member}

/-- The group's newest descriptor is the valid successor of `before` that this
device signed over the given members. -/
def Lands (P : Primitives) (core after : GroupCore) (gid : B16) (before : Descriptor)
    (members : List Member) : Prop :=
  ∃ next, after.groups.get? gid = some next ∧ Descriptor.Extends P before next.chain.latest ∧
    next.chain.latest.signer = core.own ∧ next.chain.latest.members = members

theorem Lands.below (lands : Lands P core after gid before members) : before.epoch ≠ 0xffffffff := by
  obtain ⟨next, -, step, -⟩ := lands
  rintro last
  have bound := next.chain.latest.epoch.toNat_lt
  rw [step.epoch, last] at bound
  contradiction

theorem Grounded.run (grounded : Grounded P core) (ops : List (Faults × Op)) : Grounded P (core.run P ops) := by
  induction ops generalizing core with
  | nil => exact grounded
  | cons op rest ih => exact ih (grounded.moves (grounded.sound.step op.1 op.2) (step_moves core op.1 op.2))

section

variable (own : core.own = P.verifyingKey core.key) (below : s.chain.latest.epoch ≠ 0xffffffff)
include own below

theorem Puts.lands (puts : Puts core gid next after)
    (push : ∃ pushed, s.chain.push P (nextDescriptor P s.chain.latest members core.key) = .ok (next.chain, pushed)) :
    Lands P core after gid s.chain.latest members := by
  obtain ⟨pushed, push⟩ := push
  obtain ⟨newest, step⟩ := Chain.push_next below push
  refine ⟨next, by simpa using puts.groups gid, step, ?_, ?_⟩
  · rw [newest, own]
    rfl
  · rw [newest]
    rfl

variable (found : core.groups.get? gid = some s) {faults : Faults} {told : List B32}
include found

theorem lands_of_commits {call : Faults → GroupCore × Except GroupError (List B32)}
    (cases : Refuses core call ∨ Commits P core op gid call) (push : ∀ {next}, Change P core op gid s next →
      ∃ pushed, s.chain.push P (nextDescriptor P s.chain.latest members core.key) = .ok (next.chain, pushed))
    (done : (call faults).2 = .ok told) : Lands P core (call faults).1 gid s.chain.latest members := by
  rcases cases with ⟨e, same⟩ | ⟨other, next, result, held, change, same⟩
  · rw [same] at done
    contradiction
  cases found.symm.trans held
  rw [same]
  exact (puts_commit core faults gid next result).lands own below (push change)

theorem add_lands {new : List (B32 × String × Bool)} (done : (core.add P faults gid new).2 = .ok told) :
    Lands P core (core.add P faults gid new).1 gid s.chain.latest (s.chain.latest.members ++ new.map invited) := by
  refine lands_of_commits own below found (add_cases core gid) ?_ done
  intro next change
  cases change with
  | quiet => contradiction
  | added joined admin listed push =>
    rw [← addList_ok listed, GroupState.chain_oweEach]
    exact ⟨_, push⟩

theorem remove_lands (done : (core.remove P faults gid who).2 = .ok told) :
    Lands P core (core.remove P faults gid who).1 gid s.chain.latest
      (s.chain.latest.members.filter fun m => m.id != who) := by
  refine lands_of_commits own below found (remove_cases core gid who) ?_ done
  intro next change
  cases change with
  | quiet => contradiction
  | removed joined admin notSelf member push =>
    rw [GroupState.chain_oweEach, GroupState.chain_prune]
    exact ⟨_, push⟩

theorem leave_lands (company : s.chain.latest.members.filter (·.id != core.own) ≠ [])
    (done : (core.leave P faults gid).2 = .ok told) :
    Lands P core (core.leave P faults gid).1 gid s.chain.latest
      (s.chain.latest.members.filter fun m => m.id != core.own) := by
  have push {next} (change : Change P core (.leave gid) gid s next) : ∃ pushed,
      s.chain.push P (nextDescriptor P s.chain.latest (s.chain.latest.members.filter fun m => m.id != core.own)
        core.key) = .ok (next.chain, pushed) := by
    cases change with
    | quiet => contradiction
    | leftAlone joined alone => exact absurd (List.isEmpty_iff.mp alone) company
    | left joined others push =>
      rw [GroupState.chain_oweEach]
      exact ⟨_, push⟩
  rcases or_assoc.mpr (leave_cases (P := P) core gid) with cases | ⟨other, next, held, change, same⟩
  · exact lands_of_commits own below found cases push done
  cases found.symm.trans held
  rw [same]
  exact (puts_saved core faults gid next).lands own below (push change)

end

end GroupCore

open GroupCore in
/-- In every reachable state, a membership change that succeeds takes effect exactly
if the newest epoch has a successor. -/
theorem membership_changes_take_effect (P : Primitives) (key : B32) (maxMessageBytes : Nat)
    (settings : StoreSettings) (ops : List (Faults × Op)) (core : GroupCore)
    (reached : core = (fresh P key maxMessageBytes settings).run P ops) (faults : Faults) (gid : B16)
    (s : GroupState) (found : core.groups.get? gid = some s) :
    (∀ new told, (core.add P faults gid new).2 = .ok told →
      (Lands P core (core.add P faults gid new).1 gid s.chain.latest (s.chain.latest.members ++ new.map invited) ↔
        s.chain.latest.epoch ≠ 0xffffffff)) ∧
    (∀ who told, (core.remove P faults gid who).2 = .ok told →
      (Lands P core (core.remove P faults gid who).1 gid s.chain.latest
        (s.chain.latest.members.filter fun m => m.id != who) ↔ s.chain.latest.epoch ≠ 0xffffffff)) ∧
    ∀ told, s.chain.latest.members.filter (·.id != core.own) ≠ [] → (core.leave P faults gid).2 = .ok told →
      (Lands P core (core.leave P faults gid).1 gid s.chain.latest
        (s.chain.latest.members.filter fun m => m.id != core.own) ↔ s.chain.latest.epoch ≠ 0xffffffff) := by
  subst reached
  have start : Held P (fun _ => True) (fresh P key maxMessageBytes settings) := held_fresh _ _ _
  have own := (start.toGrounded.run ops).own
  exact ⟨fun new told done => ⟨Lands.below, fun below => add_lands own below found done⟩,
    fun who told done => ⟨Lands.below, fun below => remove_lands own below found done⟩,
    fun told company done => ⟨Lands.below, fun below => leave_lands own below found company done⟩⟩

/-- The guest is removed at the first epoch. -/
theorem membership_changes_take_effect_pair : ∃ s, pair.groups.get? gid = some s ∧ Lands .checksum pair
      (pair.remove .checksum {} gid guest).1 gid s.chain.latest
        (s.chain.latest.members.filter fun m => m.id != guest) := by
  have shown : (pair.groups.get? gid).any (·.chain.latest.epoch ≠ 0xffffffff) = true := by
    decide +kernel
  have done : (pair.remove .checksum {} gid guest).2 = .ok [guest] := by
    decide +kernel
  obtain ⟨s, found, below⟩ := exists_of_any shown
  exact ⟨s, found, ((membership_changes_take_effect _ _ _ _ _ _ rfl {} _ s found).2.1 _ _ done).mpr below⟩

namespace Sample

/-- The invitation to a group at the last epoch there is. -/
def lastRoot : Descriptor := Descriptor.signed .checksum
    { root with epoch := 0xffffffff, members := [⟨admin, .admin, ""⟩, ⟨guest, .admin, ""⟩] } admin

def lastEpoch : GroupCore := (fresh .checksum guest 4096 ⟨true, 1000, 1000⟩).run .checksum
    [({}, .handle admin ((encodeDescs [lastRoot]).toOption.getD []) 1000 (fun _ => true))]

end Sample

/-- At the last epoch, removing the other admin succeeds and changes nothing. -/
theorem membership_change_lost_at_last_epoch : (lastEpoch.groups.get? gid).map (·.chain.latest) = some lastRoot ∧
      (lastEpoch.remove .checksum {} gid admin).2 = .ok [admin, admin] ∧
      ((lastEpoch.remove .checksum {} gid admin).1.groups.get? gid).map
        (·.chain.latest) = some lastRoot := by
  decide +kernel

end Miasma.Chat.Group
