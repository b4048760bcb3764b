import Miasma.Chat.Group.Steps
import Miasma.Data.Run

namespace Miasma.Chat.Group

open Data GroupState Chain

/-! # Properties of single groups

What every change of a group keeps, and every new group has, holds in every state reached. -/

namespace GroupCore

variable {P : Primitives} {core after : GroupCore} {s next : GroupState} {gid : B16}

variable {op : Op}

theorem Change.gid_eq (change : Change P core op gid s next) : next.gid = s.gid := by
  simp only [GroupState.gid]
  cases change with
  | quiet kind quiet => rw [quiet.chain]
  | added joined admin listed push =>
    rw [chain_oweEach]
    exact gid_push push
  | removed joined admin notSelf member push =>
    rw [chain_oweEach, chain_prune]
    exact gid_push push
  | leftAlone => rfl
  | left joined company push =>
    rw [chain_oweEach]
    exact gid_push push
  | accepted => rw [chain_becomeMember]
  | sent joined quiet => rw [quiet.chain, chain_queueMessage]
  | settled => rw [chain_settleState]
  | asked => rw [chain_owe]
  | synced => rw [chain_owe, (quiet_confirmMember s _).chain]
  | unmoved read head push nothing quiet =>
    rw [quiet.chain]
    exact gid_pushAll push
  | updated read head rising push =>
    rw [chain_prune, chain_standing, (quiet_confirmMember _ _).chain]
    exact gid_pushAll push

theorem inviteChain_latest {chain : Chain} (offered : inviteChain P ds = some chain) : chain.latest ∈ ds := by
  induction ds with
  | nil => contradiction
  | cons d rest ih =>
    simp only [inviteChain] at offered
    split at offered
    · exact List.mem_cons_of_mem d (ih offered)
    rename_i start started
    have newest : ∀ {next : Chain} {answer : Except DescError Bool},
        start.pushAll P rest = (next, answer) → next.latest ∈ d :: rest := by
      intro next answer pushed
      rcases latest_pushAll pushed with same | member
      · have items := (Chain.fromRoot_ok_iff.mp started).2
        have root : start.latest = d := by simp [Chain.latest, items]
        rw [same, root]
        exact List.mem_cons_self
      · exact List.mem_cons_of_mem d member
    split at offered
    · rename_i pushed
      cases offered
      exact newest pushed
    · rename_i pushed
      split at offered
      · cases offered
        exact newest pushed
      · exact List.mem_cons_of_mem d (ih offered)

@[simp] theorem chain_createdGroup (chain : Chain) (own : B32) (now : UInt64) :
    (createdGroup chain own now).chain = chain := by
  simp [createdGroup, GroupState.new]

@[simp] theorem chain_invitedGroup (chain : Chain) (own peer : B32) (now : UInt64) (autoJoin : Bool) :
    (invitedGroup chain own peer now autoJoin).chain = chain := by
  have confirmed := (quiet_confirm
    ({ GroupState.new chain (.pending peer) with lastMs := now } : GroupState) peer).chain
  simp only [invitedGroup]
  split
  · rw [chain_becomeMember]
    exact confirmed
  · exact confirmed

theorem Begins.gid_eq (begins : Begins P core op gid next) : next.gid = gid := by
  simp only [GroupState.gid]
  cases begins with
  | created listed made root =>
    have items := (Chain.fromRoot_ok_iff.mp root).2
    simp [Chain.gid, Chain.latest, items, made, Descriptor.signed]
  | invited read head unknown last oneGroup rising lists offered =>
    rw [chain_invitedGroup]
    exact oneGroup _ (inviteChain_latest offered)

/-! ## What a step can do to the engine -/

/-- A step changes or starts one group, drops one, touches counters only, writes
every group, or reads the groups back from their documents. -/
inductive Moves (P : Primitives) (core : GroupCore) (op : Op) (after : GroupCore) : Prop
  | effect {mid} (effect : Effect P core op mid) (groups : after.groups = mid.groups)
      (documents : after.store.documents = mid.store.documents)
      (key : after.key = mid.key) (own : after.own = mid.own)
  | dropped {gid faults} (forget : op = .forget gid) (same : after = (core.forget faults gid).1)
  | swept {cutoff faults} (sweep : op = .sweepRetention cutoff) (same : after = core.sweepRetention faults cutoff)
  | flushed {faults} (flush : op = .flushAll) (same : after = core.flushAll faults)
  | restarted {maxMessageBytes} (restart : op = .restart maxMessageBytes)
      (same : after = GroupCore.new P core.key maxMessageBytes core.store.reopen)

theorem step_moves (core : GroupCore) (faults : Faults) (op : Op) : Moves P core op (core.step P faults op) := by
  by_cases plain : op.isPlain = true
  · exact .effect (step_effect core faults plain) rfl rfl rfl rfl
  cases op with
  | create | add | remove | leave | acceptInvite | send | handle | setAutoJoin => exact absurd rfl plain
  | settle peer work delivered =>
    cases work with
    | text | descs | sync => exact absurd rfl plain
    | hist gid dest seq =>
      obtain ⟨hist, same, -⟩ := settle_hist core faults peer dest gid seq delivered
      simp only [GroupCore.step, same]
      exact .effect (.kept (.refl core)) rfl rfl rfl rfl
  | forget => exact .dropped rfl rfl
  | handover gid dest =>
    obtain ⟨mid, effect, same | ⟨-, -, queued⟩⟩ := handover_effect (P := P) core faults gid dest
    · simp only [GroupCore.step, same]
      exact .effect effect rfl rfl rfl rfl
    · simp only [GroupCore.step, queued]
      exact .effect effect rfl rfl rfl rfl
  | sweepRetention => exact .swept rfl rfl
  | flushAll => exact .flushed rfl rfl
  | restart => exact .restarted rfl rfl

theorem step_key (core : GroupCore) (faults : Faults) (op : Op) : (core.step P faults op).key = core.key := by
  cases step_moves (P := P) core faults op with
  | effect effect groups documents key => exact key.trans effect.frame.1
  | dropped forget same => rw [same, (forget_frame core _ _).2.1]
  | swept sweep same => rw [same, (sweepRetention_frame core _ _).2.2.1]
  | flushed flush same => rw [same, (flushAll_frame core _).2.2.1]
  | restarted restart same =>
    rw [same]
    rfl

/-! ## Groups under their own IDs -/

/-- Every group can be stored and sits under its own ID. -/
structure Grounded (P : Primitives) (core : GroupCore) : Prop where
  sound : Sound P core
  own : core.own = P.verifyingKey core.key
  keyed : ∀ gid s, core.groups.get? gid = some s → s.gid = gid

theorem Puts.keyed (puts : Puts core gid next after) (here : next.gid = gid)
    (keyed : ∀ gid s, core.groups.get? gid = some s → s.gid = gid) :
    ∀ gid s, after.groups.get? gid = some s → s.gid = gid := by
  intro other s found
  rw [puts.groups] at found
  split at found
  · rename_i same
    cases found
    exact here.trans same.symm
  · exact keyed other s found

theorem Effect.keyed (effect : Effect P core op after)
    (keyed : ∀ gid s, core.groups.get? gid = some s → s.gid = gid) :
    ∀ gid s, after.groups.get? gid = some s → s.gid = gid := by
  cases effect with
  | kept same =>
    rw [same.groups]
    exact keyed
  | changed found change puts => exact puts.keyed (change.gid_eq.trans (keyed _ _ found)) keyed
  | began begins puts => exact puts.keyed begins.gid_eq keyed

theorem Grounded.moves (grounded : Grounded P core) (sound : Sound P after)
    (moves : Moves P core op after) : Grounded P after := by
  cases moves with
  | effect effect groups documents key own =>
    obtain ⟨keyFrame, ownFrame⟩ := effect.frame
    refine ⟨sound, by rw [own, key, keyFrame, ownFrame, grounded.own], ?_⟩
    rw [groups]
    exact effect.keyed grounded.keyed
  | @dropped gid faults forget same =>
    subst same
    obtain ⟨-, key, own⟩ := forget_frame core faults gid
    exact ⟨sound, by rw [own, key, grounded.own],
      fun other s found => grounded.keyed other s (forget_groups core faults gid found)⟩
  | @swept cutoff faults sweep same =>
    subst same
    obtain ⟨-, -, key, own⟩ := sweepRetention_frame core faults cutoff
    refine ⟨sound, by rw [own, key, grounded.own], fun gid s found => ?_⟩
    obtain ⟨before, there, quiet⟩ := sweepRetention_origin core faults found
    rw [← grounded.keyed gid before there, GroupState.gid, GroupState.gid, quiet.chain]
  | @flushed faults flush same =>
    subst same
    obtain ⟨groups, -, key, own⟩ := flushAll_frame core faults
    exact ⟨sound, by rw [own, key, grounded.own], groups ▸ grounded.keyed⟩
  | restarted restart same =>
    subst same
    exact ⟨sound, rfl, fun gid s found => (mem_loaded found).1⟩

/-! ## One group along a step -/

/-- The group under `gid` has the property in memory, and its document was written
from a group that had it. -/
structure Tracked (P : Primitives) (holds : GroupState → Prop) (core : GroupCore) (gid : B16) : Prop where
  memory : ∀ s, core.groups.get? gid = some s → holds s
  document : ∀ bytes, core.store.documents.get? gid = some bytes →
    ∃ s, Storable P s ∧ holds s ∧ bytes = s.encode

variable {holds : GroupState → Prop}

theorem Tracked.puts (tracked : Tracked P holds core gid) (puts : Puts core place next after)
    (storable : next.Storable P) (keyed : next.gid = place) (kept : gid = place → holds next) :
    Tracked P holds after gid where
  memory := by
    intro s found
    rw [puts.groups] at found
    split at found
    · rename_i same
      cases found
      exact kept same
    · exact tracked.memory s found
  document := by
    intro bytes found
    rcases puts.documents with same | written
    · exact tracked.document bytes (same ▸ found)
    rcases SortedMap.get?_insert_cases (written ▸ found) with ⟨same, rfl⟩ | ⟨-, old⟩
    · exact ⟨next, storable, kept (same.trans keyed), rfl⟩
    · exact tracked.document bytes old

section

variable (tracked : Tracked P holds core gid) (grounded : Grounded P core)
  (changes : ∀ {s next}, core.groups.get? gid = some s → holds s → Change P core op gid s next →
    after.groups.get? gid = some next → holds next)
  (starts : ∀ {next}, Begins P core op gid next → after.groups.get? gid = some next → holds next)
include tracked grounded changes starts

theorem Tracked.effect (storable : ∀ gid s, after.groups.get? gid = some s → s.Storable P)
    (effect : Effect P core op after) : Tracked P holds after gid := by
  cases effect with
  | kept same => exact ⟨same.groups ▸ tracked.memory, same.documents ▸ tracked.document⟩
  | @changed place s next found change puts =>
    have there : after.groups.get? place = some next := by rw [puts.groups, if_pos rfl]
    refine tracked.puts puts (storable _ _ there) (change.gid_eq.trans (grounded.keyed _ _ found)) fun same => ?_
    subst same
    exact changes found (tracked.memory s found) change there
  | @began place next begins puts =>
    have there : after.groups.get? place = some next := by rw [puts.groups, if_pos rfl]
    refine tracked.puts puts (storable _ _ there) begins.gid_eq fun same => ?_
    subst same
    exact starts begins there

/-- A property of one group is kept by a step when every change of the group that
the step can make keeps it, and the group has it if the step starts it. -/
theorem Tracked.moves (sound : Sound P after) (moves : Moves P core op after) : Tracked P holds after gid := by
  cases moves with
  | @effect mid effect groups documents =>
    rw [groups] at changes starts
    obtain ⟨memory, document⟩ := tracked.effect grounded changes starts (groups ▸ sound.groups) effect
    exact ⟨groups ▸ memory, documents ▸ document⟩
  | @dropped other faults forget same =>
    subst same
    exact ⟨fun s found => tracked.memory s (forget_groups core faults other found),
      fun bytes found => tracked.document bytes (forget_documents core faults other found)⟩
  | @swept cutoff faults sweep same =>
    subst same
    subst sweep
    obtain ⟨documents, -, -, -⟩ := sweepRetention_frame core faults cutoff
    refine ⟨fun s found => ?_, documents ▸ tracked.document⟩
    obtain ⟨before, there, quiet⟩ := sweepRetention_origin core faults found
    exact changes there (tracked.memory before there) (.quiet rfl quiet) found
  | @flushed faults flush same =>
    subst same
    obtain ⟨groups, -, -, -⟩ := flushAll_frame core faults
    refine ⟨groups ▸ tracked.memory, fun bytes found => ?_⟩
    rcases flushAll_documents core faults found with old | ⟨s, member, here, same⟩
    · exact tracked.document bytes old
    obtain ⟨key, there⟩ := SortedMap.mem_values_iff.mp member
    have place : key = gid := (grounded.keyed key s there).symm.trans here
    subst place
    exact ⟨s, grounded.sound.groups key s there, tracked.memory s there, same⟩
  | restarted restart same =>
    subst same
    refine ⟨fun s found => ?_, fun bytes found => tracked.document bytes (SortedMap.get?_of_filter found)⟩
    obtain ⟨-, bytes, there, decoded⟩ := mem_loaded found
    obtain ⟨written, storable, had, rfl⟩ := tracked.document bytes there
    rwa [decode_storable storable decoded]

end

/-! ## All groups -/

/-- Every group in memory has the property, and every document was written from a
group that had it. -/
structure Held (P : Primitives) (holds : GroupState → Prop) (core : GroupCore) : Prop extends Grounded P core where
  tracked : ∀ gid, Tracked P holds core gid

theorem Held.groups (held : Held P holds core) (gid : B16) (s : GroupState)
    (found : core.groups.get? gid = some s) : holds s := (held.tracked gid).memory s found

/-- A property of single groups is kept by a step when every change of a group
keeps it and every group that the step starts has it. -/
theorem Held.step (held : Held P holds core) (faults : Faults) (op : Op)
    (changes : ∀ {gid s next}, core.groups.get? gid = some s → holds s → Change P core op gid s next → holds next)
    (starts : ∀ {gid next}, Begins P core op gid next → holds next) :
    Held P holds (core.step P faults op) where
  toGrounded := held.toGrounded.moves (held.sound.step faults op) (step_moves core faults op)
  tracked gid := (held.tracked gid).moves held.toGrounded (fun found had change _ => changes found had change)
    (fun begins _ => starts begins) (held.sound.step faults op) (step_moves core faults op)

/-! ## Runs under a condition -/

def advance (P : Primitives) (core : GroupCore) (event : Faults × Op) : Option GroupCore :=
  some (core.step P event.1 event.2)

theorem run_advance (P : Primitives) (core : GroupCore) (ops : List (Faults × Op)) :
    Data.run (advance P) core ops = some (core.run P ops) := by
  induction ops generalizing core with
  | nil => rfl
  | cons op rest ih => exact ih (core.step P op.1 op.2)

theorem held_fresh (key : B32) (maxMessageBytes : Nat) (settings : StoreSettings) :
    Held P holds (fresh P key maxMessageBytes settings) where
  sound := Sound.new (by intro gid bytes found; contradiction)
  own := rfl
  keyed gid s found := by contradiction
  tracked gid := ⟨fun s found => by contradiction, fun bytes found => by contradiction⟩

end GroupCore

end Miasma.Chat.Group
