import Miasma.Chat.Group.Delivery
import Miasma.Data.Keyed
import Mathlib.Data.List.ProdSigma

namespace Miasma.Chat.Group

open Data List GroupCore Group.Sample SortedMap

/-! # The descriptor that removes a member is owed to that member

Every later pruning of the control list drops it. -/

variable {P : Primitives}

namespace GroupState

variable {s next : GroupState} {who dest : B32} {kind : CtrlKind} {arg : UInt32}

def Owes (s : GroupState) (who : B32) : Prop := ∃ c ∈ s.ctrl, c.dest = who ∧ c.kind = .descs

/-- Nobody is owed two items of one kind. -/
def Single (s : GroupState) : Prop := Distinct (fun c : Ctrl => (c.dest, c.kind)) s.ctrl

theorem ctrl_owe_keeps {s : GroupState} (owed : c ∈ s.ctrl) :
    ∃ held ∈ (s.owe dest kind arg).1.ctrl, held.dest = c.dest ∧ held.kind = c.kind := by
  have updated : ∀ {found : Ctrl → Bool} (list : List Ctrl), c ∈ list →
      ∃ held ∈ updateFirst found (fun c => { c with arg := arg }) list, held.dest = c.dest ∧ held.kind = c.kind := by
    intro found list member
    induction list with
    | nil => contradiction
    | cons first rest ih =>
      simp only [updateFirst]
      split
      · rcases mem_cons.mp member with rfl | later
        · exact ⟨_, mem_cons_self, rfl, rfl⟩
        · exact ⟨c, mem_cons_of_mem _ later, rfl, rfl⟩
      · rcases mem_cons.mp member with rfl | later
        · exact ⟨c, mem_cons_self, rfl, rfl⟩
        obtain ⟨held, there, same⟩ := ih later
        exact ⟨held, mem_cons_of_mem _ there, same⟩
  simp only [owe]
  split
  · split
    · exact updated s.ctrl owed
    · exact ⟨c, owed, rfl, rfl⟩
  · split
    · exact ⟨c, owed, rfl, rfl⟩
    · exact ⟨c, mem_append_left _ owed, rfl, rfl⟩

theorem Owes.owe (owes : s.Owes who) : (s.owe dest kind arg).1.Owes who := by
  obtain ⟨c, owed, rfl, descs⟩ := owes
  obtain ⟨held, there, same, kinds⟩ := ctrl_owe_keeps owed
  exact ⟨held, there, same, kinds.trans descs⟩

variable {dests : List B32}

theorem Owes.oweEach (owes : s.Owes who) : (s.oweEach dests kind arg).Owes who := by
  induction dests generalizing s with
  | nil => exact owes
  | cons dest rest ih => exact ih owes.owe

theorem Owes.ctrl (owes : s.Owes who) (same : next.ctrl = s.ctrl) : next.Owes who := by
  unfold Owes at owes ⊢
  rwa [same]

theorem owes_owe (room : s.ctrl.length < maxCtrl) : (s.owe who .descs arg).1.Owes who := by
  simp only [owe]
  split
  · rename_i present
    obtain ⟨c, owed, same⟩ := any_eq_true.mp present
    simp only [Bool.and_eq_true, beq_iff_eq] at same
    exact ⟨c, owed, same⟩
  · rw [if_neg (Nat.not_le.mpr room)]
    exact ⟨⟨who, .descs, arg⟩, mem_append_right _ mem_cons_self, rfl, rfl⟩

theorem single_updateFirst (single : Distinct (fun c : Ctrl => (c.dest, c.kind)) list) :
    Distinct (fun c : Ctrl => (c.dest, c.kind)) (updateFirst found (fun c => { c with arg := arg }) list) := by
  have same : (updateFirst found (fun c => { c with arg := arg }) list).map (fun c : Ctrl => (c.dest, c.kind)) =
      list.map (fun c : Ctrl => (c.dest, c.kind)) := by
    clear single
    induction list with
    | nil => rfl
    | cons first rest ih =>
      simp only [updateFirst]
      split
      · rfl
      · rw [map_cons, map_cons, ih]
  unfold Distinct at single ⊢
  rwa [same]

section

variable (single : s.Single)
include single

theorem Single.owe : (s.owe dest kind arg).1.Single := by
  simp only [GroupState.owe]
  split
  · split
    · exact single_updateFirst single
    · exact single
  rename_i absent
  split
  · exact single
  refine Distinct.concat single fun held there same => ?_
  simp only [Prod.mk.injEq] at same
  apply absent
  exact any_eq_true.mpr ⟨held, there, by simp [same]⟩

theorem Single.oweEach : (s.oweEach dests kind arg).Single := by
  induction dests generalizing s with
  | nil => exact single
  | cons dest rest ih => exact ih single.owe

theorem Single.ctrl (same : next.ctrl = s.ctrl) : next.Single := by
  unfold Single at single ⊢
  rwa [same]

theorem Single.prune : s.prune.Single := by
  unfold Single
  rw [ctrl_prune]
  exact single.filter

theorem Single.length_le {ids : List B32} (listed : ∀ c ∈ s.ctrl, c.dest ∈ ids) :
    s.ctrl.length ≤ 2 * ids.length := by
  have inside : s.ctrl.map (fun c : Ctrl => (c.dest, c.kind)) ⊆ ids ×ˢ [.descs, .sync] := by
    intro pair member
    obtain ⟨c, owed, rfl⟩ := mem_map.mp member
    refine mem_product.mpr ⟨listed c owed, ?_⟩
    cases c.kind <;> simp
  have bound := (Nodup.subperm single inside).length_le
  rw [length_map, length_product] at bound
  simp only [length_cons, length_nil] at bound
  omega

theorem Single.settleState : (settleState s peer work delivered).Single := by
  cases work with
  | descs | sync => exact Distinct.filter single
  | hist => exact single
  | text =>
    refine single.ctrl ?_
    simp only [GroupCore.settleState, changeLedger]
    split
    · exact (quiet_confirm _ peer).ctrl
    · rfl

end

theorem Owes.settleState (owes : s.Owes who) (other : work = .descs (Work.gid work) → peer ≠ who) :
    (settleState s peer work delivered).Owes who := by
  obtain ⟨c, owed, dest, kind⟩ := owes
  cases work with
  | descs =>
    refine ⟨c, mem_filter.mpr ⟨owed, ?_⟩, dest, kind⟩
    have different : c.dest ≠ peer := fun same => other rfl (same.symm.trans dest)
    simp [different]
  | sync => exact ⟨c, mem_filter.mpr ⟨owed, by simp [kind]⟩, dest, kind⟩
  | hist => exact ⟨c, owed, dest, kind⟩
  | text =>
    refine Owes.ctrl ⟨c, owed, dest, kind⟩ ?_
    simp only [GroupCore.settleState, changeLedger]
    split
    · exact (quiet_confirm _ peer).ctrl
    · rfl

theorem ctrl_queueMessage {s : GroupState} {id : B16} :
    (s.queueMessage id text now recipients).ctrl = s.ctrl := by
  simp only [queueMessage]
  split <;> rfl

theorem Single.standing (single : s.Single) {own peer : B32} {trusted autoJoin : Bool} :
    (standing s own peer trusted autoJoin).1.Single := by
  have again : (GroupState.confirmMember { s with confirmed := [] } peer).1.Single :=
    single.ctrl (quiet_confirmMember _ peer).ctrl
  simp only [GroupCore.standing]
  split
  · exact single
  · exact single
  · exact single
  · exact single
  · exact single
  split
  · split
    · refine Single.oweEach ?_
      exact again
    · exact again
  · exact single

end GroupState

namespace GroupCore

variable {core after : GroupCore} {gid : B16} {s next : GroupState} {op : Op} {faults : Faults}
  {who : B32}

theorem Change.single (change : Change P core op gid s next) (single : s.Single) : next.Single := by
  cases change with
  | quiet kind quiet => exact single.ctrl quiet.ctrl
  | added =>
    refine GroupState.Single.oweEach ?_
    exact single
  | removed =>
    refine GroupState.Single.oweEach (GroupState.Single.prune ?_)
    exact single
  | leftAlone => exact single
  | left | accepted =>
    refine GroupState.Single.oweEach ?_
    exact single
  | sent joined quiet =>
    refine GroupState.Single.ctrl ?_ quiet.ctrl
    exact single.ctrl GroupState.ctrl_queueMessage
  | settled => exact single.settleState
  | asked => exact single.owe
  | synced => exact (single.ctrl (GroupState.quiet_confirmMember s _).ctrl).owe
  | unmoved read head push nothing quiet => exact single.ctrl quiet.ctrl
  | updated =>
    refine GroupState.Single.prune (GroupState.Single.standing ?_)
    exact single.ctrl (GroupState.quiet_confirmMember _ _).ctrl

theorem Begins.single (begins : Begins P core op gid next) : next.Single := by
  have new : ∀ {s : GroupState}, s.ctrl = [] → s.Single := by
    intro s nothing
    unfold GroupState.Single
    rw [nothing]
    exact Distinct.nil
  cases begins with
  | created => exact GroupState.Single.oweEach (new rfl)
  | invited =>
    simp only [invitedGroup]
    split
    · refine GroupState.Single.oweEach (new ?_)
      exact (GroupState.quiet_confirm _ _).ctrl
    · exact new (GroupState.quiet_confirm _ _).ctrl

theorem owes_removed {s : GroupState} (single : s.Single) {own : B32}
    (bounded : s.chain.latest.members.length ≤ maxMembers) :
    (s.prune.oweEach (s.prune.others own ++ [who]) .descs 0).Owes who := by
  have split : s.prune.oweEach (s.prune.others own ++ [who]) .descs 0 =
      ((s.prune.oweEach (s.prune.others own) .descs 0).owe who .descs 0).1 := by
    simp [GroupState.oweEach]
  rw [split]
  apply GroupState.owes_owe
  -- Only listed members are owed anything at this point, each at most twice.
  have listed : ∀ c ∈ (s.prune.oweEach (s.prune.others own) .descs 0).ctrl,
      c.dest ∈ s.chain.latest.members.map Member.id := by
    intro c owed
    rcases GroupState.mem_ctrl_oweEach owed with ⟨old, member, same, -⟩ | ⟨other, -⟩
    · rw [GroupState.ctrl_prune] at member
      rw [← same]
      simpa using (mem_filter.mp member).2
    · have member := (GroupState.mem_others.mp other).2
      rwa [GroupState.chain_prune, Descriptor.isMember_iff] at member
  have few := (GroupState.Single.oweEach single.prune).length_le listed
  rw [length_map] at few
  have small : 2 * maxMembers < maxCtrl := by decide
  omega

theorem save_ok (done : (core.save faults s).2 = .ok ()) :
    (core.save faults s).1.store.documents = core.store.documents.insert s.gid s.encode := by
  unfold save GroupStore.writeState at done ⊢
  cases answer : faults.write with
  | some e =>
    rw [answer] at done
    contradiction
  | none => rfl

theorem commit_ok (done : (core.commit faults gid next result).2 = .ok value) :
    (core.commit faults gid next result).1.store.documents = core.store.documents.insert next.gid next.encode := by
  unfold commit at done ⊢
  split at done
  · contradiction
  rename_i written
  have saved := save_ok (congrArg Prod.snd written)
  rwa [written] at saved

theorem forget_found (found : core.groups.get? gid = some s) {other : B16}
    (kept : (core.forget faults other).2 = .ok () → other ≠ gid) :
    (core.forget faults other).1.groups.get? gid = some s := by
  unfold forget at kept ⊢
  split
  · exact found
  split
  · exact found
  split
  · exact found
  rename_i there left _ store deleted
  simp only [there, left, if_false, deleted] at kept
  rw [get?_erase, if_neg (kept trivial).symm]
  exact found

theorem loaded_of_document {store : GroupStore} {key : B32}
    (there : store.documents.get? gid = some bytes) (decoded : GroupState.decode P bytes = some s)
    (keyed : s.gid = gid) : (new P key maxMessageBytes store).groups.get? gid = some s := by
  have last : ∀ (loaded : List GroupState) (map : SortedMap B16 GroupState),
      (∀ other ∈ loaded, other.gid = gid → other = s) → (s ∈ loaded ∨ map.get? gid = some s) →
      (loaded.foldl (fun groups s => groups.insert s.gid s) map).get? gid = some s := by
    intro loaded
    induction loaded with
    | nil => exact fun map _ member => member.resolve_left (by simp)
    | cons first rest ih =>
      intro map unique member
      simp only [forall_mem_cons] at unique
      refine ih _ unique.2 ?_
      by_cases here : first.gid = gid
      · have same := unique.1 here
        subst same
        exact .inr (by rw [← here, get?_insert_self])
      refine member.imp (fun inside => ?_) fun found => ?_
      · rcases mem_cons.mp inside with rfl | later
        · exact absurd keyed here
        · exact later
      · rw [get?_insert_of_ne (Ne.symm here)]
        exact found
  refine last _ _ (fun other member same => ?_) (.inl ?_)
  · obtain ⟨entry, inside, readable⟩ := mem_filterMap.mp member
    obtain ⟨again, matched⟩ := Option.filter_eq_some_iff.mp readable
    have place : entry.1 = gid := (beq_iff_eq.mp matched).symm.trans same
    have found := get?_eq_some_iff.mpr (show (entry.1, entry.2) ∈ store.documents.entries from inside)
    rw [place, there] at found
    cases found
    exact Option.some.inj (again.symm.trans decoded)
  · refine mem_filterMap.mpr ⟨(gid, bytes), get?_eq_some_iff.mp there, ?_⟩
    exact Option.filter_eq_some_iff.mpr ⟨decoded, by simp [keyed]⟩

end GroupCore

namespace Told

open GroupCore

/-! ## Debts to removed members -/

/-- `who` was removed from a group and is to be told; `asked` says that an item of
descriptors has been handed out for them since. -/
structure Debt where
  gid : B16
  who : B32
  asked : Bool
deriving DecidableEq

structure World where
  core : GroupCore
  debts : List Debt

/-- An operation with what the files answer, or a worker that takes the next item
for `peer`. -/
inductive Event where
  | perform (faults : Faults) (op : Op)
  | ask (peer : B32)

def opens (P : Primitives) (core : GroupCore) (faults : Faults) : Op → List Debt
  | .remove gid who =>
    match (core.remove P faults gid who).2 with
    | .ok _ => [⟨gid, who, false⟩]
    | .error _ => []
  | _ => []

/-- The result of an item that was handed out after the removal. -/
def Debt.settledBy (d : Debt) : Op → Bool
  | .settle peer (.descs gid) _ => d.asked && peer == d.who && gid == d.gid
  | _ => false

def Debt.forgottenBy (d : Debt) (core : GroupCore) (faults : Faults) : Op → Bool
  | .forget gid =>
    match (core.forget faults gid).2 with
    | .ok () => gid == d.gid
    | .error _ => false
  | _ => false

def Debt.listedAgain (d : Debt) (core : GroupCore) : Bool :=
  (core.groups.get? d.gid).any (·.chain.latest.isMember d.who)

def Debt.ask (d : Debt) (core : GroupCore) (peer : B32) : Debt :=
  if d.who = peer ∧ (core.nextFor peer).any (·.work = .descs d.gid) then
    { d with asked := true }
  else d

/-- One event.  A debt ends when an item handed out for it is settled, when the
member is listed again, and when the group is forgotten. -/
def World.step (P : Primitives) (w : World) : Event → Option World
  | .ask peer => some { w with debts := w.debts.map (·.ask w.core peer) }
  | .perform faults op =>
    let core := w.core.step P faults op
    let still := w.debts.filter (fun d => !d.settledBy op && !d.forgottenBy w.core faults op)
    some ⟨core, (still ++ opens P w.core faults op).filter (!·.listedAgain core)⟩

/-- Every member who is to be told is owed the descriptors. -/
def World.Tells (w : World) : Prop := ∀ d ∈ w.debts, ∃ s, w.core.groups.get? d.gid = some s ∧ s.Owes d.who

/-! ## The condition on the steps -/

def Event.op? : Event → Option Op
  | .perform _ op => some op
  | .ask _ => none

def told? : Op → Option (B32 × B16)
  | .settle peer (.descs gid) _ => some (peer, gid)
  | _ => none

def isRestart : Op → Bool
  | .restart _ => true
  | _ => false

def readable (P : Primitives) (core : GroupCore) (gid : B16) : Bool :=
  (core.store.documents.get? gid).any (fun bytes =>
    (GroupState.decode P bytes).any (·.gid == gid))

/-- Nobody else is removed from the group, no group is created under its ID,
received descriptors bring nothing new to it, no result comes for an item handed
out before the removal, and at a restart the group can be read. -/
@[reducible] def Debt.Spared (P : Primitives) (core : GroupCore) (d : Debt) (event : Event) : Prop :=
  ∀ op ∈ event.op?, (∀ pair ∈ Op.removal? op, pair.1 ≠ d.gid) ∧ (∀ gid ∈ Op.created? op, gid ≠ d.gid) ∧
    (∀ ds ∈ Op.descs? P op, ∀ first ∈ ds.head?, first.gid = d.gid →
      ∀ s ∈ core.groups.get? first.gid, (s.chain.pushAll P ds).2 ≠ .ok true) ∧
    (∀ pair ∈ told? op, pair = (d.who, d.gid) → d.asked = true) ∧
    (isRestart op = true → readable P core d.gid = true)

@[reducible] def Undisturbed (P : Primitives) (w : World) (event : Event) : Prop :=
  ∀ d ∈ w.debts, d.Spared P w.core event

/-! ## One step -/

/-- The group is there, and the descriptors are owed in memory and in its document. -/
structure Due (P : Primitives) (core : GroupCore) (gid : B16) (who : B32) : Prop
    extends Tracked P (·.Owes who) core gid where
  present : (core.groups.get? gid).isSome = true

variable {core after : GroupCore} {gid : B16} {who : B32} {s next : GroupState} {op : Op}
  {faults : Faults} {d : Debt}

theorem owes_change (change : Change P core op d.gid s next) (found : core.groups.get? d.gid = some s)
    (spared : d.Spared P core (.perform faults op)) (unsettled : d.settledBy op = false)
    (owes : s.Owes d.who) : next.Owes d.who := by
  obtain ⟨removal, -, descs, told, -⟩ := spared op rfl
  generalize place : d.gid = gid at change found
  cases change with
  | quiet kind quiet => exact owes.ctrl quiet.ctrl
  | added =>
    refine GroupState.Owes.oweEach ?_
    exact owes
  | removed => exact absurd place.symm (removal _ rfl)
  | leftAlone => exact owes
  | left | accepted =>
    refine GroupState.Owes.oweEach ?_
    exact owes
  | sent joined quiet =>
    refine GroupState.Owes.ctrl ?_ quiet.ctrl
    exact owes.ctrl GroupState.ctrl_queueMessage
  | settled =>
    refine owes.settleState fun descs same => ?_
    rw [descs] at told unsettled
    have asked := told _ rfl (by rw [same, place])
    simp [Debt.settledBy, asked, same, place] at unsettled
  | asked => exact owes.owe
  | synced => exact (owes.ctrl (GroupState.quiet_confirmMember s _).ctrl).owe
  | unmoved read head push nothing quiet => exact owes.ctrl quiet.ctrl
  | updated read head rising push =>
    have none := descs _ (Op.mem_descs? read) _ head place.symm s found
    rw [push] at none
    exact absurd rfl none

theorem Puts.present (puts : Puts core place next after) (present : (core.groups.get? gid).isSome = true) :
    (after.groups.get? gid).isSome = true := by
  rw [puts.groups]
  split
  · rfl
  · exact present

theorem Effect.present (effect : Effect P core op after) (present : (core.groups.get? gid).isSome = true) :
    (after.groups.get? gid).isSome = true := by
  cases effect with
  | kept same => rwa [same.groups]
  | changed found change puts | began begins puts => exact Puts.present puts present

theorem Due.present_step (due : Due P core d.gid d.who) (spared : d.Spared P core (.perform faults op))
    (unforgotten : d.forgottenBy core faults op = false) :
    ((core.step P faults op).groups.get? d.gid).isSome = true := by
  obtain ⟨s, found⟩ := Option.isSome_iff_exists.mp due.present
  cases step_moves (P := P) core faults op with
  | effect effect groups =>
    rw [groups]
    exact Effect.present effect due.present
  | @dropped gid _ forget _ =>
    subst forget
    refine Option.isSome_iff_exists.mpr ⟨s, forget_found found fun done => ?_⟩
    simp only [Debt.forgottenBy, done, beq_eq_false_iff_ne] at unforgotten
    exact unforgotten
  | swept sweep same =>
    rw [same]
    obtain ⟨next, there, -⟩ := sweepRetention_found core _ found
    exact Option.isSome_iff_exists.mpr ⟨next, there⟩
  | flushed flush same =>
    rw [same, (flushAll_frame core _).1]
    exact due.present
  | restarted restart same =>
    subst restart
    obtain ⟨bytes, there, readable⟩ := (Option.any_eq_true _ _).mp ((spared _ rfl).2.2.2.2 rfl)
    obtain ⟨loaded, decoded, own⟩ := (Option.any_eq_true _ _).mp readable
    exact Option.isSome_iff_exists.mpr ⟨loaded, loaded_of_document there decoded (beq_iff_eq.mp own)⟩

theorem Due.step (due : Due P core d.gid d.who) (grounded : Grounded P core)
    (spared : d.Spared P core (.perform faults op)) (unsettled : d.settledBy op = false)
    (unforgotten : d.forgottenBy core faults op = false) : Due P (core.step P faults op) d.gid d.who where
  toTracked := by
    refine due.toTracked.moves grounded ?_ ?_ (grounded.sound.step faults op) (step_moves core faults op)
    · exact fun found owes change _ => owes_change change found spared unsettled owes
    -- A group that is there is not started.
    intro next begins _
    generalize place : d.gid = gid at begins
    cases begins with
    | created => exact absurd place.symm ((spared _ rfl).2.1 _ rfl)
    | invited read head unknown =>
      have present := due.present
      rw [place, unknown] at present
      contradiction
  present := due.present_step spared unforgotten

theorem due_removed (held : Held P GroupState.Single core)
    (done : (core.remove P faults gid who).2 = .ok notified) :
    Due P (core.step P faults (.remove gid who)) gid who := by
  have sound := held.sound.step faults (.remove gid who)
  rcases remove_cases (P := P) core gid who with ⟨e, refused⟩ | ⟨s, next, result, found, change, committed⟩
  · have same : core.remove P faults gid who = (core, .error e) := refused faults
    rw [same] at done
    contradiction
  have same : core.remove P faults gid who = core.commit faults gid next result := committed faults
  rw [same] at done
  simp only [step, same] at sound ⊢
  have puts := puts_commit core faults gid next result
  have there : (core.commit faults gid next result).1.groups.get? gid = some next := by
    rw [puts.groups, if_pos rfl]
  have storable := sound.groups gid next there
  have keyed : next.gid = gid := change.gid_eq.trans (held.keyed gid s found)
  have owes : next.Owes who := by
    cases change with
    | quiet => contradiction
    | removed =>
      refine owes_removed ?_ ?_
      · exact held.groups gid s found
      · simpa using storable.length_members
  refine ⟨⟨fun s found => ?_, fun bytes written => ?_⟩, by rw [there]; rfl⟩
  · rw [there] at found
    cases found
    exact owes
  · rw [commit_ok done, keyed, get?_insert_self] at written
    cases written
    exact ⟨next, storable, owes, rfl⟩

/-! ## Runs -/

structure World.Inv (P : Primitives) (w : World) : Prop where
  held : Held P GroupState.Single w.core
  due : ∀ d ∈ w.debts, Due P w.core d.gid d.who

theorem World.Inv.ask {w : World} (inv : w.Inv P) :
    World.Inv P { w with debts := w.debts.map (·.ask w.core peer) } where
  held := inv.held
  due := by
    intro d member
    obtain ⟨before, owed, rfl⟩ := mem_map.mp member
    have due := inv.due before owed
    unfold Debt.ask
    split
    · exact due
    · exact due

theorem due_opens (held : Held P GroupState.Single core) (opened : d ∈ opens P core faults op) :
    Due P (core.step P faults op) d.gid d.who := by
  cases op with
  | remove =>
    simp only [opens] at opened
    split at opened
    · rename_i done
      rw [mem_singleton.mp opened]
      exact due_removed held done
    · contradiction
  | _ => contradiction

theorem World.Inv.step {w next : World} (inv : w.Inv P) (undisturbed : Undisturbed P w event)
    (stepped : w.step P event = some next) : next.Inv P := by
  cases event with
  | ask peer =>
    cases stepped
    exact inv.ask
  | perform faults op =>
    cases stepped
    refine ⟨inv.held.step faults op (fun _ single change => change.single single) Begins.single, ?_⟩
    intro d member
    rcases mem_append.mp (mem_filter.mp member).1 with still | opened
    · obtain ⟨owed, stays⟩ := mem_filter.mp still
      simp only [Bool.and_eq_true, Bool.not_eq_true'] at stays
      exact (inv.due d owed).step inv.held.toGrounded (undisturbed d owed) stays.1 stays.2
    · exact due_opens inv.held opened

end Told

open Told in
/-- While the steps leave the open debts alone, a removed member is owed the
descriptors until an item handed out for them is settled, they are listed again, or
the group is forgotten. -/
theorem removed_member_is_told_of_undisturbed (P : Primitives) (key : B32) (maxMessageBytes : Nat)
    (settings : StoreSettings) (events : List Told.Event) (last : World)
    (undisturbed : Along (World.step P) (Undisturbed P) ⟨fresh P key maxMessageBytes settings, []⟩ events)
    (ran : run (World.step P) ⟨fresh P key maxMessageBytes settings, []⟩ events = some last) :
    last.Tells := by
  have start : World.Inv P ⟨fresh P key maxMessageBytes settings, []⟩ :=
    ⟨held_fresh key maxMessageBytes settings, by simp⟩
  have inv := invariant_of_run World.Inv.step start undisturbed ran
  intro d owed
  have due := inv.due d owed
  obtain ⟨s, found⟩ := Option.isSome_iff_exists.mp due.present
  exact ⟨s, found, due.memory s found⟩

namespace Sample

open Told

/-- A group of three; the guest is removed, and `later` follows. -/
def farewell (later : List Told.Event) : List Told.Event :=
  [.perform {} (.create gid "team" [(guest, ""), (other, "")] 1000),
    .perform {} (.settle guest (.descs gid) true), .perform {} (.remove gid guest)] ++ later

def toldWorld : World := ⟨core, []⟩

/-- The restart and the message between two others change nothing for the guest. -/
def calm : List Told.Event :=
  farewell [.perform {} (.send gid letter "hello" 1001), .perform {} (.settle other (.descs gid) true),
    .perform {} (.restart 1000), .ask guest]

/-- The other member is removed before the guest was told. -/
def purge : List Told.Event := farewell [.perform {} (.remove gid other)]

end Sample

theorem removed_member_is_told_of_calm :
    ∃ last, run (Told.World.step .checksum) toldWorld calm = some last ∧
      last.debts = [⟨gid, guest, true⟩] ∧ last.Tells := by
  have undisturbed : Along (Told.World.step .checksum) (Told.Undisturbed .checksum)
      toldWorld calm := by
    decide +kernel
  have shown : (run (Told.World.step .checksum) toldWorld calm).any (fun last =>
      last.debts = [⟨gid, guest, true⟩]) = true := by
    decide +kernel
  obtain ⟨last, ran, debts⟩ := exists_of_any shown
  exact ⟨last, ran, debts, removed_member_is_told_of_undisturbed _ _ _ _ _ last undisturbed ran⟩

/-- Removing somebody else drops what the guest is owed. -/
theorem removed_member_is_dropped :
    ∃ last, run (Told.World.step .checksum) toldWorld purge = some last ∧ ¬ last.Tells := by
  have shown : (run (Told.World.step .checksum) toldWorld purge).any (fun last =>
      last.debts.any (fun d => d.who == guest && (last.core.groups.get? d.gid).all (fun s =>
        s.ctrl.all (·.dest != guest)))) = true := by
    decide +kernel
  obtain ⟨last, ran, lost⟩ := (Option.any_eq_true _ _).mp shown
  refine ⟨last, ran, fun tells => ?_⟩
  obtain ⟨d, member, dropped⟩ := any_eq_true.mp lost
  simp only [Bool.and_eq_true, beq_iff_eq] at dropped
  obtain ⟨s, found, c, owed, dest, -⟩ := tells d member
  have nobody := dropped.2
  rw [found, Option.all_some, all_eq_true] at nobody
  have away := nobody c owed
  simp [dest, dropped.1] at away

end Miasma.Chat.Group
