import Miasma.Chat.Group.Delivery
import Miasma.Data.Keyed

namespace Miasma.Chat.Group

open Data GroupState List GroupCore Option UInt8

/-! # The delivery ledger

A result for a copy that is no longer owed is counted on top of the others. -/

variable {P : Primitives}

def owed (pending : List PendingMsg) (id : B16) : Nat :=
  (pending.find? (·.id = id)).elim 0 (·.dest.length)

/-- Every copy is delivered, given up or owed. -/
def Accounted (ledger : List LedgerEntry) (owed : B16 → Nat) : Prop :=
  ∀ e ∈ ledger, e.delivered.toNat + e.failed.toNat + owed e.id = e.total.toNat

structure GroupState.Balanced (s : GroupState) : Prop where
  entries : Distinct LedgerEntry.id s.ledger
  messages : Distinct PendingMsg.id s.pending
  copies : ∀ p ∈ s.pending, p.dest.Nodup
  accounted : Accounted s.ledger (owed s.pending)

theorem updateFirst_eq_map {α κ : Type} [DecidableEq κ] {key : α → κ} {list : List α}
    (distinct : Distinct key list) {k : κ} {f : α → α} :
    updateFirst (key · == k) f list =
      list.map (fun value => if key value = k then f value else value) := by
  rw [← distinct.updateFirst_eq_map]
  clear distinct
  induction list with
  | nil => rfl
  | cons first rest ih => simp only [updateFirst, Data.updateFirst, beq_iff_eq, ih]

/-! ## Pending copies -/

variable {remaining : PendingMsg → List B32}

section Pending

variable {pending : List PendingMsg} {p : PendingMsg} {id : B16}

theorem owed_cons : owed (p :: rest) id = if p.id = id then p.dest.length else owed rest id := by
  unfold owed
  by_cases same : p.id = id <;> simp [same]

theorem owed_of_absent (absent : ∀ p ∈ pending, p.id ≠ id) : owed pending id = 0 := by
  induction pending with
  | nil => rfl
  | cons p rest ih =>
    obtain ⟨first, later⟩ := forall_mem_cons.mp absent
    rw [owed_cons, if_neg first, ih later]

theorem owed_concat (fresh : ∀ held ∈ pending, held.id ≠ p.id) :
    owed (pending ++ [p]) id = if p.id = id then p.dest.length else owed pending id := by
  induction pending with
  | nil => rw [nil_append, owed_cons]
  | cons first rest ih =>
    obtain ⟨different, later⟩ := forall_mem_cons.mp fresh
    rw [cons_append, owed_cons, owed_cons, ih later]
    by_cases here : first.id = id
    · rw [if_pos here, if_neg (fun same => different (here.trans same.symm)), if_pos here]
    · rw [if_neg here, if_neg here]

/-- Each message with its members cut down to `remaining`; messages owed to
nobody go. -/
def shrink (remaining : PendingMsg → List B32) (pending : List PendingMsg) : List PendingMsg :=
  (pending.map (fun p => { p with dest := remaining p })).filter (!·.dest.isEmpty)

theorem mem_shrink (member : p ∈ shrink remaining pending) :
    ∃ held ∈ pending, held.id = p.id ∧ p.dest = remaining held := by
  obtain ⟨held, there, rfl⟩ := mem_map.mp (mem_of_mem_filter member)
  exact ⟨held, there, rfl, rfl⟩

section

variable (messages : Distinct PendingMsg.id pending)
include messages

theorem owed_of_mem (member : p ∈ pending) : owed pending p.id = p.dest.length := by
  unfold owed
  rw [messages.find?_eq_some_iff.mpr ⟨member, rfl⟩, elim_some]

theorem Distinct.shrink
    (remaining : PendingMsg → List B32) : Distinct PendingMsg.id (shrink remaining pending) :=
  (Data.Distinct.map messages (by intro; rfl)).filter

theorem owed_shrink :
    owed (shrink remaining pending) id =
      (pending.find? (·.id = id)).elim 0 (fun p => (remaining p).length) := by
  cases found : pending.find? (·.id = id) with
  | none =>
    refine owed_of_absent fun p member => ?_
    obtain ⟨held, there, same, -⟩ := mem_shrink member
    rw [← same]
    simpa using find?_eq_none.mp found held there
  | some held =>
    obtain ⟨there, rfl⟩ := messages.find?_eq_some_iff.mp found
    rw [elim_some]
    by_cases nobody : remaining held = []
    · rw [nobody]
      refine owed_of_absent fun p member same => ?_
      obtain ⟨other, inside, sameToo, dest⟩ := mem_shrink member
      have one := messages.unique inside there (sameToo.trans same)
      have some := (mem_filter.mp member).2
      rw [dest, one, nobody] at some
      contradiction
    · have member : { held with dest := remaining held } ∈ shrink remaining pending :=
        mem_filter.mpr ⟨mem_map_of_mem there, by simpa using nobody⟩
      exact owed_of_mem (Distinct.shrink messages remaining) member

theorem settlePending_eq (peer : B32) (id : B16) : settlePending pending peer id =
      shrink (fun p => if p.id = id then p.dest.filter (· != peer) else p.dest) pending := by
  have first : updateFirst (fun p : PendingMsg => p.id == id)
      (fun p => { p with dest := p.dest.filter (· != peer) }) pending =
      pending.map (fun p => { p with
        dest := if p.id = id then p.dest.filter (· != peer) else p.dest }) := by
    rw [updateFirst_eq_map messages]
    refine map_congr_left fun p _ => ?_
    split <;> rfl
  simp only [settlePending, shrink, first]

end

end Pending

/-! ## Counters -/

theorem toNat_saturatingAdd (fits : value.toNat + more.toNat ≤ 255) :
    (saturatingAdd value more).toNat = value.toNat + more.toNat := by
  rw [saturatingAdd, if_neg (Nat.not_lt.mpr fits), UInt8.toNat_add]
  exact Nat.mod_eq_of_lt (Nat.lt_succ_of_le fits)

/-- The change counts `n` more copies of a message as done with. -/
structure Counts (n : Nat) (change : LedgerEntry → LedgerEntry) : Prop where
  id : ∀ e, (change e).id = e.id
  total : ∀ e, (change e).total = e.total
  done : ∀ e, e.delivered.toNat + e.failed.toNat + n ≤ 255 →
    (change e).delivered.toNat + (change e).failed.toNat = e.delivered.toNat + e.failed.toNat + n

theorem counts_failed (n : UInt8) : Counts n.toNat (fun l => { l with failed := saturatingAdd l.failed n }) where
  id _ := rfl
  total _ := rfl
  done e fits := by
    have added : (saturatingAdd e.failed n).toNat = _ := toNat_saturatingAdd (by omega)
    simp only [added]
    omega

theorem counts_settled (delivered : Bool) : Counts 1 (fun l =>
    if delivered then { l with delivered := saturatingAdd l.delivered 1 }
    else { l with failed := saturatingAdd l.failed 1 }) := by
  cases delivered with
  | false => exact counts_failed 1
  | true =>
    refine ⟨fun _ => rfl, fun _ => rfl, fun e fits => ?_⟩
    have one : (1 : UInt8).toNat = 1 := rfl
    have added : (saturatingAdd e.delivered 1).toNat = _ := toNat_saturatingAdd (by omega)
    simp only [if_true, added]
    omega

namespace GroupState

variable {s : GroupState} {before after : B16 → Nat}

theorem ledger_changeLedger (entries : Distinct LedgerEntry.id s.ledger) {id : B16} :
    (s.changeLedger id change).ledger = s.ledger.map (fun e => if e.id = id then change e else e) := by
  have reversed : Distinct LedgerEntry.id s.ledger.reverse := by
    unfold Distinct at entries ⊢
    rw [map_reverse]
    exact nodup_reverse.mpr entries
  simp only [changeLedger]
  rw [updateFirst_eq_map reversed, map_reverse, reverse_reverse]

variable {change : LedgerEntry → LedgerEntry}

theorem entries_changeLedger (entries : Distinct LedgerEntry.id s.ledger) (id : B16)
    (counts : Counts n change) : Distinct LedgerEntry.id (s.changeLedger id change).ledger := by
  rw [ledger_changeLedger entries]
  refine entries.map fun e => ?_
  split
  · exact counts.id e
  · rfl

/-- `n` copies of the message `id` are done with. -/
theorem Accounted.changeLedger (accounted : Accounted s.ledger before)
    (entries : Distinct LedgerEntry.id s.ledger) {id : B16} (counts : Counts n change)
    (moved : (∃ e ∈ s.ledger, e.id = id) → before id = n + after id)
    (others : ∀ other, other ≠ id → before other = after other) :
    Accounted (s.changeLedger id change).ledger after := by
  rw [ledger_changeLedger entries]
  intro e member
  obtain ⟨held, there, rfl⟩ := mem_map.mp member
  have balance := accounted held there
  have small := held.total.toNat_lt
  split
  · rename_i same
    have moved := moved ⟨held, there, same⟩
    rw [same] at balance
    rw [counts.id, counts.total, same, counts.done held (by omega)]
    omega
  · rename_i different
    rwa [← others held.id different]

def lost (dropped : List (B16 × UInt8)) (id : B16) : Nat :=
  ((dropped.filter (·.1 = id)).map (·.2.toNat)).sum

theorem lost_cons {id : B16} :
    lost (entry :: rest) id = (if entry.1 = id then entry.2.toNat else 0) + lost rest id := by
  unfold lost
  by_cases same : entry.1 = id <;> simp [same]

theorem accounted_noteFailed (entries : Distinct LedgerEntry.id s.ledger)
    (accounted : Accounted s.ledger before) (moved : ∀ id, before id = lost dropped id + after id) :
    Distinct LedgerEntry.id (s.noteFailed dropped).ledger ∧ Accounted (s.noteFailed dropped).ledger after := by
  -- What the entries still to come give up counts as owed until then.
  induction dropped generalizing s before with
  | nil =>
    refine ⟨entries, fun e member => ?_⟩
    have same := moved e.id
    simp only [lost, filter_nil, map_nil, sum_nil, Nat.zero_add] at same
    rw [← same]
    exact accounted e member
  | cons entry rest ih =>
    have counts := counts_failed entry.2
    refine ih (entries_changeLedger entries entry.1 counts)
      (Accounted.changeLedger accounted entries counts (fun _ => ?_) fun other different => ?_) fun id => rfl
    · rw [moved, lost_cons, if_pos rfl]
      omega
    · rw [moved, lost_cons, if_neg (Ne.symm different)]
      omega

theorem lost_dropped {pending : List PendingMsg} (messages : Distinct PendingMsg.id pending)
    (small : ∀ p ∈ pending, p.dest.length ≤ maxMembers) {id : B16} :
    lost (pending.filterMap (fun p =>
      if p.dest.length - (remaining p).length > 0 then
        some (p.id, ofNat (p.dest.length - (remaining p).length)) else none)) id =
      (pending.find? (·.id = id)).elim 0 (fun p => p.dest.length - (remaining p).length) := by
  induction pending with
  | nil => rfl
  | cons p rest ih =>
    obtain ⟨fresh, messages⟩ := Data.Distinct.cons_iff.mp messages
    obtain ⟨here, later⟩ := forall_mem_cons.mp small
    have byte : (ofNat (p.dest.length - (remaining p).length)).toNat = p.dest.length - (remaining p).length := by
      simp only [maxMembers] at here
      exact Nat.mod_eq_of_lt (by omega)
    rw [filterMap_cons, find?_cons]
    by_cases same : p.id = id
    · -- The message is found here, so nothing later gives up copies of it.
      have absent : rest.find? (·.id = id) = none :=
        find?_eq_none.mpr fun held there => by simpa [← same] using fresh held there
      have nothing := ih messages later
      rw [absent, elim_none] at nothing
      split
      · rename_i none
        simp only [ite_eq_right_iff, reduceCtorEq, imp_false] at none
        simp only [same, decide_true, elim_some, nothing]
        omega
      · rename_i entry some
        simp only [ite_none_right_eq_some] at some
        rw [← Option.some.inj some.2, lost_cons, if_pos same, nothing, byte]
        simp [same]
    · simp only [same, decide_false]
      rw [← ih messages later]
      split
      · rfl
      rename_i entry some
      simp only [ite_none_right_eq_some] at some
      rw [← Option.some.inj some.2, lost_cons, if_neg same, Nat.zero_add]

/-! ## The operations on one group -/

variable {next : GroupState}

theorem Balanced.same (balanced : s.Balanced) (pending : next.pending = s.pending)
    (ledger : next.ledger = s.ledger) : next.Balanced where
  entries := ledger ▸ balanced.entries
  messages := pending ▸ balanced.messages
  copies := pending ▸ balanced.copies
  accounted := by
    rw [pending, ledger]
    exact balanced.accounted

theorem Balanced.prune (balanced : s.Balanced) (small : ∀ p ∈ s.pending, p.dest.length ≤ maxMembers) :
    s.prune.Balanced := by
  have pending : s.prune.pending = shrink (fun p =>
      p.dest.filter (fun t => (s.chain.latest.members.map Member.id).contains t)) s.pending := pending_prune s
  have moved : ∀ id, owed s.pending id = lost (s.pending.filterMap (fun p =>
      if p.dest.length - (p.dest.filter (fun t =>
        (s.chain.latest.members.map Member.id).contains t)).length > 0 then
        some (p.id, ofNat (p.dest.length - (p.dest.filter (fun t =>
          (s.chain.latest.members.map Member.id).contains t)).length)) else none)) id +
      owed s.prune.pending id := by
    intro id
    rw [pending, owed_shrink balanced.messages, lost_dropped balanced.messages small, owed]
    cases s.pending.find? (·.id = id) with
    | none => rfl
    | some p =>
      have fewer := length_filter_le (fun t => (s.chain.latest.members.map Member.id).contains t) p.dest
      simp only [elim_some]
      omega
  obtain ⟨entries, accounted⟩ := accounted_noteFailed (s := { s with pending := s.prune.pending })
    balanced.entries balanced.accounted moved
  refine ⟨?_, ?_, ?_, ?_⟩
  · rw [pending] at entries
    exact entries
  · rw [pending]
    exact Distinct.shrink balanced.messages _
  · rw [pending]
    intro p member
    obtain ⟨held, there, -, dest⟩ := mem_shrink member
    rw [dest]
    exact (balanced.copies held there).filter _
  · rw [pending] at accounted ⊢
    exact accounted

theorem Balanced.queueMessage (balanced : s.Balanced) {id : B16} (nodup : recipients.Nodup)
    (few : recipients.length ≤ maxMembers) (newMessage : ∀ p ∈ s.pending, p.id ≠ id)
    (newEntry : ∀ e ∈ s.ledger, e.id ≠ id) : (s.queueMessage id text now recipients).Balanced := by
  simp only [GroupState.queueMessage]
  split
  · exact balanced.same rfl rfl
  have part : ∀ kept : List LedgerEntry, kept.Sublist s.ledger →
      Distinct LedgerEntry.id (kept ++ [⟨id, ofNat recipients.length, 0, 0⟩]) ∧
      Accounted (kept ++ [⟨id, ofNat recipients.length, 0, 0⟩])
        (owed (s.pending ++ [⟨id, s.myCounter + 1, s.chain.latest.epoch, now, text, recipients⟩])) := by
    intro kept part
    refine ⟨(balanced.entries.sublist part).concat fun held there => newEntry held (part.subset there), ?_⟩
    intro e member
    rw [owed_concat newMessage]
    rcases mem_snoc.mp member with old | rfl
    · rw [if_neg (newEntry e (part.subset old)).symm]
      exact balanced.accounted e (part.subset old)
    rw [if_pos rfl, toNat_ofNat']
    simp only [maxMembers] at few
    rw [Nat.mod_eq_of_lt (by omega : recipients.length < 2 ^ 8)]
    exact Nat.zero_add _
  have room : (if s.ledger.length ≥ maxLedger then s.ledger.tail else s.ledger).Sublist s.ledger := by
    split
    · exact tail_sublist _
    · exact Sublist.refl _
  obtain ⟨entries, accounted⟩ := part _ room
  exact ⟨entries, balanced.messages.concat newMessage, forall_mem_snoc balanced.copies nodup, accounted⟩

theorem Balanced.settleText (balanced : s.Balanced) (gid : B16) {id : B16} (delivered : Bool)
    (waiting : (∃ e ∈ s.ledger, e.id = id) → ∃ p ∈ s.pending, p.id = id ∧ peer ∈ p.dest) :
    (settleState s peer (.text gid id) delivered).Balanced := by
  have settled := settlePending_eq balanced.messages peer id
  have cut : ({ s with pending := settlePending s.pending peer id } : GroupState).Quiet (if delivered then
        (({ s with pending := settlePending s.pending peer id } : GroupState).confirm peer).1
      else { s with pending := settlePending s.pending peer id }) := by
    split
    · exact quiet_confirm _ peer
    · exact .refl
  simp only [settleState]
  generalize (if delivered then
      (({ s with pending := settlePending s.pending peer id } : GroupState).confirm peer).1
    else { s with pending := settlePending s.pending peer id }) = mid at cut ⊢
  have pending : mid.pending = _ := cut.pending.trans settled
  have ledger : mid.ledger = s.ledger := cut.ledger
  have entries : Distinct LedgerEntry.id mid.ledger := ledger ▸ balanced.entries
  have counts := counts_settled delivered
  refine ⟨entries_changeLedger entries id counts, ?_, ?_, ?_⟩
  · simp only [changeLedger, pending]
    exact Distinct.shrink balanced.messages _
  · simp only [changeLedger, pending]
    intro p member
    obtain ⟨held, there, -, dest⟩ := mem_shrink member
    rw [dest]
    split
    · exact (balanced.copies held there).filter _
    · exact balanced.copies held there
  have after : (mid.changeLedger id (fun l =>
      if delivered then { l with delivered := saturatingAdd l.delivered 1 }
      else { l with failed := saturatingAdd l.failed 1 })).pending = mid.pending := rfl
  rw [after, pending]
  refine Accounted.changeLedger (ledger.symm ▸ balanced.accounted) entries counts ?_ ?_
  · rintro ⟨e, member, same⟩
    obtain ⟨p, there, rfl, copy⟩ := waiting ⟨e, ledger ▸ member, same⟩
    rw [owed_shrink balanced.messages, balanced.messages.find?_eq_some_iff.mpr ⟨there, rfl⟩,
      owed_of_mem balanced.messages there]
    have one := (balanced.copies p there).erase_eq_filter peer
    simp only [elim_some, if_true, ← one, length_erase_of_mem copy]
    have some := length_pos_of_mem copy
    omega
  · intro other different
    rw [owed_shrink balanced.messages, owed]
    cases found : s.pending.find? (·.id = other) with
    | none => rfl
    | some p =>
      obtain ⟨there, rfl⟩ := balanced.messages.find?_eq_some_iff.mp found
      simp only [elim_some, if_neg different]

theorem standing_rest {own peer : B32} {trusted autoJoin : Bool} :
    (standing s own peer trusted autoJoin).1.pending = s.pending ∧
      (standing s own peer trusted autoJoin).1.ledger = s.ledger := by
  have cleared := quiet_confirmMember { s with confirmed := [] } peer
  simp only [standing]
  split
  · exact ⟨rfl, rfl⟩
  · exact ⟨rfl, rfl⟩
  · exact ⟨rfl, rfl⟩
  · exact ⟨rfl, rfl⟩
  · exact ⟨rfl, rfl⟩
  split
  · split
    · simp only [becomeMember, pending_oweEach, ledger_oweEach]
      exact ⟨cleared.pending, cleared.ledger⟩
    · exact ⟨cleared.pending, cleared.ledger⟩
  · exact ⟨rfl, rfl⟩

end GroupState

namespace GroupCore

/-! ## The condition on the steps -/

def Op.report? : Op → Option (B32 × B16 × B16)
  | .settle peer (.text gid id) _ => some (peer, gid, id)
  | _ => none

def Op.message? : Op → Option (B16 × B16)
  | .send gid id _ _ => some (gid, id)
  | _ => none

/-- A result comes while the copy it is about is still owed, and the ID of a new
message is not in use in its group. -/
@[reducible] def Timely (core : GroupCore) (op : Op) : Prop :=
  (∀ report ∈ op.report?, ∀ s ∈ core.groups.get? report.2.1,
    (∃ e ∈ s.ledger, e.id = report.2.2) → ∃ p ∈ s.pending, p.id = report.2.2 ∧ report.1 ∈ p.dest) ∧
  (∀ message ∈ op.message?, ∀ s ∈ core.groups.get? message.1,
    (∀ p ∈ s.pending, p.id ≠ message.2) ∧ ∀ e ∈ s.ledger, e.id ≠ message.2)

variable {core : GroupCore} {op : Op} {gid : B16} {s next : GroupState}

theorem nodup_others (storable : s.Storable P) {own : B32} : (s.others own).Nodup := by
  obtain ⟨root, full, history⟩ := storable.rooted
  exact (history.items_valid s.chain.latest (getLast_mem s.chain.nonempty)).1.distinct.filter _

theorem Change.balanced (change : Change P core op gid s next) (found : core.groups.get? gid = some s)
    (timely : core.Timely op) (storable : s.Storable P) (balanced : s.Balanced) : next.Balanced := by
  cases change with
  | quiet kind quiet => exact balanced.same quiet.pending quiet.ledger
  | added =>
    exact balanced.same (pending_oweEach _ _ _ _) (ledger_oweEach _ _ _ _)
  | removed =>
    refine Balanced.same ?_ (pending_oweEach _ _ _ _) (ledger_oweEach _ _ _ _)
    exact Balanced.prune (balanced.same rfl rfl) storable.dests
  | leftAlone => exact balanced.same rfl rfl
  | left | accepted =>
    exact balanced.same (pending_oweEach _ _ _ _) (ledger_oweEach _ _ _ _)
  | sent joined quiet =>
    obtain ⟨newMessage, newEntry⟩ := timely.2 _ rfl s found
    exact (balanced.queueMessage (nodup_others storable) (storable.length_others _) newMessage
      newEntry).same quiet.pending quiet.ledger
  | @settled peer work delivered s =>
    cases work with
    | descs | sync | hist => exact balanced.same rfl rfl
    | text gid => exact balanced.settleText gid delivered (timely.1 _ rfl s found)
  | asked =>
    exact balanced.same (pending_owe _ _ _ _) (ledger_owe _ _ _ _)
  | synced =>
    have quiet := quiet_confirmMember s
    exact balanced.same ((pending_owe _ _ _ _).trans (quiet _).pending) ((ledger_owe _ _ _ _).trans (quiet _).ledger)
  | unmoved read head push nothing quiet => exact balanced.same quiet.pending quiet.ledger
  | @updated peer plain now trusted s ds chain =>
    have told := quiet_confirmMember { s with chain := chain } peer
    obtain ⟨pending, ledger⟩ := standing_rest
    have pending := pending.trans told.pending
    refine Balanced.prune (balanced.same pending (ledger.trans told.ledger)) ?_
    rw [pending]
    exact storable.dests

theorem Begins.balanced (begins : Begins P core op gid next) : next.Balanced := by
  have new : ∀ {s : GroupState}, s.pending = [] → s.ledger = [] → s.Balanced := by
    intro s pending ledger
    refine ⟨?_, ?_, ?_, ?_⟩
    · rw [ledger]
      exact Distinct.nil
    · rw [pending]
      exact Distinct.nil
    · simp [pending]
    · simp [ledger, Accounted]
  cases begins with
  | created =>
    exact new (pending_oweEach _ _ _ _) (ledger_oweEach _ _ _ _)
  | @invited peer plain now trusted ds chain =>
    have told := GroupState.quiet_confirm { GroupState.new chain (.pending peer) with lastMs := now } peer
    simp only [invitedGroup]
    split
    · exact new ((pending_oweEach _ _ _ _).trans told.pending) ((ledger_oweEach _ _ _ _).trans told.ledger)
    · exact new told.pending told.ledger

end GroupCore

/-! ## Items handed out and reported -/

namespace Handout

open GroupCore

/-- A device with the items that were handed out and not reported yet. -/
structure World where
  core : GroupCore
  out : List (B32 × Work)

inductive Event where
  | take (peer : B32)
  | report (faults : Faults) (peer : B32) (work : Work) (delivered : Bool)
  | perform (faults : Faults) (op : Op)

def Op.isSettle : Op → Bool
  | .settle _ _ _ => true
  | _ => false

/-- Only items that were handed out are reported, each once. -/
def World.step (P : Primitives) (w : World) : Event → Option World
  | .take peer =>
    some { w with out := w.out ++ ((w.core.nextFor peer).map (fun item => (peer, item.work))).toList }
  | .report faults peer work delivered =>
    if (peer, work) ∈ w.out then
      some ⟨w.core.step P faults (.settle peer work delivered), w.out.erase (peer, work)⟩
    else none
  | .perform faults op => if Op.isSettle op then none else some { w with core := w.core.step P faults op }

def Event.op? : Event → Option Op
  | .take _ => none
  | .report _ peer work delivered => some (.settle peer work delivered)
  | .perform _ op => some op

def Prompt (w : World) (event : Event) : Prop := ∀ op ∈ event.op?, w.core.Timely op

instance (w : World) (event : Event) : Decidable (Prompt w event) :=
  inferInstanceAs (Decidable (∀ op ∈ event.op?, w.core.Timely op))

def World.Balances (w : World) : Prop :=
  ∀ gid s, w.core.groups.get? gid = some s → Accounted s.ledger (owed s.pending)

theorem held_step (held : Held P Balanced core) (timely : core.Timely op) :
    Held P Balanced (core.step P faults op) :=
  held.step faults op
    (fun found balanced change => change.balanced found timely (held.sound.groups _ _ found) balanced)
    Begins.balanced

theorem World.held_step {next : World} (held : Held P Balanced w.core) (prompt : Prompt w event)
    (stepped : w.step P event = some next) : Held P Balanced next.core := by
  cases event with
  | take =>
    cases stepped
    exact held
  | report faults =>
    simp only [World.step, ite_none_right_eq_some] at stepped
    cases stepped.2
    exact Handout.held_step held (prompt _ rfl)
  | perform faults =>
    simp only [World.step, ite_none_left_eq_some] at stepped
    cases stepped.2
    exact Handout.held_step held (prompt _ rfl)

end Handout

open Handout

open Handout in
/-- In every run in which a result comes while the copy is still owed, and new
messages have new IDs, every ledger entry adds up. -/
theorem ledger_adds_up_of_prompt (P : Primitives) (key : B32) (maxMessageBytes : Nat)
    (settings : StoreSettings) (events : List Handout.Event) (last : World)
    (prompt : Along (World.step P) Prompt ⟨fresh P key maxMessageBytes settings, []⟩ events)
    (ran : run (World.step P) ⟨fresh P key maxMessageBytes settings, []⟩ events = some last) :
    last.Balances := by
  have held := invariant_of_run (I := fun w => w.core.Held P Balanced) World.held_step
    (held_fresh key maxMessageBytes settings) prompt ran
  exact fun gid s found => (held.groups gid s found).accounted

namespace Sample

open Handout

/-- A group of three is told and sent a message, and the guest's copy is handed
out; `later` follows. -/
def errand (later : List Handout.Event) : List Handout.Event :=
  [.perform {} (.create gid "team" [(guest, ""), (other, "")] 1000),
    .take guest, .report {} guest (.descs gid) true, .take other, .report {} other (.descs gid) true,
    .perform {} (.send gid letter "hello" 1001), .take guest] ++ later

def handoutWorld : World := ⟨core, []⟩

/-- The copy is delivered, then the other member, who has not got theirs, goes. -/
def prompt : List Handout.Event := errand [.report {} guest (.text gid letter) true, .perform {} (.remove gid other)]

/-- The guest is removed while the copy is on its way. -/
def late : List Handout.Event := errand [.perform {} (.remove gid guest), .report {} guest (.text gid letter) true]

end Sample

open Group.Sample

theorem ledger_adds_up_in_prompt :
    ∃ last, run (World.step .checksum) Sample.handoutWorld Sample.prompt = some last ∧
      (last.core.groups.get? gid).any (fun s => s.ledger = [⟨letter, 2, 1, 1⟩]) = true ∧
      last.Balances := by
  have prompt : Along (World.step .checksum) Prompt Sample.handoutWorld Sample.prompt := by
    decide +kernel
  have shown : (run (World.step .checksum) Sample.handoutWorld Sample.prompt).any
      (fun last => (last.core.groups.get? gid).any (fun s =>
        s.ledger = [⟨letter, 2, 1, 1⟩])) = true := by
    decide +kernel
  obtain ⟨last, ran, entry⟩ := (any_eq_true _ _).mp shown
  exact ⟨last, ran, entry, ledger_adds_up_of_prompt _ _ _ _ _ last prompt ran⟩

/-- The guest's copy is counted as failed and as delivered. -/
theorem late_result_counted_twice :
    ∃ last, run (World.step .checksum) Sample.handoutWorld late = some last ∧
      last.out = [] ∧ ¬ last.Balances := by
  have shown : (run (World.step .checksum) Sample.handoutWorld late).any
      (fun last => last.out = [] ∧ (last.core.groups.get? gid).any (fun s =>
        s.ledger = [⟨letter, 2, 1, 1⟩] ∧ owed s.pending letter = 1)) = true := by
    decide +kernel
  obtain ⟨last, ran, reported, entry⟩ := exists_of_any shown
  obtain ⟨s, found, ledger, left⟩ := exists_of_any entry
  refine ⟨last, ran, reported, fun balances => ?_⟩
  have sum := balances gid s found ⟨letter, 2, 1, 1⟩ (by rw [ledger]; exact mem_cons_self)
  rw [left] at sum
  exact absurd sum (by decide)

end Miasma.Chat.Group
