import Miasma.Data.Run
import Miasma.Data.SortedMap
import Miasma.Transfer.Manifest

namespace Miasma.Replication

open Data Network Transfer SortedMap List

/-! The replication queue and its write-ahead log (`daemon/replication.rs`).

Each call changes the items in memory and appends entries that `applyEntry` replays.
`Lawful` excludes two calls: promotion clears an attempt count that its entry does not carry,
and an attempt that ends late may degrade a replicated item. -/

structure RetryPolicy where
  maxAttempts : UInt32
  /-- The exponential delay with its jitter, from the attempt count and the time. -/
  nextAttemptSecs : UInt32 → Nat → Nat

inductive ItemState where
  | pending
  | degraded
  | replicated
deriving DecidableEq

structure PendingReplication where
  midStr : String
  record : DhtRecord
  publishedAt : Nat
  attemptCount : UInt32
  lastAttemptSecs : Nat
  nextAttemptSecs : Nat
  state : ItemState
  promotionGeneration : UInt32
  manifest : Option TransferManifest
  manifestV4 : Option ManifestV4
deriving DecidableEq

inductive WalEntry where
  | snapshot (item : PendingReplication)
  | push (item : PendingReplication)
  | ack (digest : B32)
  | attempt (digest : B32) (attemptCount : UInt32) (lastAttemptSecs nextAttemptSecs : Nat) (state : ItemState)
  | promote (digest : B32) (nextAttemptSecs : Nat) (promotionGeneration : UInt32)

abbrev Items := SortedMap B32 PendingReplication

/-- `if let Some(item) = items.get_mut(digest)`. -/
def Items.modify (items : Items) (digest : B32) (f : PendingReplication → PendingReplication) : Items :=
  match items.get? digest with
  | some item => items.insert digest (f item)
  | none => items

def applyEntry (items : Items) : WalEntry → Items
  | .snapshot item | .push item => items.insert item.record.midDigest item
  | .ack digest => items.modify digest ({ · with state := .replicated })
  | .attempt digest attemptCount lastAttemptSecs nextAttemptSecs state =>
    items.modify digest ({ · with attemptCount, lastAttemptSecs, nextAttemptSecs, state })
  | .promote digest nextAttemptSecs promotionGeneration =>
    items.modify digest ({ · with state := .pending, nextAttemptSecs, promotionGeneration })

def replay (wal : List WalEntry) : Items := wal.foldl applyEntry .empty

structure ReplicationQueue where
  items : Items
  wal : List WalEntry
  appendedSinceCompact : Nat
  policy : RetryPolicy

def compactThreshold : Nat := 200

namespace ReplicationQueue

variable (q : ReplicationQueue)

def compact : ReplicationQueue := { q with wal := q.items.values.map .snapshot, appendedSinceCompact := 0 }

def load (policy : RetryPolicy) (wal : List WalEntry) : ReplicationQueue := compact ⟨replay wal, wal, 0, policy⟩

def appendWal (entry : WalEntry) : ReplicationQueue :=
  let q := { q with wal := q.wal ++ [entry], appendedSinceCompact := q.appendedSinceCompact + 1 }
  if compactThreshold ≤ q.appendedSinceCompact then q.compact else q

def push (item : PendingReplication) : ReplicationQueue :=
  { q with items := q.items.insert item.record.midDigest item }.appendWal (.push item)

def markReplicated (digest : B32) : ReplicationQueue := match q.items.get? digest with
  | some item =>
    if item.state ≠ .replicated then
      { q with items := q.items.insert digest { item with state := .replicated } }.appendWal (.ack digest)
    else q
  | none => q

def attempted (policy : RetryPolicy) (now : Nat) (item : PendingReplication) : PendingReplication :=
  let item := { item with attemptCount := item.attemptCount + 1, lastAttemptSecs := now }
  if policy.maxAttempts ≤ item.attemptCount then { item with state := .degraded, nextAttemptSecs := 2 ^ 64 - 1 }
  else { item with nextAttemptSecs := policy.nextAttemptSecs item.attemptCount now }

def recordAttempt (digest : B32) (now : Nat) : ReplicationQueue × ItemState := match q.items.get? digest with
  | none => (q, .pending)
  | some item =>
    let item := attempted q.policy now item
    ({ q with items := q.items.insert digest item }.appendWal
      (.attempt digest item.attemptCount item.lastAttemptSecs item.nextAttemptSecs item.state), item.state)

/-- The degraded items to promote; `listed` is the order in which the hash map lists its values. -/
def candidates (listed : List PendingReplication) (budget : Nat) : List B32 :=
  let order := (listed.filter (·.state = .degraded)).mergeSort fun one two =>
    one.promotionGeneration < two.promotionGeneration ∨
      one.promotionGeneration = two.promotionGeneration ∧ one.publishedAt ≤ two.publishedAt
  (order.take budget).map (·.record.midDigest)

def promoted (now : Nat) (item : PendingReplication) : PendingReplication := { item with
  state := .pending
  promotionGeneration := item.promotionGeneration + 1
  attemptCount := 0
  nextAttemptSecs := now }

/-- The entry for a candidate, from the items before the promotion. -/
def promotion (items : Items) (now : Nat) (digest : B32) : Option WalEntry :=
  (items.get? digest).map fun item => .promote digest now (item.promotionGeneration + 1)

/-- The candidates are distinct, so each is promoted once. -/
def promoteDegraded (listed : List PendingReplication) (budget now : Nat) : ReplicationQueue :=
  let chosen := candidates listed budget
  let items := q.items.map fun item => if item.record.midDigest ∈ chosen then promoted now item else item
  (chosen.filterMap (promotion q.items now)).foldl appendWal { q with items }

def updateRecord (record : DhtRecord) : ReplicationQueue := match q.items.get? record.midDigest with
  | none => q
  | some item => q.push { item with record }

def updateRecordAndRequeue (record : DhtRecord) (now : Nat) : ReplicationQueue :=
  match q.items.get? record.midDigest with
  | none => q
  | some item => q.push { item with record, state := .pending, attemptCount := 0, nextAttemptSecs := now }

end ReplicationQueue

inductive Op where
  | push (item : PendingReplication)
  | markReplicated (digest : B32)
  | recordAttempt (digest : B32) (now : Nat)
  | promoteDegraded (listed : List PendingReplication) (budget now : Nat)
  | updateRecord (record : DhtRecord)
  | updateRecordAndRequeue (record : DhtRecord) (now : Nat)

def ReplicationQueue.step (q : ReplicationQueue) : Op → Option ReplicationQueue
  | .push item => some (q.push item)
  | .markReplicated digest => some (q.markReplicated digest)
  | .recordAttempt digest now => some (q.recordAttempt digest now).1
  | .promoteDegraded listed budget now =>
    if listed.Perm q.items.values then some (q.promoteDegraded listed budget now) else none
  | .updateRecord record => some (q.updateRecord record)
  | .updateRecordAndRequeue record now => some (q.updateRecordAndRequeue record now)

/-- The call puts the content back into the queue. -/
def Op.Requeues : Op → B32 → Prop
  | .push item, digest => item.record.midDigest = digest
  | .updateRecordAndRequeue record _, digest => record.midDigest = digest
  | _, _ => False

/-- An attempt on a replicated item stays below the limit, and what is promoted has no attempts. -/
def Lawful (q : ReplicationQueue) : Op → Prop
  | .recordAttempt digest _ => ∀ item ∈ q.items.get? digest, item.state = .replicated →
    ¬ q.policy.maxAttempts ≤ item.attemptCount + 1
  | .promoteDegraded listed budget _ => ∀ digest ∈ ReplicationQueue.candidates listed budget,
    ∀ item ∈ q.items.get? digest, item.attemptCount = 0
  | _ => True

instance (q : ReplicationQueue) : (op : Op) → Decidable (Lawful q op)
  | .recordAttempt .. | .promoteDegraded .. => inferInstanceAs (Decidable (∀ _ ∈ _, _))
  | .push _ | .markReplicated _ | .updateRecord _ | .updateRecordAndRequeue .. => .isTrue trivial

/-! ## Replay -/

def Items.Keyed (items : Items) : Prop := ∀ digest item, items.get? digest = some item → item.record.midDigest = digest

variable {items : Items} {digest other : B32} {item : PendingReplication}

theorem Items.Keyed.insert (keyed : items.Keyed) (key : item.record.midDigest = digest) :
    Items.Keyed (insert items digest item) := by
  intro other held found
  rw [get?_insert] at found
  grind [Items.Keyed]

theorem Items.get?_modify :
    (items.modify digest f).get? other = if other = digest then (items.get? digest).map f else items.get? other := by
  unfold Items.modify
  split <;> grind [get?_insert]

theorem applyEntry_keyed (keyed : items.Keyed) (entry : WalEntry) : (applyEntry items entry).Keyed := by
  have modified : ∀ digest f, (∀ item, (f item).record = item.record) → (items.modify digest f).Keyed := by
    intro digest f same
    unfold Items.modify
    split
    · exact keyed.insert ((congrArg _ (same _)).trans (keyed digest _ ‹_›))
    · exact keyed
  cases entry with
  | snapshot | push => exact keyed.insert rfl
  | ack | attempt | promote => exact modified _ _ fun _ => rfl

theorem replay_keyed : (replay wal).Keyed :=
  foldlRecOn wal applyEntry (motive := Items.Keyed) (fun _ _ found => by cases found)
    fun _ keyed entry _ => applyEntry_keyed keyed entry

theorem replay_snapshots (keyed : items.Keyed) : replay (items.values.map .snapshot) = items := by
  rw [replay, values, map_map, foldl_map]
  conv_rhs => rw [← items.ofList_entries]
  refine foldl_ext _ _ _ fun before entry inside => ?_
  rw [← keyed entry.1 entry.2 (get?_eq_some_iff.mpr inside)]
  rfl

namespace ReplicationQueue

variable {q next : ReplicationQueue} {now budget : Nat} {listed : List PendingReplication}

structure Synced (q : ReplicationQueue) : Prop where
  replays : replay q.wal = q.items
  keyed : q.items.Keyed

@[simp] theorem appendWal_items : (q.appendWal entry).items = q.items := by
  unfold appendWal
  dsimp only
  split <;> rfl

/-- The log goes on with the entry, or is compacted to what is in memory. -/
theorem replay_appendWal (keyed : q.items.Keyed) :
    replay (q.appendWal entry).wal = q.items ∨ replay (q.appendWal entry).wal = applyEntry (replay q.wal) entry := by
  unfold appendWal
  dsimp only
  split
  · exact .inl (replay_snapshots keyed)
  · exact .inr (by rw [replay, foldl_append]; rfl)

/-- Entries of a promotion are appended until the log says what is in memory everywhere; a
compaction on the way says it at once. -/
theorem synced_promotions {chosen : List B32} (keyed : q.items.Keyed)
    (target : ∀ digest ∈ chosen, q.items.get? digest = (items.get? digest).map (promoted now))
    (fresh : ∀ digest ∈ chosen, ∀ item ∈ items.get? digest, item.attemptCount = 0)
    (said : ∀ key, (replay q.wal).get? key = q.items.get? key ∨
      key ∈ chosen ∧ (replay q.wal).get? key = items.get? key) :
    let last := (chosen.filterMap (promotion items now)).foldl appendWal q
    last.Synced ∧ last.items = q.items := by
  induction chosen generalizing q with
  | nil => exact ⟨⟨ext_get? fun key => (said key).resolve_right (by simp), keyed⟩, rfl⟩
  | cons digest rest ih =>
    simp only [forall_mem_cons] at target fresh
    cases found : items.get? digest with
    | none =>
      have skipped : promotion items now digest = none := by rw [promotion, found]; rfl
      rw [filterMap_cons_none skipped]
      exact ih keyed target.2 fresh.2 fun key => by grind
    | some item =>
      have logged : promotion items now digest = some (.promote digest now (item.promotionGeneration + 1)) := by
        rw [promotion, found]
        rfl
      rw [filterMap_cons_some logged, foldl_cons]
      generalize entry : WalEntry.promote digest now (item.promotionGeneration + 1) = promote
      rw [← appendWal_items (q := q)] at keyed target ⊢
      refine ih keyed target.2 fresh.2 fun key => ?_
      rw [appendWal_items] at keyed target ⊢
      rcases replay_appendWal keyed with compacted | longer
      · exact .inl (by rw [compacted])
      rw [longer, ← entry, applyEntry, Items.get?_modify]
      grind [promoted]

theorem mem_candidates (chosen : digest ∈ candidates listed budget) :
    ∃ item ∈ listed, item.state = .degraded ∧ item.record.midDigest = digest := by
  obtain ⟨item, taken, same⟩ := mem_map.mp chosen
  obtain ⟨inside, degraded⟩ := mem_filter.mp (mem_mergeSort.mp (mem_of_mem_take taken))
  exact ⟨item, inside, of_decide_eq_true degraded, same⟩

theorem promotes (synced : q.Synced)
    (fresh : ∀ digest ∈ candidates listed budget, ∀ item ∈ q.items.get? digest, item.attemptCount = 0) :
    (q.promoteDegraded listed budget now).Synced ∧ ∀ digest, (q.promoteDegraded listed budget now).items.get? digest =
      (q.items.get? digest).map fun item => if digest ∈ candidates listed budget then promoted now item else item := by
  have looked : ∀ digest, (q.items.map fun item => if item.record.midDigest ∈ candidates listed budget
        then promoted now item else item).get? digest =
      (q.items.get? digest).map fun item => if digest ∈ candidates listed budget then promoted now item else item := by
    intro digest
    rw [get?_map]
    exact Option.map_congr fun item found => by rw [synced.keyed digest item found]
  have keyed : Items.Keyed (q.items.map fun item => if item.record.midDigest ∈ candidates listed budget
      then promoted now item else item) := by
    intro digest item found
    obtain ⟨held, there, rfl⟩ := Option.map_eq_some_iff.mp ((looked digest).symm.trans found)
    have := synced.keyed digest held there
    grind [promoted]
  obtain ⟨after, same⟩ := synced_promotions (q := { q with items := _ }) keyed
    (fun digest inside => (looked digest).trans (by simp only [if_pos inside]; rfl)) fresh
    (fun key => by
      rw [synced.replays]
      by_cases inside : key ∈ candidates listed budget
      · exact .inr ⟨inside, rfl⟩
      · exact .inl ((looked key).trans (by simp [inside])).symm)
  exact ⟨after, fun digest => (congrArg (get? · digest) same).trans (looked digest)⟩

/-! ## One call -/

/-- What a call other than a promotion logs is what it does in memory. -/
theorem step_logs (stepped : q.step op = some next)
    (single : ∀ listed budget now, op ≠ .promoteDegraded listed budget now) (lawful : Lawful q op) :
    next = q ∨ ∃ entry, next = { q with items := applyEntry q.items entry }.appendWal entry ∧
      ∀ digest item, q.items.get? digest = some item → item.state = .replicated → ¬ op.Requeues digest →
        ∃ after, (applyEntry q.items entry).get? digest = some after ∧ after.state = .replicated := by
  cases op with
  | push pushed =>
    cases stepped
    refine .inr ⟨.push pushed, rfl, ?_⟩
    grind [applyEntry, get?_insert, Op.Requeues]
  | markReplicated key =>
    cases stepped
    unfold markReplicated
    split
    · split
      · refine .inr ⟨.ack key, by simp only [applyEntry, Items.modify, *], ?_⟩
        grind [applyEntry, Items.get?_modify]
      · exact .inl rfl
    · exact .inl rfl
  | recordAttempt key now =>
    cases stepped
    unfold recordAttempt
    split
    · exact .inl rfl
    rename_i held there
    generalize after : attempted q.policy now held = item
    have fields : item = { held with
        attemptCount := item.attemptCount
        lastAttemptSecs := item.lastAttemptSecs
        nextAttemptSecs := item.nextAttemptSecs
        state := item.state } := by
      rw [← after, attempted]
      split <;> rfl
    refine .inr ⟨.attempt key item.attemptCount item.lastAttemptSecs item.nextAttemptSecs item.state, ?_, ?_⟩
    · simp only [applyEntry, Items.modify, there, ← fields]
    · grind [applyEntry, Items.get?_modify, attempted, Lawful]
  | promoteDegraded listed budget now => exact absurd rfl (single listed budget now)
  | updateRecord =>
    cases stepped
    unfold updateRecord
    split
    · exact .inl rfl
    refine .inr ⟨.push _, rfl, ?_⟩
    grind [applyEntry, get?_insert]
  | updateRecordAndRequeue =>
    cases stepped
    unfold updateRecordAndRequeue
    split
    · exact .inl rfl
    refine .inr ⟨.push _, rfl, ?_⟩
    grind [applyEntry, get?_insert, Op.Requeues]

theorem step_spec (synced : q.Synced) (lawful : Lawful q op) (stepped : q.step op = some next) :
    next.Synced ∧ ∀ digest item, q.items.get? digest = some item → item.state = .replicated → ¬ op.Requeues digest →
      ∃ after, next.items.get? digest = some after ∧ after.state = .replicated := by
  by_cases many : ∃ listed budget now, op = .promoteDegraded listed budget now
  · obtain ⟨listed, budget, now, rfl⟩ := many
    obtain ⟨shuffled, same⟩ := Option.ite_none_right_eq_some.mp stepped
    cases same
    obtain ⟨after, result⟩ := promotes synced lawful
    refine ⟨after, fun digest item found done _ => ⟨item, ?_, done⟩⟩
    -- A replicated item is no candidate.
    have passed : digest ∉ candidates listed budget := by
      intro chosen
      obtain ⟨held, inside, degraded, same⟩ := mem_candidates chosen
      obtain ⟨key, there⟩ := mem_values_iff.mp (shuffled.mem_iff.mp inside)
      have := synced.keyed key held there
      grind
    simp [result, found, passed]
  · rcases step_logs stepped (fun listed budget now same => many ⟨listed, budget, now, same⟩) lawful with
      rfl | ⟨entry, rfl, replicated⟩
    · exact ⟨synced, fun digest item found done _ => ⟨item, found, done⟩⟩
    have keyed := applyEntry_keyed synced.keyed entry
    refine ⟨⟨?_, by rwa [appendWal_items]⟩, by rwa [appendWal_items]⟩
    rw [appendWal_items]
    exact (replay_appendWal keyed).elim id fun longer => by rw [longer, synced.replays]

end ReplicationQueue

open ReplicationQueue

/-- In every run of lawful calls, loading the log gives the items in memory, and a lawful call
takes no item out of `Replicated` unless it puts that content back into the queue. -/
theorem wal_refines_queue_of_lawful (policy : RetryPolicy) (wal : List WalEntry) (ops : List Op) (q : ReplicationQueue)
    (lawful : Along step Lawful (load policy wal) ops) (ran : run step (load policy wal) ops = some q) :
    (load policy q.wal).items = q.items ∧ ∀ op next digest item, Lawful q op → q.step op = some next →
      q.items.get? digest = some item → item.state = .replicated → ¬ op.Requeues digest →
      ∃ after, next.items.get? digest = some after ∧ after.state = .replicated := by
  have start : (load policy wal).Synced := ⟨replay_snapshots replay_keyed, replay_keyed⟩
  have synced : q.Synced :=
    invariant_of_run (fun synced met stepped => (step_spec synced met stepped).1) start lawful ran
  exact ⟨synced.replays, fun op next digest item met stepped => (step_spec synced met stepped).2 digest item⟩

namespace Sample

def content (byte : UInt8) (state : ItemState) (attemptCount : UInt32) (last next : Nat) : PendingReplication :=
  ⟨"mid", ⟨.fill 32 byte, 2, 3, 1, [], 100⟩, 100, attemptCount, last, next, state, 0, none, none⟩

def queue (maxAttempts : UInt32) : ReplicationQueue := load ⟨maxAttempts, fun _ now => now + 5⟩ []

/-- The item degrades with its first attempt and is promoted again. -/
def revived : List Op := [.push (content 1 .pending 0 0 100), .recordAttempt (.fill 32 1) 105,
  .promoteDegraded [content 1 .degraded 1 105 (2 ^ 64 - 1)] 1 110]

/-- The attempt ends after the item was replicated. -/
def late : List Op := [.push (content 1 .pending 0 0 100), .markReplicated (.fill 32 1),
  .recordAttempt (.fill 32 1) 105]

/-- One item is replicated, the other one is tried. -/
def calm : List Op := [.push (content 1 .pending 0 0 100), .push (content 2 .pending 0 0 100),
  .markReplicated (.fill 32 1), .recordAttempt (.fill 32 2) 105]

/-- An attempt on the replicated item, below the limit. -/
def retry : Op := .recordAttempt (.fill 32 1) 110

end Sample

open Sample

theorem wal_refines_queue_of_calm : ∃ q next, run step (queue 3) calm = some q ∧
    (load (queue 3).policy q.wal).items = q.items ∧ q.step retry = some next ∧
      ∃ after, next.items.get? (.fill 32 1) = some after ∧ after.state = .replicated := by
  have met : Along step Lawful (queue 3) calm := by decide +kernel
  have observed : (run step (queue 3) calm).any (fun q => Lawful q retry ∧ (q.step retry).isSome ∧
      (q.items.get? (.fill 32 1)).any (·.state = .replicated)) = true := by decide +kernel
  obtain ⟨q, ran, lawful, goes, done⟩ := exists_of_any observed
  obtain ⟨next, stepped⟩ := Option.isSome_iff_exists.mp goes
  obtain ⟨item, found, replicated⟩ := exists_of_any done
  obtain ⟨same, keeps⟩ := wal_refines_queue_of_lawful _ [] calm q met ran
  exact ⟨q, next, ran, same, stepped, keeps retry next _ item lawful stepped found replicated id⟩

/-- After the promotion the log still has the attempt, and the late attempt degrades the item. -/
theorem log_differs_and_replicated_degrades :
    (run step (queue 1) revived).any (fun q => (load q.policy q.wal).items ≠ q.items) = true ∧
      (run step (queue 1) (late.take 2)).any (fun q =>
        (q.items.get? (.fill 32 1)).any (·.state = .replicated)) = true ∧
      (run step (queue 1) late).any (fun q => (q.items.get? (.fill 32 1)).any (·.state = .degraded)) = true := by
  decide +kernel

end Miasma.Replication
