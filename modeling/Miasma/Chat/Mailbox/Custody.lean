import Miasma.Chat.Mailbox.Holder
import Miasma.Data.Keyed
import Miasma.Data.Run
import Mathlib.Algebra.Order.BigOperators.Group.List

namespace Miasma.Chat.Mailbox

open Data SnapshotItem List MemoryCustody Mailbox.Inner

/-! The accounts of the custody store: `Accounted` says that the counters are the sums over the
items, `Within` that the sums keep the limits. -/

def weigh (f : SnapshotItem → Nat) (records : List SnapshotItem) : Nat := (records.map f).sum

@[simp] theorem weigh_append : weigh f (front ++ back) = weigh f front + weigh f back := by
  simp [weigh]

@[simp] theorem weigh_singleton : weigh f [record] = f record := by
  simp [weigh]

theorem weigh_le_of_sublist (sub : part.Sublist records) : weigh f part ≤ weigh f records :=
  (sub.map f).sum_le_sum (fun _ _ => Nat.zero_le _)

namespace SnapshotItem

def size (record : SnapshotItem) : Nat := record.blob.length

def countFor (depositor : B32) (record : SnapshotItem) : Nat := if record.depositor = depositor then 1 else 0

def sizeFor (depositor : B32) (record : SnapshotItem) : Nat :=
  if record.depositor = depositor then record.size else 0

end SnapshotItem

open SnapshotItem (size countFor sizeFor)

def share (records : List SnapshotItem) (depositor : B32) : Option (Nat × Nat) :=
  if weigh (countFor depositor) records = 0 then none
  else some (weigh (countFor depositor) records, weigh (sizeFor depositor) records)

theorem sizeFor_eq_zero {depositor : B32} (none : weigh (countFor depositor) records = 0) :
    weigh (sizeFor depositor) records = 0 := by
  induction records with
  | nil => rfl
  | cons record rest ih =>
    have split : weigh (countFor depositor) (record :: rest) =
      countFor depositor record + weigh (countFor depositor) rest := by simp [weigh]
    rw [split] at none
    have foreign : record.depositor ≠ depositor := by
      intro own
      simp [countFor, own] at none
    have later := ih (by omega)
    simp only [weigh, map_cons, sum_cons, sizeFor, if_neg foreign, Nat.zero_add]
    exact later

structure Within (limits : CustodyLimits) (records : List SnapshotItem) : Prop where
  items : records.length ≤ limits.maxItems
  bytes : weigh size records ≤ limits.maxTotalBytes
  counts : ∀ depositor, weigh (countFor depositor) records ≤ limits.maxItemsPerDepositor
  shares : ∀ depositor, weigh (sizeFor depositor) records ≤ limits.maxBytesPerDepositor
  sizes : ∀ record ∈ records, record.blob ≠ [] ∧ record.size ≤ limits.maxItemBytes

theorem Within.sublist {limits : CustodyLimits} (within : Within limits records)
    (sub : part.Sublist records) : Within limits part where
  items := sub.length_le.trans within.items
  bytes := (weigh_le_of_sublist sub).trans within.bytes
  counts depositor := (weigh_le_of_sublist sub).trans (within.counts depositor)
  shares depositor := (weigh_le_of_sublist sub).trans (within.shares depositor)
  sizes record member := within.sizes record (sub.subset member)

namespace Inner

variable {inner next : Inner} {limits : CustodyLimits} {key : RecipientTag × ItemId} {now : UInt64}

def records (inner : Inner) : List SnapshotItem := inner.items.map ofEntry

structure Accounted (inner : Inner) : Prop where
  distinct : Distinct SnapshotItem.key inner.records
  bytes : inner.bytes = weigh size inner.records
  shares : ∀ depositor, inner.perDepositor.get? depositor = share inner.records depositor
  ordered : inner.items.Pairwise (·.2.order < ·.2.order)
  below : ∀ entry ∈ inner.items, entry.2.order < inner.nextOrder

theorem Accounted.empty : empty.Accounted := ⟨Distinct.nil, rfl, fun _ => rfl, .nil, nofun⟩

namespace Accounted

theorem used (accounted : inner.Accounted) (depositor : B32) : inner.used depositor =
      (weigh (countFor depositor) inner.records, weigh (sizeFor depositor) inner.records) := by
  simp only [Inner.used, accounted.shares, share]
  split
  · rename_i none
    rw [none, sizeFor_eq_zero none]
    rfl
  · rfl

theorem contents (accounted : inner.Accounted) : inner.contents = inner.records := by
  have sorted : inner.items.Pairwise (·.2.order ≤ ·.2.order) :=
    accounted.ordered.imp fun {_ _} below => Nat.le_of_lt below
  rw [Inner.contents, sorted.insertionSort_eq]
  rfl

end Accounted

/-! Removing. -/

theorem records_filter (keep : SnapshotItem → Bool) (entries : List ((RecipientTag × ItemId) × Held)) :
    (entries.filter (fun entry => keep (.ofEntry entry))).map ofEntry = (entries.map ofEntry).filter keep :=
  (filter_map ..).symm

theorem find_eq_some (found : inner.find key = some h) : (key, h) ∈ inner.items := by
  obtain ⟨⟨other, held⟩, hit, rfl⟩ := Option.map_eq_some_iff.mp found
  have same : other = key := by simpa using find?_some hit
  exact same ▸ mem_of_find?_eq_some hit

theorem find_eq_none (absent : inner.find key = none) : ∀ entry ∈ inner.items, entry.1 ≠ key := by
  intro entry member same
  have none := Option.map_eq_none_iff.mp absent
  simpa [same] using find?_eq_none.mp none entry member

theorem filter_of_absent (absent : ∀ entry ∈ inner.items, entry.1 ≠ key) :
    inner.items.filter (·.1 ≠ key) = inner.items :=
  filter_eq_self.mpr fun entry member => by simpa using absent entry member

theorem remove_items (inner : Inner) :
    (inner.remove key).1.items = inner.items.filter (·.1 ≠ key) ∧
      (inner.remove key).1.nextOrder = inner.nextOrder := by
  unfold remove
  split
  · rename_i absent
    exact ⟨(filter_of_absent (find_eq_none absent)).symm, rfl⟩
  · exact ⟨rfl, rfl⟩

section

variable (accounted : inner.Accounted)
include accounted

theorem weigh_remove (found : inner.find key = some h) (f : SnapshotItem → Nat) :
    weigh f (inner.records.filter fun record => record.key ≠ key) + f (.ofEntry (key, h)) = weigh f inner.records :=
  accounted.distinct.sum_remove (mem_map_of_mem (find_eq_some found))

theorem shares_remove (found : inner.find key = some h) (depositor : B32) :
    (inner.remove key).1.perDepositor.get? depositor =
      share (inner.records.filter (·.key ≠ key)) depositor := by
  have counts := weigh_remove accounted found (countFor depositor)
  have sizes := weigh_remove accounted found (sizeFor depositor)
  have held := accounted.shares h.depositor
  simp only [remove, found]
  by_cases own : h.depositor = depositor
  · subst own
    have one : countFor h.depositor (.ofEntry (key, h)) = 1 := if_pos rfl
    have length : sizeFor h.depositor (.ofEntry (key, h)) = h.blob.length := if_pos rfl
    have some : weigh (countFor h.depositor) inner.records ≠ 0 := by omega
    rw [share, if_neg some] at held
    rw [held, share]
    dsimp only
    split
    · rw [if_pos (by omega), SortedMap.get?_erase, if_pos rfl]
    rw [if_neg (by omega), SortedMap.get?_insert_self]
    congr 2 <;> omega
  · have zero : countFor depositor (.ofEntry (key, h)) = 0 := if_neg own
    have nothing : sizeFor depositor (.ofEntry (key, h)) = 0 := if_neg own
    rw [zero, Nat.add_zero] at counts
    rw [nothing, Nat.add_zero] at sizes
    have same : share (inner.records.filter fun record => record.key ≠ key) depositor =
        share inner.records depositor := by
      rw [share, share, counts, sizes]
    rw [same, ← accounted.shares depositor]
    have different : depositor ≠ h.depositor := fun equal => own equal.symm
    split
    · rfl
    split
    · rw [SortedMap.get?_erase, if_neg different]
    · rw [SortedMap.get?_insert_of_ne different]

theorem Accounted.remove : (inner.remove key).1.Accounted := by
  obtain ⟨items, order⟩ := inner.remove_items
  have records : (inner.remove key).1.records = inner.records.filter (·.key ≠ key) := by
    rw [records, items]
    exact records_filter (·.key ≠ key) inner.items
  cases found : inner.find key with
  | none => simpa [Inner.remove, found] using accounted
  | some h =>
    have weighs := weigh_remove accounted found size
    refine ⟨?_, ?_, ?_, ?_, ?_⟩
    · rw [records]
      exact accounted.distinct.filter
    · have bytes : (inner.remove key).1.bytes = inner.bytes - h.blob.length := by
        simp [Inner.remove, found]
      rw [bytes, records, accounted.bytes, ← weighs]
      exact (Nat.add_sub_cancel ..)
    · rw [records]
      exact shares_remove accounted found
    · rw [items]
      exact accounted.ordered.filter _
    · rw [items, order]
      exact fun entry member => accounted.below entry (mem_of_mem_filter member)

theorem Accounted.removeEach {keys : List (RecipientTag × ItemId)} :
    (keys.foldl (fun inner key => (inner.remove key).1) inner).Accounted ∧
      (keys.foldl (fun inner key => (inner.remove key).1) inner).items =
        inner.items.filter (·.1 ∉ keys) := by
  induction keys generalizing inner with
  | nil => exact ⟨accounted, by simp⟩
  | cons key keys ih =>
    obtain ⟨rest, items⟩ := ih (accounted.remove)
    refine ⟨rest, ?_⟩
    rw [foldl_cons, items, (inner.remove_items).1, filter_filter]
    congr 1
    funext entry
    simp [Bool.and_comm]

theorem Accounted.removeWhere : (inner.removeWhere gone).1.Accounted ∧
      (inner.removeWhere gone).1.items = inner.items.filter (!gone ·.2) := by
  obtain ⟨after, items⟩ := accounted.removeEach
  refine ⟨after, items.trans (filter_congr ?_)⟩
  intro entry member
  -- A key is picked exactly when its only item is.
  have picked : entry.1 ∈ (inner.items.filter (gone ·.2)).map Prod.fst ↔ gone entry.2 = true := by
    constructor
    · intro listed
      obtain ⟨other, hit, same⟩ := mem_map.mp listed
      obtain ⟨held, yes⟩ := mem_filter.mp hit
      have keys : Distinct Prod.fst inner.items := by
        have distinct := accounted.distinct
        rwa [Distinct, records, map_map] at distinct
      rwa [keys.unique held member same] at yes
    · intro yes
      exact mem_map_of_mem (mem_filter.mpr ⟨member, yes⟩)
  cases verdict : gone entry.2 <;> simp [picked, verdict]

theorem Accounted.sweep : (inner.sweep now).1.Accounted ∧
      (inner.sweep now).1.records = inner.records.filter (now < ·.expiresMs) := by
  obtain ⟨after, items⟩ := accounted.removeWhere
  refine ⟨after, ?_⟩
  have kept : (fun entry : (RecipientTag × ItemId) × Held => !decide (entry.2.expiresMs ≤ now)) =
      fun entry => decide (now < (ofEntry entry).expiresMs) := by
    funext entry
    rw [← decide_not]
    exact decide_eq_decide.mpr UInt64.not_le
  change ((inner.removeWhere _).1.items).map _ = _
  rw [items, kept]
  exact records_filter (fun record => decide (now < record.expiresMs)) inner.items

end

/-! Adding. -/

theorem Accounted.add (accounted : inner.Accounted) (depositor : B32) (blob : Bytes)
    (expiresMs : UInt64) (absent : ∀ record ∈ inner.records, record.key ≠ key) :
    (inner.add key depositor blob expiresMs).Accounted ∧ (inner.add key depositor blob expiresMs).records =
        inner.records ++ [⟨key.1, key.2, depositor, expiresMs, blob⟩] := by
  have entries : ∀ entry ∈ inner.items, entry.1 ≠ key := fun entry member => absent _ (mem_map_of_mem member)
  have items : (inner.add key depositor blob expiresMs).items =
      inner.items ++ [(key, ⟨depositor, blob, expiresMs, inner.nextOrder⟩)] := by
    rw [Inner.add, filter_of_absent entries]
  have records : (inner.add key depositor blob expiresMs).records =
      inner.records ++ [⟨key.1, key.2, depositor, expiresMs, blob⟩] := by
    rw [records, items, map_append]
    rfl
  have used := accounted.used depositor
  refine ⟨⟨?_, ?_, ?_, ?_, ?_⟩, records⟩
  · rw [records]
    exact accounted.distinct.concat absent
  · rw [records, weigh_append, weigh_singleton, ← accounted.bytes]
    rfl
  · intro other
    rw [records, share]
    simp only [weigh_append, weigh_singleton]
    by_cases own : depositor = other
    · subst own
      simp only [Inner.add, used, SortedMap.get?_insert_self, countFor, sizeFor, size, if_true]
      rw [if_neg (by omega)]
    · have different : other ≠ depositor := fun equal => own equal.symm
      simp only [Inner.add, SortedMap.get?_insert_of_ne different, countFor, sizeFor, if_neg own, Nat.add_zero]
      exact accounted.shares other
  · rw [items]
    refine pairwise_append.mpr ⟨accounted.ordered, pairwise_singleton _ _, ?_⟩
    intro entry member last here
    cases mem_singleton.mp here
    exact accounted.below entry member
  · rw [items]
    exact forall_mem_snoc (fun entry old => Nat.lt_succ_of_lt (accounted.below entry old)) (Nat.lt_succ_self _)

theorem Within.concat (accounted : inner.Accounted) (within : Within limits inner.records)
    (sized : record.blob ≠ [] ∧ record.size ≤ limits.maxItemBytes)
    (budget : inner.overBudget limits record.depositor record.size = false)
    (room : inner.isFull limits record.size = false) : Within limits (inner.records ++ [record]) := by
  have used := accounted.used record.depositor
  simp only [overBudget, used, Bool.or_eq_false_iff, decide_eq_false_iff_not] at budget
  simp only [isFull, Bool.or_eq_false_iff, decide_eq_false_iff_not] at room
  refine ⟨?_, ?_, ?_, ?_, ?_⟩
  · simp only [length_append, length_singleton, records, length_map]
    omega
  · rw [weigh_append, weigh_singleton, ← accounted.bytes]
    omega
  · intro depositor
    have old := within.counts depositor
    simp only [weigh_append, weigh_singleton, countFor]
    split
    · rename_i own
      subst own
      omega
    · omega
  · intro depositor
    have old := within.shares depositor
    simp only [weigh_append, weigh_singleton, sizeFor]
    split
    · rename_i own
      subst own
      omega
    · omega
  · exact forall_mem_snoc within.sizes sized

theorem admits_of_within (accounted : inner.Accounted) (within : Within limits (inner.records ++ [record])) :
    inner.overBudget limits record.depositor record.size = false ∧ inner.isFull limits record.size = false := by
  have used := accounted.used record.depositor
  have count := within.counts record.depositor
  have bytes := within.shares record.depositor
  have items := within.items
  have total := within.bytes
  simp only [weigh_append, weigh_singleton, countFor, sizeFor, if_true] at count bytes
  simp only [length_append, length_singleton, records, length_map] at items
  simp only [weigh_append, weigh_singleton, ← accounted.bytes] at total
  simp only [overBudget, isFull, used, Bool.or_eq_false_iff, decide_eq_false_iff_not]
  omega

/-- A record that `readmit` admits is not held already. -/
def Fresh (limits : CustodyLimits) (now : UInt64) (inner : Inner) (record : SnapshotItem) : Prop :=
  record.keeps limits now = true → inner.overBudget limits record.depositor record.blob.length = false →
    inner.isFull limits record.blob.length = false → inner.find record.key = none

instance : Decidable (Fresh limits now inner record) := inferInstanceAs (Decidable (_ → _))

structure Booked (limits : CustodyLimits) (inner : Inner) : Prop extends Accounted inner where
  within : Within limits inner.records

namespace Booked

theorem empty (limits : CustodyLimits) : Booked limits empty :=
  ⟨Accounted.empty, ⟨Nat.zero_le _, Nat.zero_le _, fun _ => Nat.zero_le _, fun _ => Nat.zero_le _, nofun⟩⟩

theorem add (record : SnapshotItem) (booked : Booked limits inner)
    (sized : record.blob ≠ [] ∧ record.size ≤ limits.maxItemBytes)
    (budget : inner.overBudget limits record.depositor record.size = false)
    (room : inner.isFull limits record.size = false)
    (absent : ∀ held ∈ inner.records, held.key ≠ record.key) :
    Booked limits (inner.add record.key record.depositor record.blob record.expiresMs) ∧
      (inner.add record.key record.depositor record.blob record.expiresMs).records = inner.records ++ [record] := by
  obtain ⟨accounted, records⟩ := booked.toAccounted.add record.depositor record.blob record.expiresMs absent
  refine ⟨⟨accounted, ?_⟩, records⟩
  rw [records]
  exact Within.concat booked.toAccounted booked.within sized budget room

theorem sized_of_keeps {record : SnapshotItem} (kept : record.keeps limits now = true) :
    record.blob ≠ [] ∧ record.size ≤ limits.maxItemBytes := by
  simp only [keeps, Bool.and_eq_true, Bool.not_eq_true', isEmpty_eq_false_iff, decide_eq_true_eq] at kept
  exact ⟨kept.1.2, kept.2⟩

section

variable (booked : Booked limits inner)
include booked

theorem of_sublist (accounted : next.Accounted) (sub : next.records.Sublist inner.records) : Booked limits next :=
  ⟨accounted, booked.within.sublist sub⟩

theorem removeWhere (gone : Held → Bool) : Booked limits (inner.removeWhere gone).1 := by
  obtain ⟨accounted, items⟩ := booked.toAccounted.removeWhere
  refine booked.of_sublist accounted ?_
  rw [records, items]
  exact filter_sublist.map _

theorem remove : Booked limits (inner.remove key).1 := by
  refine booked.of_sublist (booked.toAccounted.remove) ?_
  rw [records, (inner.remove_items).1]
  exact filter_sublist.map _

theorem readmit (fresh : inner.Fresh limits now record) : Booked limits (inner.readmit limits now record) := by
  unfold Inner.readmit
  split
  · exact booked
  rename_i kept
  have kept : record.keeps limits now = true := by simpa using kept
  split
  · exact booked
  rename_i admitted
  simp only [Bool.or_eq_true, not_or, Bool.not_eq_true] at admitted
  have absent : ∀ held ∈ inner.records, held.key ≠ record.key :=
    forall_mem_map.mpr (find_eq_none (fresh kept admitted.1 admitted.2))
  exact (booked.add record (sized_of_keeps kept) admitted.1 admitted.2 absent).1

end

theorem readmitEach {records : List SnapshotItem} (booked : Booked limits inner)
    (fresh : Along (fun inner record => some (inner.readmit limits now record)) (Fresh limits now) inner records) :
    Booked limits (records.foldl (Inner.readmit limits now) inner) := by
  induction records generalizing inner with
  | nil => exact booked
  | cons record rest ih => exact ih (booked.readmit fresh.1) fresh.2

theorem readmit_all (now : UInt64) (records : List SnapshotItem) (booked : Booked limits inner)
    (distinct : Distinct SnapshotItem.key (inner.records ++ records))
    (within : Within limits (inner.records ++ records)) :
    Booked limits (records.foldl (Inner.readmit limits now) inner) ∧
      (records.foldl (Inner.readmit limits now) inner).records =
        inner.records ++ records.filter (now < ·.expiresMs) := by
  induction records generalizing inner with
  | nil => exact ⟨booked, by simp⟩
  | cons record rest ih =>
    have sized := within.sizes record (by simp)
    have single : (inner.records ++ [record]).Sublist (inner.records ++ record :: rest) :=
      (Sublist.refl _).append (by simp)
    have skip : (inner.records ++ rest).Sublist (inner.records ++ record :: rest) :=
      (Sublist.refl _).append (sublist_cons_self _ _)
    by_cases live : now < record.expiresMs
    · have kept : record.keeps limits now = true := by
        simpa [keeps, live, size] using sized
      obtain ⟨budget, room⟩ := admits_of_within booked.toAccounted (within.sublist single)
      have absent : ∀ held ∈ inner.records, held.key ≠ record.key := by
        intro held member same
        have keys := distinct.sublist single
        rw [Distinct, map_append] at keys
        exact (nodup_append.mp keys).2.2 _ (mem_map_of_mem member) _ (by simp) same
      obtain ⟨after, grown⟩ := booked.add record sized budget room absent
      have taken : inner.readmit limits now record =
          inner.add record.key record.depositor record.blob record.expiresMs := by
        rw [Inner.readmit, kept, if_neg (by simp)]
        simp only [size] at budget room
        rw [budget, room, if_neg (by simp)]
      have appended : inner.records ++ [record] ++ rest = inner.records ++ record :: rest := by
        simp
      obtain ⟨whole, records⟩ := ih after (by rw [grown, appended]; exact distinct)
        (by rw [grown, appended]; exact within)
      rw [foldl_cons, taken]
      refine ⟨whole, ?_⟩
      rw [records, grown, filter_cons_of_pos (by simpa using live)]
      simp
    · have dropped : inner.readmit limits now record = inner := by
        simp [Inner.readmit, keeps, live]
      rw [foldl_cons, dropped, filter_cons_of_neg (by simpa using live)]
      exact ih booked (distinct.sublist skip) (within.sublist skip)

end Booked

end Inner

/-! ## Snapshots read back -/

namespace SnapshotItem

theorem reads_encode (fits : record.size < 2 ^ 32) : Reads read record.encode record := by
  have length : (UInt32.ofNat record.blob.length).toNat = record.blob.length := Nat.mod_eq_of_lt fits
  refine reads_arr.bind (reads_arr.bind
    (reads_arr.bind (reads_u64.bind (reads_u32.bind ?_))))
  rw [length]
  exact reads_bytes.map _

theorem readEach_encode {records : List SnapshotItem} (fits : ∀ record ∈ records, record.size < 2 ^ 32) :
    readEach records.length (records.flatMap encode) = records := by
  induction records with
  | nil => rfl
  | cons record rest ih =>
    have first := reads_encode (fits record mem_cons_self) (rest.flatMap encode)
    have later := ih (fun other member => fits other (mem_cons_of_mem _ member))
    simp only [length_cons, flatMap_cons, readEach, first, later]

end SnapshotItem

namespace MemoryCustody

variable {s next last : MemoryCustody} {who : B32} {tag : RecipientTag} {item : ItemId}
  {blob : Bytes} {now : UInt64}

/-- The ceilings that the settings cannot raise. -/
structure Hard (limits : CustodyLimits) : Prop where
  item : limits.maxItemBytes ≤ maxItemBytes
  total : limits.maxTotalBytes ≤ hardMaxTotalBytes
  items : limits.maxItems ≤ hardMaxItems
  ttl : limits.ttlMs ≤ hardMaxTtlMs

theorem hard_clamped {limits : CustodyLimits} : Hard limits.clamped :=
  { item := Nat.min_le_right _ _
    total := Nat.min_le_right _ _
    items := Nat.min_le_right _ _
    ttl := by
      change (if limits.ttlMs ≤ hardMaxTtlMs then limits.ttlMs else hardMaxTtlMs) ≤ hardMaxTtlMs
      split
      · assumption
      · exact UInt64.le_refl _ }

structure Kept (s : MemoryCustody) : Prop where
  hard : Hard s.limits
  booked : s.inner.Booked s.limits

theorem Kept.readAll_snapshot (kept : s.Kept) : SnapshotItem.readAll s.snapshot = s.inner.records := by
  have contents := kept.booked.toAccounted.contents
  have few : s.inner.records.length < 2 ^ 32 := by
    have items := kept.booked.within.items.trans kept.hard.items
    simp only [hardMaxItems] at items
    omega
  have fits : ∀ record ∈ s.inner.records, record.size < 2 ^ 32 := by
    intro record member
    have size := (kept.booked.within.sizes record member).2.trans kept.hard.item
    exact Nat.lt_of_le_of_lt size (by decide)
  have count : (UInt32.ofNat s.inner.records.length).toNat = s.inner.records.length := Nat.mod_eq_of_lt few
  simp only [readAll, snapshot, contents, reads_u8 snapshotVersion _, ne_eq,
    not_true_eq_false, if_false, reads_u32 _, count]
  exact readEach_encode fits

theorem Kept.restore_snapshot (kept : s.Kept) (now : UInt64) : (s.restore s.snapshot now).inner.Booked s.limits ∧
      (s.restore s.snapshot now).inner.records = s.inner.records.filter (now < ·.expiresMs) := by
  have whole := Inner.Booked.readmit_all now s.inner.records (Inner.Booked.empty s.limits)
    kept.booked.distinct kept.booked.within
  rw [restore, kept.readAll_snapshot]
  exact whole

/-! ## The verbs -/

theorem sweep_records (kept : s.Kept) (now : UInt64) :
    (s.sweep now).1.inner.Accounted ∧ (s.sweep now).1.inner.records =
      s.inner.records.filter (now < ·.expiresMs) :=
  kept.booked.toAccounted.sweep

theorem Kept.sweep (kept : s.Kept) (now : UInt64) : (s.sweep now).1.Kept :=
  ⟨kept.hard, kept.booked.removeWhere (·.expiresMs ≤ now)⟩

theorem deposit_cases (s : MemoryCustody) :
    (∃ e, s.deposit who tag item blob now = (s, .error e)) ∨
      (∃ answer, s.deposit who tag item blob now = ((s.sweep now).1, answer)) ∨
      (blob ≠ [] ∧ blob.length ≤ s.limits.maxItemBytes ∧ (s.sweep now).1.inner.find (tag, item) = none ∧
        (s.sweep now).1.inner.overBudget s.limits who blob.length = false ∧
        (s.sweep now).1.inner.isFull s.limits blob.length = false ∧
        s.deposit who tag item blob now = (⟨s.limits, s.trusted,
          (s.sweep now).1.inner.add (tag, item) who blob (expiry now s.limits.ttlMs)⟩,
          .ok .stored)) := by
  unfold deposit
  split
  · exact .inl ⟨_, rfl⟩
  split
  · exact .inl ⟨_, rfl⟩
  rename_i sized
  simp only [not_or, Nat.not_lt] at sized
  dsimp only
  split
  · exact .inr (.inl ⟨_, rfl⟩)
  rename_i absent
  split
  · exact .inr (.inl ⟨_, rfl⟩)
  rename_i budget
  split
  · exact .inr (.inl ⟨_, rfl⟩)
  rename_i room
  exact .inr (.inr ⟨sized.1, sized.2, by simpa using absent,
    eq_false_of_ne_true budget, eq_false_of_ne_true room, rfl⟩)

theorem Kept.deposit (kept : s.Kept) : (s.deposit who tag item blob now).1.Kept := by
  obtain ⟨e, same⟩ | ⟨answer, swept⟩ | ⟨filled, sized, absent, budget, room, stored⟩ :=
    s.deposit_cases
  · rw [same]
    exact kept
  · rw [swept]
    exact kept.sweep now
  rw [stored]
  have fresh : ∀ held ∈ (s.sweep now).1.inner.records, held.key ≠ (tag, item) := by
    intro held member
    obtain ⟨entry, there, rfl⟩ := mem_map.mp member
    exact find_eq_none absent entry there
  have added := Inner.Booked.add ⟨tag, item, who, expiry now s.limits.ttlMs, blob⟩
    (kept.sweep now).booked ⟨filled, sized⟩ budget room fresh
  exact ⟨kept.hard, added.1⟩

theorem deposit_refused (refused : s.deposit who tag item blob now = (next, .error e)) :
    next = s ∨ next = (s.sweep now).1 := by
  obtain ⟨e, same⟩ | ⟨answer, swept⟩ | ⟨-, -, -, -, -, stored⟩ := s.deposit_cases
  · rw [same] at refused
    exact .inl (Prod.mk.inj refused).1.symm
  · rw [swept] at refused
    exact .inr (Prod.mk.inj refused).1.symm
  · rw [stored] at refused
    cases (Prod.mk.inj refused).2

theorem Kept.list (kept : s.Kept) : (s.list who tag now).1.Kept := by
  unfold MemoryCustody.list
  split
  · exact kept
  · exact kept.sweep now

theorem Kept.fetch (kept : s.Kept) : (s.fetch who tag item now).1.Kept := by
  unfold MemoryCustody.fetch
  split
  · exact kept
  · exact kept.sweep now

theorem Kept.delete (kept : s.Kept) : (s.delete who tag item).1.Kept := by
  unfold MemoryCustody.delete
  split
  · exact kept
  · exact ⟨kept.hard, kept.booked.remove⟩

theorem list_eq (kept : s.Kept) :
    (s.list who tag now).2 = (s.check who).map fun _ =>
      (((s.inner.records.filter (now < ·.expiresMs)).filter
        (·.tag = tag)).take maxList).map SnapshotItem.item := by
  obtain ⟨accounted, records⟩ := s.sweep_records kept now
  have sorted : (((s.sweep now).1.inner.items.filter (·.1.1 = tag)).map
      (fun entry => (entry.2.order, entry.1.2))).Pairwise (fun first second =>
        first.1 < second.1 ∨ first.1 = second.1 ∧ first.2.bytes ≤ second.2.bytes) := by
    refine pairwise_map.mpr ((accounted.ordered.filter _).imp ?_)
    exact fun below => .inl below
  have waiting : ((s.sweep now).1.inner.items.filter (·.1.1 = tag)).map
      ofEntry = (s.inner.records.filter (now < ·.expiresMs)).filter
        (·.tag = tag) := by
    rw [← records]
    exact records_filter (·.tag = tag) _
  unfold MemoryCustody.list
  cases s.check who with
  | error => rfl
  | ok =>
    simp only [sorted.insertionSort_eq, ← waiting, map_take, map_map, Except.map]
    rfl

/-! ## Runs -/

/-- What the accounts of a custody store promise. -/
structure Sound (s : MemoryCustody) : Prop where
  bytes : s.inner.bytes = weigh size s.inner.contents
  shares : ∀ depositor, s.inner.perDepositor.get? depositor = share s.inner.contents depositor
  within : Within s.limits s.inner.contents
  hard : Hard s.limits
  refused : ∀ who tag item blob now next e, s.deposit who tag item blob now = (next, .error e) →
    next = s ∨ next.limits = s.limits ∧ next.trusted = s.trusted ∧
      next.inner.contents = s.inner.contents.filter (now < ·.expiresMs)
  restored : ∀ now, (s.restore s.snapshot now).inner.contents =
    s.inner.contents.filter (now < ·.expiresMs)
  relisted : ∀ who tag now, ((s.restore s.snapshot now).list who tag now).2 = (s.list who tag now).2

/-- A `restore` admits no item twice. -/
def Single (s : MemoryCustody) : Event → Prop
  | .restore bytes now => Along (fun inner record => some (inner.readmit s.limits now record)) (Fresh s.limits now)
      .empty (readAll bytes)
  | _ => True

instance (s : MemoryCustody) : (event : Event) → Decidable (s.Single event)
  | .restore .. => inferInstanceAs (Decidable (Along ..))
  | .trust _ | .deposit .. | .list .. | .fetch .. | .delete .. | .sweep _ | .revoke _ => .isTrue trivial

theorem Kept.step (kept : s.Kept) (single : s.Single event) : (s.step event).Kept := by
  cases event with
  | trust => exact ⟨kept.hard, kept.booked⟩
  | deposit => exact kept.deposit
  | list => exact kept.list
  | fetch => exact kept.fetch
  | delete => exact kept.delete
  | sweep now => exact kept.sweep now
  | revoke id => exact ⟨kept.hard, kept.booked.removeWhere (·.depositor = id)⟩
  | restore =>
    exact ⟨kept.hard, (Inner.Booked.empty s.limits).readmitEach single⟩

theorem Kept.sound (kept : s.Kept) : s.Sound := by
  have contents := kept.booked.toAccounted.contents
  refine ⟨?_, ?_, ?_, kept.hard, ?_, ?_, ?_⟩
  · rw [contents]
    exact kept.booked.bytes
  · rw [contents]
    exact kept.booked.shares
  · rw [contents]
    exact kept.booked.within
  · intro who tag item blob now next e refused
    refine (deposit_refused refused).imp_right ?_
    rintro rfl
    obtain ⟨accounted, records⟩ := s.sweep_records kept now
    exact ⟨rfl, rfl, by rw [accounted.contents, records, contents]⟩
  · intro now
    obtain ⟨rebooked, records⟩ := kept.restore_snapshot now
    rw [rebooked.toAccounted.contents, records, contents]
  intro who tag now
  obtain ⟨rebooked, records⟩ := kept.restore_snapshot now
  have again : (s.restore s.snapshot now).Kept := ⟨kept.hard, rebooked⟩
  have live : (s.inner.records.filter (now < ·.expiresMs)).filter
      (now < ·.expiresMs) = s.inner.records.filter (now < ·.expiresMs) := by
    simp [filter_filter]
  rw [list_eq again, list_eq kept, records, live]
  rfl

end MemoryCustody

open MemoryCustody in
/-- In every run in which no `restore` admits an item twice. -/
theorem custody_sound_of_single (limits : CustodyLimits) (events : List MemoryCustody.Event) (last : MemoryCustody)
    (single : Along (fun s event => some (step s event)) Single (.new limits) events)
    (ran : run (fun s event => some (step s event)) (.new limits) events = some last) :
    last.Sound := by
  have keeps : ∀ {s event next}, Kept s → Single s event → some (s.step event) = some next → Kept next := by
    rintro s event next kept single ⟨⟩
    exact kept.step single
  have start : (new limits).Kept := ⟨hard_clamped, Inner.Booked.empty _⟩
  exact (invariant_of_run keeps start single ran).sound

namespace Deposits

def contact : B32 := .fill 32 2

def stranger : B32 := .fill 32 3

def item : ItemId := ⟨.fill 16 9⟩

def on : CustodyLimits := { CustodyLimits.default with enabled := true, maxItems := 2 }

def tag : RecipientTag := ⟨.fill 16 7⟩

def bufferOf (records : List SnapshotItem) : Bytes :=
  putU8 snapshotVersion ++ (putU32 (UInt32.ofNat records.length) ++ records.flatMap encode)

def record (id : UInt8) : SnapshotItem := ⟨tag, ⟨.fill 16 id⟩, contact, 1000, [1, 2, 3]⟩

/-- A deposit, a listing, and a restart from a buffer whose second copy of an item finds the store full. -/
def events : List MemoryCustody.Event :=
  [.trust contact, .deposit contact tag item [7] 5, .list contact tag 6, .deposit stranger tag item [7] 7,
    .restore (bufferOf [record 1, record 2, record 2]) 8, .delete contact tag ⟨.fill 16 1⟩]

end Deposits

open MemoryCustody Deposits in
theorem custody_sound_of_restart : ∃ last, run (fun s event => some (step s event)) (.new on) events = some last ∧
      last.inner.contents = [record 2] ∧ last.Sound := by
  have single : Along (fun s event => some (step s event)) Single (.new on) events := by
    decide +kernel
  have observed : (run (fun s event => some (step s event)) (.new on) events).any
      (fun last => last.inner.contents = [record 2]) = true := by decide +kernel
  obtain ⟨last, ran, contents⟩ := exists_of_any observed
  exact ⟨last, ran, contents, custody_sound_of_single on events last single ran⟩

open MemoryCustody Deposits in
/-- A buffer that names an item twice: one item is held, two are counted. -/
theorem repeated_record_counted_twice :
    let s := (new on).step (.restore (bufferOf [record 1, record 1]) 8)
    s.inner.contents = [record 1] ∧ s.inner.bytes = 6 ∧
      s.inner.perDepositor.get? contact = some (2, 6) ∧ ¬ s.Sound := by
  intro s
  have contents : s.inner.contents = [record 1] := by decide +kernel
  have bytes : s.inner.bytes = 6 := by decide +kernel
  refine ⟨contents, bytes, by decide +kernel, fun sound => ?_⟩
  have sum := sound.bytes
  rw [contents, bytes] at sum
  exact absurd sum (by decide)

end Miasma.Chat.Mailbox
