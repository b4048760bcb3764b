import Miasma.Chat.Outbox.Log
import Miasma.Data.Run

namespace Miasma.Chat

open Data Outbox List

/-! The log refines the outbox while every write succeeds. -/

namespace Outbox

def Made (e : OutEntry) : Prop := e.parsed = some e

structure Refined (ob : Outbox) : Prop where
  log : entriesOf ob.log = ob.entries
  distinct : Distinct OutEntry.id ob.entries
  valid : ∀ e ∈ ob.entries, e.Valid
  text : ob.textBytes = (ob.entries.map (·.text.utf8ByteSize)).sum
  sealed : ob.sealedBytes = (ob.entries.map OutEntry.sealedLen).sum
  budget : ob.sealedBytes ≤ sealedBudget
  /-- At most one receipt per contact. -/
  receipts : ∀ peer, (ob.entries.filter (fun e => e.kind = .read && e.peer = peer)).length ≤ 1

variable {e : OutEntry} {entries : List OutEntry}

theorem le_sum_of_mem {weight : OutEntry → Nat} (there : e ∈ entries) : weight e ≤ (entries.map weight).sum := by
  induction entries with
  | nil => cases there
  | cons first rest ih =>
    rcases mem_cons.mp there with here | later
    · rw [here]
      exact Nat.le_add_right _ _
    · exact Nat.le_trans (ih later) (Nat.le_add_left _ _)

@[simp] theorem compactIfNeeded_entries {ob : Outbox} :
    (ob.compactIfNeeded force rewrites).entries = ob.entries := by
  unfold compactIfNeeded
  split <;> rfl

namespace Refined

variable {ob : Outbox} {e : OutEntry} {id : B16}

theorem empty {settings : StoreSettings} : Refined ⟨settings, [], 0, 0, 0, []⟩ where
  log := rfl
  distinct := Distinct.nil
  valid := nofun
  text := rfl
  sealed := rfl
  budget := Nat.zero_le _
  receipts _ := Nat.zero_le _

section

variable (refined : ob.Refined)
include refined

theorem compact : (ob.compactIfNeeded force rewrites).Refined := by
  unfold compactIfNeeded
  split
  · exact { refined with log := entriesOf_rewritten refined.distinct refined.valid }
  · exact refined

theorem append (made : Made e) (fresh : ∀ held ∈ ob.entries, held.id ≠ e.id)
    (alone : ∀ held ∈ ob.entries, held.kind = .read → e.kind = .read → held.peer ≠ e.peer) :
    Refined { ob with
      log := ob.log ++ [.put e]
      textBytes := ob.textBytes + e.text.utf8ByteSize
      entries := ob.entries ++ [e] } := by
  have bare : e.sealed = none := (OutEntry.parsed_sealed made).1
  constructor
  · rw [entriesOf_append, refined.log]
    simp [replay, show e.parsed = some e from made]
  · exact refined.distinct.concat fresh
  · exact forall_mem_snoc refined.valid (OutEntry.parsed_valid made)
  · simp [refined.text]
  · simp [refined.sealed, OutEntry.sealedLen, bare]
  · exact refined.budget
  intro peer
  have one := refined.receipts peer
  by_cases matching : (decide (e.kind = .read) && decide (e.peer = peer)) = true
  · simp only [Bool.and_eq_true, decide_eq_true_eq] at matching
    have none : ob.entries.filter (fun e => e.kind = .read && e.peer = peer) = [] := by
      apply filter_eq_nil_iff.mpr
      intro held there both
      simp only [Bool.and_eq_true, decide_eq_true_eq] at both
      exact alone held there both.1 matching.1 (both.2.trans matching.2.symm)
    simp [none, matching]
  · simpa [filter_singleton, matching] using one

theorem push (made : Made e) (text : e.kind = .text)
    (fresh : ∀ held ∈ ob.entries, held.id ≠ e.id) : (ob.push e .done).1.Refined := by
  unfold Outbox.push
  dsimp only
  split
  · exact refined
  split
  · exact refined
  split
  · exact refined
  refine refined.append made fresh ?_
  intro held _ _ receipt
  rw [text] at receipt
  cases receipt

theorem remove : (ob.remove id .done true).1.Refined := by
  unfold Outbox.remove
  cases found : ob.get id with
  | none => exact refined
  | some e =>
    have text := sum_eraseP (·.text.utf8ByteSize) (k := id) found
    have weight := sum_eraseP OutEntry.sealedLen (k := id) found
    apply compact
    constructor
    · change entriesOf (ob.log ++ [.done id]) = _
      rw [entriesOf_append, refined.log]
      rfl
    · exact refined.distinct.sublist eraseP_sublist
    · exact fun held there => refined.valid held (mem_of_mem_eraseP there)
    · rw [refined.text, ← text]
      exact Nat.add_sub_cancel _ _
    · rw [refined.sealed, ← weight]
      exact Nat.add_sub_cancel _ _
    · exact Nat.le_trans (Nat.sub_le _ _) refined.budget
    intro peer
    exact Nat.le_trans ((eraseP_sublist.filter _).length_le) (refined.receipts peer)

theorem remove_entries : (ob.remove id .done true).1.entries = ob.entries.filter (·.id ≠ id) := by
  rw [← refined.distinct.eraseP_eq_filter]
  unfold Outbox.remove
  cases found : ob.get id with
  | none =>
    apply (eraseP_of_forall_not _).symm
    intro e there
    simpa using find?_absent found e there
  | some e =>
    rw [compactIfNeeded_entries]
    rfl

theorem removeEach :
    (ob.removeEach (fun _ => .done) true ids).Refined ∧ (ob.removeEach (fun _ => .done) true ids).entries =
        ob.entries.filter (·.id ∉ ids) := by
  induction ids generalizing ob with
  | nil => exact ⟨refined, by simp [removeEach]⟩
  | cons id rest ih =>
    obtain ⟨kept, entries⟩ := ih (refined.remove)
    refine ⟨kept, ?_⟩
    rw [removeEach, entries, refined.remove_entries, filter_filter]
    congr 1
    funext e
    simp [Bool.and_comm]

theorem pushReceipt (made : Made e)
    (fresh : ∀ held ∈ ob.entries, held.id ≠ e.id) (receipt : e.text.utf8ByteSize = 0) :
    (ob.pushReceipt e (fun _ => .done) true .done).1.Refined := by
  obtain ⟨kept, entries⟩ := refined.removeEach
  unfold Outbox.pushReceipt
  dsimp only
  generalize (ob.removeEach (fun _ => .done) true ((ob.entries.filter
    (fun other => other.kind = .read && other.peer = e.peer)).map OutEntry.id)) = after at kept entries
  have part : ∀ held ∈ after.entries, held ∈ ob.entries := fun held there => by
    rw [entries] at there
    exact mem_of_mem_filter there
  have appended := kept.append made (fun held there => fresh held (part held there)) (by
    -- Every receipt of the contact has been removed.
    intro held there waiting _ same
    rw [entries, mem_filter] at there
    have absent := of_decide_eq_true there.2
    apply absent
    apply mem_map_of_mem
    exact mem_filter.mpr ⟨there.1, by simp [waiting, same]⟩)
  simpa [Outbox.append, Write.onDisk, receipt] using appended

theorem update {garbage : Nat} (found : ob.get id = some e)
    (same : ∀ e, (f e).id = e.id ∧ (f e).kind = e.kind ∧ (f e).peer = e.peer ∧ (f e).text = e.text)
    (replayed : replay ob.entries entry = updateFirst OutEntry.id id f ob.entries) (valid : (f e).Valid)
    (sum : total + e.sealedLen = ob.sealedBytes + (f e).sealedLen) (within : total ≤ sealedBudget) :
    Refined { ob with
      log := ob.log ++ [entry]
      sealedBytes := total
      garbage := garbage
      entries := updateEntry id f ob.entries } := by
  have weight := sum_updateFirst OutEntry.sealedLen (f := f) found
  have mapped := refined.distinct.updateFirst_eq_map id f
  constructor
  · rw [entriesOf_append, refined.log, replayed, updateEntry_eq]
  · rw [updateEntry_eq, mapped]
    apply refined.distinct.map
    intro e
    split
    · exact (same e).1
    · rfl
  · intro held there
    rw [updateEntry_eq] at there
    rcases mem_updateFirst there with old | ⟨other, member, key, changed⟩
    · exact refined.valid held old
    have only := (refined.distinct.find?_eq_some_iff).mpr ⟨member, key⟩
    have equal : other = e := Option.some.inj (only.symm.trans found)
    rw [changed, equal]
    exact valid
  · rw [refined.text, updateEntry_eq, mapped, map_map]
    congr 2
    funext e
    simp only [Function.comp]
    split
    · rw [(same e).2.2.2]
    · rfl
  · change total = ((updateEntry id f ob.entries).map OutEntry.sealedLen).sum
    rw [updateEntry_eq]
    have sums := refined.sealed
    omega
  · exact within
  intro peer
  have one := refined.receipts peer
  rw [updateEntry_eq, mapped, filter_map, length_map]
  refine Nat.le_trans (Nat.le_of_eq ?_) one
  congr 2
  funext e
  simp only [Function.comp]
  split
  · rw [(same e).2.1, (same e).2.2.1]
  · rfl

end

theorem get_mem (found : ob.get id = some e) : e ∈ ob.entries := mem_of_find?_eq_some found

/-- The subtraction of `set_sealed` and `clear_sealed` does not underflow. -/
theorem sealedLen_le (refined : ob.Refined) (there : e ∈ ob.entries) : e.sealedLen ≤ ob.sealedBytes := by
  rw [refined.sealed]
  exact le_sum_of_mem there

theorem setSealed (refined : ob.Refined) : (ob.setSealed id bytes .done).1.Refined := by
  unfold Outbox.setSealed
  split
  · exact refined
  rename_i size
  cases found : ob.get id with
  | none => exact refined
  | some e =>
    have there := get_mem found
    have below := refined.sealedLen_le there
    dsimp only
    split
    · exact refined
    rename_i within
    refine refined.update (f := OutEntry.withSealed bytes) found (fun _ => ⟨rfl, rfl, rfl, rfl⟩)
      ?_ ?_ ?_ (Nat.not_lt.mp within)
    · simp only [replay, size, if_false]
    · refine ⟨(refined.valid e there).parsed, ?_⟩
      intro other same
      cases same
      exact size
    · change ob.sealedBytes - e.sealedLen + bytes.length + e.sealedLen = ob.sealedBytes + bytes.length
      omega

theorem clearSealed (refined : ob.Refined) : (ob.clearSealed id .done).Refined := by
  unfold Outbox.clearSealed
  cases held : (ob.get id).bind OutEntry.sealed with
  | none => exact refined
  | some old =>
    obtain ⟨e, found, sealed⟩ := Option.bind_eq_some_iff.mp held
    have there := get_mem found
    have below := refined.sealedLen_le there
    have length : e.sealedLen = old.length := by simp [OutEntry.sealedLen, sealed]
    refine refined.update found (f := OutEntry.bare) (fun _ => ⟨rfl, rfl, rfl, rfl⟩) rfl
      ⟨(refined.valid e there).parsed, nofun⟩ ?_ (Nat.le_trans (Nat.sub_le _ _) refined.budget)
    change ob.sealedBytes - old.length + e.sealedLen = ob.sealedBytes + 0
    omega

end Refined

theorem withinBudget_of_le (within : kept + (entries.map OutEntry.sealedLen).sum ≤ sealedBudget) :
    withinBudget kept entries = entries := by
  induction entries generalizing kept with
  | nil => rfl
  | cons e rest ih =>
    rw [map_cons, sum_cons] at within
    rw [withinBudget, if_neg (by omega), ih (by omega)]

theorem Refined.openLog {ob : Outbox} (refined : ob.Refined)
    (young : ∀ e ∈ ob.entries, expired ob.settings now e = false ∧ staleReceipt ob.settings now e = false) :
    (openLog ob.settings ob.log now rewrites).1.entries = ob.entries := by
  have read : (ob.log.foldl fold ([], 0)).1 = ob.entries := by
    rw [foldl_fold_fst]
    exact refined.log
  have current : ob.entries.filter (!expired ob.settings now ·) = ob.entries :=
    filter_eq_self.mpr fun e there => by simp [(young e there).1]
  have waiting : ob.entries.filter (!staleReceipt ob.settings now ·) = ob.entries :=
    filter_eq_self.mpr fun e there => by simp [(young e there).2]
  have within : withinBudget 0 ob.entries = ob.entries := withinBudget_of_le (by
    rw [Nat.zero_add, ← refined.sealed]
    exact refined.budget)
  simp only [Outbox.openLog, compactIfNeeded_entries]
  rw [read, current, waiting, within]

/-! Runs of the operations, every write succeeding. -/

inductive Op where
  | push (e : OutEntry)
  | pushReceipt (e : OutEntry)
  | remove (id : B16)
  | removePeer (peer : B32)
  | setSealed (id : B16) (bytes : Bytes)
  | clearSealed (id : B16)

def step (ob : Outbox) : Op → Option Outbox
  | .push e => some (ob.push e .done).1
  | .pushReceipt e => some (ob.pushReceipt e (fun _ => .done) true .done).1
  | .remove id => some (ob.remove id .done true).1
  | .removePeer peer => some (ob.removePeer peer (fun _ => .done) true)
  | .setSealed id bytes => some (ob.setSealed id bytes .done).1
  | .clearSealed id => some (ob.clearSealed id .done)

def Fresh (ob : Outbox) : Op → Prop
  | .push e => ∀ held ∈ ob.entries, held.id ≠ e.id
  | .pushReceipt e => ∀ held ∈ ob.entries, held.id ≠ e.id
  | _ => True

instance (ob : Outbox) : (op : Op) → Decidable (ob.Fresh op)
  | .push _ | .pushReceipt _ => inferInstanceAs (Decidable (∀ _ ∈ _, _))
  | .remove _ | .removePeer _ | .setSealed _ _ | .clearSealed _ => .isTrue trivial

/-- New entries are what the engine makes: a text that is neither empty nor too
long, or a receipt for a number, and nothing sealed yet. -/
def Proper (ob : Outbox) (op : Op) : Prop := ob.Fresh op ∧ match op with
    | .push e => e.kind = .text ∧ e.sealed = none ∧ 0 < e.text.utf8ByteSize ∧
        e.text.utf8ByteSize ≤ maxTextBytes
    | .pushReceipt e => e.kind = .read ∧ e.sealed = none ∧ e.seq ≠ 0 ∧ e.text = ""
    | _ => True

instance (ob : Outbox) : (op : Op) → Decidable (ob.Proper op)
  | .push _ => inferInstanceAs (Decidable (_ ∧ _ ∧ _ ∧ _ < _ ∧ _ ≤ _))
  | .pushReceipt _ => inferInstanceAs (Decidable (_ ∧ _))
  | .remove _ | .removePeer _ | .setSealed _ _ | .clearSealed _ => .isTrue ⟨trivial, trivial⟩

theorem made_text (kind : e.kind = .text) (bare : e.sealed = none)
    (some : 0 < e.text.utf8ByteSize) (short : e.text.utf8ByteSize ≤ maxTextBytes) : Made e := by
  have size : ¬ (e.text.utf8ByteSize = 0 ∨ maxTextBytes < e.text.utf8ByteSize) := by omega
  cases e
  cases kind
  cases bare
  simp only [Made, OutEntry.parsed, size, if_false]

theorem made_receipt (kind : e.kind = .read) (bare : e.sealed = none)
    (counted : e.seq ≠ 0) (empty : e.text = "") : Made e := by
  cases e
  cases kind
  cases bare
  cases empty
  simp only [Made, OutEntry.parsed, counted, if_false]

theorem Refined.step {ob next : Outbox} (refined : ob.Refined) (proper : ob.Proper op)
    (stepped : ob.step op = some next) : next.Refined := by
  obtain ⟨fresh, made⟩ := proper
  cases op with
  | push =>
    cases stepped
    obtain ⟨kind, bare, some, short⟩ := made
    exact refined.push (made_text kind bare some short) kind fresh
  | pushReceipt =>
    cases stepped
    obtain ⟨kind, bare, counted, empty⟩ := made
    exact refined.pushReceipt (made_receipt kind bare counted empty) fresh (by rw [empty]; rfl)
  | remove id =>
    cases stepped
    exact refined.remove
  | removePeer =>
    cases stepped
    exact (refined.removeEach).1
  | setSealed id bytes =>
    cases stepped
    exact refined.setSealed
  | clearSealed id =>
    cases stepped
    exact refined.clearSealed

end Outbox

/-- In every run of operations with proper entries the log reopens to the same
entries, the counters are sums within the budget, and a contact waits for at most
one receipt. -/
theorem outbox_log_refines (settings : StoreSettings) (ops : List Op) (ob : Outbox)
    (proper : Along step Proper ⟨settings, [], 0, 0, 0, []⟩ ops)
    (ran : run step ⟨settings, [], 0, 0, 0, []⟩ ops = some ob) :
    (∀ now rewrites, (∀ e ∈ ob.entries, expired ob.settings now e = false ∧ staleReceipt ob.settings now e = false) →
      (openLog ob.settings ob.log now rewrites).1.entries = ob.entries) ∧
    ob.textBytes = (ob.entries.map (·.text.utf8ByteSize)).sum ∧
    ob.sealedBytes = (ob.entries.map OutEntry.sealedLen).sum ∧
    ob.sealedBytes ≤ sealedBudget ∧
    (∀ e ∈ ob.entries, e.sealedLen ≤ ob.sealedBytes) ∧
    ∀ peer, (ob.entries.filter (fun e => e.kind = .read && e.peer = peer)).length ≤ 1 := by
  have refined := invariant_of_run Refined.step Refined.empty proper ran
  exact ⟨fun _ rewrites young => refined.openLog young, refined.text, refined.sealed,
    refined.budget, fun _ there => refined.sealedLen_le there, refined.receipts⟩

namespace Sample

def note (byte : UInt8) (text : String) : OutEntry :=
  OutEntry.newEntry (ByteVec.fill 16 byte) (ByteVec.fill 32 1) byte.toUInt64 1000 text

def receipt (byte : UInt8) : OutEntry :=
  OutEntry.newReceipt (ByteVec.fill 16 byte) (ByteVec.fill 32 1) byte.toUInt64 1000

def smallOutbox : StoreSettings := ⟨10, 10, 100, 30, 604800000⟩

def deliveries : List Op := [.push (note 1 "one"), .push (note 2 "two"), .setSealed (note 1 "one").id [7, 7],
    .pushReceipt (receipt 3), .pushReceipt (receipt 4), .clearSealed (note 1 "one").id,
    .setSealed (note 2 "two").id [8], .remove (note 1 "one").id]

end Sample

open Sample

theorem outbox_log_refines_deliveries : ∃ ob,
    run step ⟨smallOutbox, [], 0, 0, 0, []⟩ deliveries = some ob ∧
      ob.entries = [OutEntry.withSealed [8] (note 2 "two"), receipt 4] ∧
      (openLog ob.settings ob.log 1000 true).1.entries = ob.entries := by
  have proper : Along step Proper ⟨smallOutbox, [], 0, 0, 0, []⟩ deliveries := by decide +kernel
  have observed : (run step ⟨smallOutbox, [], 0, 0, 0, []⟩ deliveries).any
      (fun ob => ob.entries = [OutEntry.withSealed [8] (note 2 "two"), receipt 4] ∧
        ∀ e ∈ ob.entries, expired ob.settings 1000 e = false ∧
          staleReceipt ob.settings 1000 e = false) = true := by decide +kernel
  obtain ⟨ob, ran, entries, young⟩ := exists_of_any observed
  exact ⟨ob, ran, entries, (outbox_log_refines _ _ ob proper ran).1 1000 true young⟩

/-- `push` does not look at the text: an empty one is queued and written, and its
record is not read back. -/
theorem empty_text_not_reopened : ∃ ops ob, Along step Fresh ⟨smallOutbox, [], 0, 0, 0, []⟩ ops ∧
      run step ⟨smallOutbox, [], 0, 0, 0, []⟩ ops = some ob ∧
      (∀ e ∈ ob.entries, expired ob.settings 1000 e = false ∧ staleReceipt ob.settings 1000 e = false) ∧
      (openLog ob.settings ob.log 1000 true).1.entries ≠ ob.entries := by
  have observed : (run step ⟨smallOutbox, [], 0, 0, 0, []⟩ [.push (note 1 "")]).any (fun ob =>
        (∀ e ∈ ob.entries, expired ob.settings 1000 e = false ∧ staleReceipt ob.settings 1000 e = false) ∧
        (openLog ob.settings ob.log 1000 true).1.entries ≠ ob.entries) = true := by
    decide +kernel
  obtain ⟨ob, ran, young, lost⟩ := exists_of_any observed
  exact ⟨_, ob, by decide +kernel, ran, young, lost⟩

end Miasma.Chat
