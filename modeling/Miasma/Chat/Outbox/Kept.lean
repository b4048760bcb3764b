import Miasma.Chat.Outbox.Refines

namespace Miasma.Chat

open Data OutEntry List Outbox

/-! Properties of every entry of an outbox, whatever becomes of its writes. -/

namespace Outbox

structure Each (ob : Outbox) (P : OutEntry → Prop) : Prop where
  distinct : Distinct OutEntry.id ob.entries
  logged : Distinct OutEntry.id (entriesOf ob.log)
  memory : ∀ e ∈ ob.entries, P e
  disk : ∀ e ∈ entriesOf ob.log, P e

def voidPeer (ob : Outbox) (peer : B32) (note : B16 → Write) : Outbox :=
  (ob.pendingFor peer).foldl (fun ob e => ob.clearSealed e.id (note e.id)) ob

variable {bytes : Bytes}

namespace Each

variable {ob : Outbox} {P Q : OutEntry → Prop} {e : OutEntry} {id : B16}

theorem empty {settings : StoreSettings} : Each ⟨settings, [], 0, 0, 0, []⟩ P where
  distinct := Distinct.nil
  logged := Distinct.nil
  memory := nofun
  disk := nofun

theorem mono (each : ob.Each P) (weaker : ∀ {e}, P e → Q e) : ob.Each Q :=
  ⟨each.distinct, each.logged, fun e there => weaker (each.memory e there), fun e there => weaker (each.disk e there)⟩

theorem replay_kept {entries : List OutEntry} (held : ∀ e ∈ entries, P e)
    (put : ∀ new read, entry = .put new → new.parsed = some read → P read)
    (sealed : ∀ id bytes, entry = .sealed id bytes → ¬ (bytes = [] ∨ maxSealed < bytes.length) →
      ∀ e, P e → e.id = id → P (e.withSealed bytes))
    (voided : ∀ id, entry = .unsealed id → ∀ e, P e → e.id = id → P e.bare) :
    ∀ e ∈ replay entries entry, P e := by
  intro e member
  cases entry with
  | put new =>
    rcases mem_append.mp member with old | read
    · exact held e old
    cases parsed : new.parsed with
    | none => simp [parsed] at read
    | some found =>
      rw [parsed, Option.toList_some, mem_singleton] at read
      exact read ▸ put new found rfl parsed
  | done => exact held e (mem_of_mem_eraseP member)
  | sealed id bytes =>
    simp only [replay] at member
    split at member
    · exact held e member
    rename_i size
    rcases mem_updateFirst member with old | ⟨other, there, key, same⟩
    · exact held e old
    rw [same]
    exact sealed id bytes rfl size other (held other there) key
  | unsealed id =>
    rcases mem_updateFirst member with old | ⟨other, there, key, same⟩
    · exact held e old
    rw [same]
    exact voided id rfl other (held other there) key

section

variable (each : ob.Each P)
include each

theorem append (fresh : ∀ new, entry = .put new → ∀ held ∈ entriesOf ob.log, held.id ≠ new.id)
    (kept : ∀ e ∈ replay (entriesOf ob.log) entry, P e) : (ob.append entry write).Each P := by
  unfold Outbox.append
  split
  · refine ⟨each.distinct, ?_, each.memory, ?_⟩
    · rw [entriesOf_append]
      exact replay_distinct each.logged fresh
    · rw [entriesOf_append]
      exact kept
  · exact each

theorem compact (valid : ∀ {e}, P e → e.Valid) : (ob.compactIfNeeded force rewrites).Each P := by
  have same := entriesOf_rewritten each.distinct (fun e there => valid (each.memory e there))
  unfold compactIfNeeded
  split
  · refine ⟨each.distinct, ?_, each.memory, ?_⟩
    · rw [same]
      exact each.distinct
    · rw [same]
      exact each.memory
  · exact each

theorem remove (valid : ∀ {e}, P e → e.Valid) : (ob.remove id write rewrites).1.Each P := by
  unfold Outbox.remove
  split
  · exact each
  apply compact _ valid
  apply append
  · exact ⟨each.distinct.sublist eraseP_sublist, each.logged,
      fun e there => each.memory e (mem_of_mem_eraseP there), each.disk⟩
  · nofun
  · exact replay_kept each.disk nofun nofun nofun

theorem removeEach (valid : ∀ {e}, P e → e.Valid) : (ob.removeEach write rewrites ids).Each P := by
  induction ids generalizing ob with
  | nil => exact each
  | cons id rest ih => exact ih (each.remove valid)

theorem push (made : Made e) (new : P e) (fresh : ∀ held ∈ ob.entries, held.id ≠ e.id)
    (unlogged : ∀ held ∈ entriesOf ob.log, held.id ≠ e.id) : (ob.push e write).1.Each P := by
  have logged : (ob.append (.put e) write).Each P := by
    apply each.append
    · intro other same
      cases same
      exact unlogged
    refine replay_kept each.disk ?_ nofun nofun
    intro other read same parsed
    cases same
    rw [show e.parsed = some e from made] at parsed
    cases parsed
    exact new
  have entries : (ob.append (.put e) write).entries = ob.entries := by
    unfold Outbox.append
    split <;> rfl
  unfold Outbox.push
  dsimp only
  split
  · exact each
  split
  · exact each
  split
  · exact each
  split
  · refine ⟨?_, logged.logged, ?_, logged.disk⟩
    · rw [entries]
      exact each.distinct.concat fresh
    · rw [entries]
      exact forall_mem_snoc each.memory new
  · exact logged

theorem update_memory (same : ∀ e, (f e).id = e.id) (kept : ∀ e, P e → e.id = id → P (f e)) :
    Distinct OutEntry.id (updateEntry id f ob.entries) ∧ ∀ e ∈ updateEntry id f ob.entries, P e := by
  rw [updateEntry_eq]
  constructor
  · rw [each.distinct.updateFirst_eq_map]
    apply each.distinct.map
    intro e
    split
    · exact same e
    · rfl
  · intro e member
    rcases mem_updateFirst member with old | ⟨other, there, key, changed⟩
    · exact each.memory e old
    rw [changed]
    exact kept other (each.memory other there) key

theorem setSealed (kept : ¬ (bytes = [] ∨ maxSealed < bytes.length) →
      ∀ e, P e → e.id = id → P (e.withSealed bytes)) (write : Write) :
    (ob.setSealed id bytes write).1.Each P := by
  unfold Outbox.setSealed
  split
  · exact each
  rename_i size
  have logged : (ob.append (.sealed id bytes) write).Each P := by
    refine each.append nofun (replay_kept each.disk nofun ?_ nofun)
    intro other found same
    cases same
    exact kept
  have entries : (ob.append (.sealed id bytes) write).entries = ob.entries := by
    unfold Outbox.append
    split <;> rfl
  split
  · exact each
  dsimp only
  split
  · exact each
  split
  · obtain ⟨distinct, memory⟩ := each.update_memory (f := withSealed bytes) (fun _ => rfl) (kept size)
    rw [entries]
    exact ⟨distinct, logged.logged, memory, logged.disk⟩
  · exact logged

theorem clearSealed (kept : ∀ {old}, (ob.get id).bind sealed = some old →
      ∀ e, P e → e.id = id → P e.bare) : (ob.clearSealed id write).Each P := by
  unfold Outbox.clearSealed
  split
  · exact each
  rename_i old held
  obtain ⟨distinct, memory⟩ := each.update_memory (f := bare) (fun _ => rfl) (kept held)
  apply append
  · exact ⟨distinct, each.logged, memory, each.disk⟩
  · nofun
  refine replay_kept each.disk nofun nofun ?_
  intro other same
  cases same
  exact kept held

end

end Each

variable {e : OutEntry}

theorem OutEntry.bare_of_none (none : e.sealed = none) : e.bare = e := by
  cases e
  cases none
  rfl

variable {write : Write} {ob : Outbox}

theorem setSealed_done {next : Outbox} {id : B16} (found : ob.get id = some e)
    (done : ob.setSealed id bytes write = (next, .ok ())) :
    ¬ (bytes = [] ∨ maxSealed < bytes.length) ∧
      next.entries = updateFirst OutEntry.id id (OutEntry.withSealed bytes) ob.entries ∧
      entriesOf next.log = updateFirst OutEntry.id id (OutEntry.withSealed bytes) (entriesOf ob.log) := by
  unfold setSealed at done
  split at done
  · cases done
  rename_i size
  rw [found] at done
  dsimp only at done
  split at done
  · cases done
  split at done
  · rename_i written
    cases done
    refine ⟨size, ?_, ?_⟩
    · simp only [written, append, Write.onDisk, if_true, updateEntry_eq]
      rfl
    · simp only [written, append, Write.onDisk, if_true]
      rw [entriesOf_append, replay, if_neg size]
  · cases done

theorem setSealed_error {next : Outbox} {id : B16} (refused : ob.setSealed id bytes write = (next, .error er)) :
    next.entries = ob.entries := by
  unfold setSealed at refused
  split at refused
  · cases refused
    rfl
  split at refused
  · cases refused
  split at refused
  · cases refused
    rfl
  split at refused
  · cases refused
  cases refused
  unfold Outbox.append
  split <;> rfl

theorem mem_push (there : held ∈ (ob.push e write).1.entries) : held ∈ ob.entries ∨ held = e := by
  have entries : (ob.append (.put e) write).entries = ob.entries := by
    unfold Outbox.append
    split <;> rfl
  unfold push at there
  dsimp only at there
  split at there
  · exact .inl there
  split at there
  · exact .inl there
  split at there
  · exact .inl there
  split at there
  · rw [entries] at there
    exact (mem_append.mp there).imp_right mem_singleton.mp
  · exact .inl (entries ▸ there)

theorem clearSealed_entries (distinct : Distinct OutEntry.id ob.entries) (id : B16) (write : Write) :
    (ob.clearSealed id write).entries = ob.entries.map (fun e => if e.id = id then e.bare else e) := by
  unfold Outbox.clearSealed
  cases held : (ob.get id).bind sealed with
  | none =>
    symm
    apply (map_congr_left _).trans (map_id _)
    intro e there
    split
    · rename_i key
      have found : ob.get id = some e := distinct.find?_eq_some_iff.mpr ⟨there, key⟩
      rw [found, Option.bind_some] at held
      exact OutEntry.bare_of_none held
    · rfl
  | some old =>
    have entries : ∀ other : Outbox, (other.append (.unsealed id) write).entries = other.entries := by
      intro other
      unfold Outbox.append
      split <;> rfl
    simp only [entries, updateEntry_eq]
    exact distinct.updateFirst_eq_map id bare

theorem clearEach_entries (distinct : Distinct OutEntry.id ob.entries) {note : B16 → Write}
    {list : List OutEntry} :
    (list.foldl (fun ob e => ob.clearSealed e.id (note e.id)) ob).entries =
      ob.entries.map (fun e => if e.id ∈ list.map OutEntry.id then e.bare else e) := by
  induction list generalizing ob with
  | nil => simp
  | cons first rest ih =>
    have cleared := clearSealed_entries distinct first.id (note first.id)
    have apart : Distinct OutEntry.id (ob.clearSealed first.id (note first.id)).entries := by
      rw [cleared]
      apply distinct.map
      intro e
      split <;> rfl
    rw [foldl_cons, ih apart, cleared, map_map]
    apply map_congr_left
    intro e there
    by_cases here : e.id = first.id
    · simp only [Function.comp, here, if_true, map_cons, mem_cons, true_or]
      split <;> rfl
    · simp [Function.comp, here]

theorem voidPeer_entries (distinct : Distinct OutEntry.id ob.entries) {peer : B32} :
    (ob.voidPeer peer note).entries = ob.entries.map (fun e => if e.peer = peer then e.bare else e) := by
  rw [voidPeer, clearEach_entries distinct]
  apply map_congr_left
  intro e there
  have listed : e.id ∈ (ob.pendingFor peer).map OutEntry.id ↔ e.peer = peer := by
    constructor
    · intro member
      obtain ⟨other, pending, key⟩ := mem_map.mp member
      obtain ⟨held, theirs⟩ := mem_filter.mp pending
      rw [← distinct.unique held there key]
      simpa using theirs
    · intro own
      exact List.mem_map_of_mem (List.mem_filter.mpr ⟨there, by simpa using own⟩)
  simp only [listed]

theorem withinBudget_ids {entries : List OutEntry} :
    (withinBudget kept entries).map OutEntry.id = entries.map OutEntry.id := by
  induction entries generalizing kept with
  | nil => rfl
  | cons e rest ih =>
    rw [withinBudget]
    split <;> simp [ih]

theorem mem_withinBudget {entries : List OutEntry} (member : e ∈ withinBudget kept entries) :
    e ∈ entries ∨ ∃ held ∈ entries, e = held.bare := by
  induction entries generalizing kept with
  | nil => cases member
  | cons first rest ih =>
    rw [withinBudget] at member
    split at member
    · rcases mem_cons.mp member with here | later
      · exact .inr ⟨first, mem_cons_self, here⟩
      rcases ih later with old | ⟨held, there, same⟩
      · exact .inl (mem_cons_of_mem _ old)
      · exact .inr ⟨held, mem_cons_of_mem _ there, same⟩
    · rcases mem_cons.mp member with here | later
      · exact .inl (here ▸ mem_cons_self)
      rcases ih later with old | ⟨held, there, same⟩
      · exact .inl (mem_cons_of_mem _ old)
      · exact .inr ⟨held, mem_cons_of_mem _ there, same⟩

theorem openLog_entries (settings : StoreSettings) (log : List LogRecord) (now : UInt64)
    (rewrites : Bool) : (openLog settings log now rewrites).1.entries =
      withinBudget 0 (((entriesOf log).filter (!expired settings now ·)).filter
        (!staleReceipt settings now ·)) := by
  simp only [openLog, compactIfNeeded_entries]
  rw [foldl_fold_fst]
  rfl

variable {settings : StoreSettings}

theorem mem_openLog {log : List LogRecord} (member : e ∈ (openLog settings log now rewrites).1.entries) :
    e ∈ entriesOf log ∨ ∃ held ∈ entriesOf log, e = held.bare := by
  rw [openLog_entries] at member
  have part : (((entriesOf log).filter (!expired settings now ·)).filter
      (!staleReceipt settings now ·)).Sublist (entriesOf log) :=
    filter_sublist.trans filter_sublist
  rcases mem_withinBudget member with old | ⟨held, there, same⟩
  · exact .inl (part.subset old)
  · exact .inr ⟨held, part.subset there, same⟩

theorem openLog_log (settings : StoreSettings) (log : List LogRecord) (now : UInt64)
    (rewrites : Bool) : (openLog settings log now rewrites).1.log = log ∨ (openLog settings log now rewrites).1.log =
        (openLog settings log now rewrites).1.entries.flatMap rewritten := by
  simp only [openLog, compactIfNeeded]
  split
  · exact .inr rfl
  · exact .inl rfl

namespace Each

variable {ob : Outbox} {P Q : OutEntry → Prop} {peer : B32}

theorem voidPeer (each : ob.Each P) (kept : ∀ m ∈ ob.entries, m.peer = peer → m.sealed.isSome →
      ∀ e, P e → e.id = m.id → P e.bare) : (ob.voidPeer peer note).Each P := by
  -- Going through the pending entries: what is still sealed was there at the start.
  have loop : ∀ (list : List OutEntry) (now : Outbox), now.Each P →
      (∀ m ∈ now.entries, m.sealed.isSome → m ∈ ob.entries) →
      (∀ x ∈ list, x ∈ ob.entries ∧ x.peer = peer) →
      (list.foldl (fun ob e => ob.clearSealed e.id (note e.id)) now).Each P := by
    intro list
    induction list with
    | nil =>
      intro now each _ _
      exact each
    | cons first rest ih =>
      intro now each old listed
      obtain ⟨⟨there, own⟩, later⟩ := forall_mem_cons.mp listed
      refine ih _ (each.clearSealed ?_) ?_ later
      · intro bytes held e met key
        obtain ⟨m, found, sealed⟩ := Option.bind_eq_some_iff.mp held
        obtain ⟨member, same⟩ := each.distinct.find?_eq_some_iff.mp found
        have some : m.sealed.isSome := by rw [sealed]; rfl
        have equal : m = first := ‹ob.Each P›.distinct.unique (old m member some) there same
        exact kept first there own (equal ▸ some) e met key
      · intro m member some
        rw [clearSealed_entries each.distinct] at member
        obtain ⟨before, was, changed⟩ := mem_map.mp member
        split at changed
        · subst changed
          cases some
        · subst changed
          exact old before was some
  apply loop _ _ each (fun _ member _ => member)
  intro x pending
  obtain ⟨member, own⟩ := mem_filter.mp pending
  exact ⟨member, by simpa using own⟩

theorem openLog {log : List LogRecord} (logged : Distinct OutEntry.id (entriesOf log))
    (disk : ∀ e ∈ entriesOf log, P e) (valid : ∀ {e}, P e → e.Valid)
    (dropped : ∀ e ∈ entriesOf log, e.sealed.isSome →
      e.bare ∈ (openLog settings log now rewrites).1.entries → P e.bare) :
    (Outbox.openLog settings log now rewrites).1.Each P := by
  have entries := openLog_entries settings log now rewrites
  have apart : Distinct OutEntry.id (Outbox.openLog settings log now rewrites).1.entries := by
    rw [entries, Distinct, withinBudget_ids]
    exact logged.sublist (filter_sublist.trans filter_sublist)
  have held : ∀ e ∈ (Outbox.openLog settings log now rewrites).1.entries, P e := by
    intro e member
    rcases mem_openLog member with old | ⟨o, there, same⟩
    · exact disk e old
    subst same
    cases sealed : o.sealed with
    | none =>
      rw [OutEntry.bare_of_none sealed]
      exact disk o there
    | some bytes => exact dropped o there (by rw [sealed]; rfl) member
  have rewritten : entriesOf (Outbox.openLog settings log now rewrites).1.log = entriesOf log ∨
      entriesOf (Outbox.openLog settings log now rewrites).1.log =
        (Outbox.openLog settings log now rewrites).1.entries := by
    rcases openLog_log settings log now rewrites with same | rewritten
    · exact .inl (congrArg entriesOf same)
    rw [rewritten]
    exact .inr (entriesOf_rewritten apart (fun e there => valid (held e there)))
  rcases rewritten with same | same
  · exact ⟨apart, same ▸ logged, held, fun e there => disk e (same ▸ there)⟩
  · exact ⟨apart, same ▸ apart, held, fun e there => held e (same ▸ there)⟩

end Each

/-- What was sealed for `peer` is voided, any number of times; nothing else happens. -/
inductive Clears (peer : B32) (before : Outbox) : Outbox → Prop
  | same : Clears peer before before
  | void {after : Outbox} (clears : Clears peer before after) (note : B16 → Write) :
      Clears peer before (after.voidPeer peer note)

namespace Clears

variable {peer : B32} {before after last : Outbox} {P : OutEntry → Prop}

theorem trans (first : Clears peer before after) (second : Clears peer after last) : Clears peer before last := by
  induction second with
  | same => exact first
  | void _ note ih => exact ih.void note

theorem entries (clears : Clears peer before after) (distinct : Distinct OutEntry.id before.entries) :
    after = before ∨ after.entries = before.entries.map (fun e => if e.peer = peer then e.bare else e) := by
  have kept : Distinct OutEntry.id (before.entries.map (fun e => if e.peer = peer then e.bare else e)) := by
    apply distinct.map
    intro e
    split <;> rfl
  induction clears with
  | same => exact .inl rfl
  | void _ note ih =>
    right
    rcases ih with same | cleared
    · rw [same, voidPeer_entries distinct]
    rw [voidPeer_entries (cleared ▸ kept), cleared, map_map]
    apply map_congr_left
    intro e _
    by_cases own : e.peer = peer
    · have again : e.bare.peer = peer := own
      simp only [Function.comp, own, if_true, again]
      rfl
    · simp [Function.comp, own]

theorem mem (clears : Clears peer before after) (distinct : Distinct OutEntry.id before.entries)
    (there : e ∈ after.entries) :
    ∃ old ∈ before.entries, old.id = e.id ∧ old.peer = e.peer := by
  rcases clears.entries distinct with same | cleared
  · exact ⟨e, same ▸ there, rfl, rfl⟩
  rw [cleared] at there
  obtain ⟨old, member, changed⟩ := mem_map.mp there
  refine ⟨old, member, ?_⟩
  rw [← changed]
  split <;> exact ⟨rfl, rfl⟩

theorem each (clears : Clears peer before after) (each : before.Each P)
    (kept : ∀ m ∈ before.entries, m.peer = peer → m.sealed.isSome →
      ∀ e, P e → e.id = m.id → P e.bare) : after.Each P := by
  induction clears with
  | same => exact each
  | void earlier note ih =>
    refine ih.voidPeer ?_
    intro m there own sealed
    -- Still sealed: it is an entry of the start.
    rcases earlier.entries each.distinct with same | cleared
    · exact kept m (same ▸ there) own sealed
    rw [cleared] at there
    obtain ⟨old, member, changed⟩ := mem_map.mp there
    split at changed
    · subst changed
      cases sealed
    · subst changed
      exact kept old member own sealed

end Clears

end Outbox

end Miasma.Chat
