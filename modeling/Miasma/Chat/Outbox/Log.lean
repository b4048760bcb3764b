import Miasma.Chat.Outbox
import Miasma.Data.Keyed

namespace Miasma.Chat

open Data List

/-! The entries an outbox log stands for. -/

theorem updateEntry_eq {id : B16} :
    updateEntry id f entries = updateFirst OutEntry.id id f entries := by
  induction entries with
  | nil => rfl
  | cons e rest ih => simp only [updateEntry, updateFirst, ih]

namespace OutEntry

def bare (e : OutEntry) : OutEntry := { e with sealed := none }

def withSealed (bytes : Bytes) (e : OutEntry) : OutEntry := { e with sealed := some bytes }

@[simp] theorem withSealed_id {e : OutEntry} : (e.withSealed bytes).id = e.id := rfl

/-- The records `compact_if_needed` writes for the entry are read back as the
entry. -/
structure Valid (e : OutEntry) : Prop where
  parsed : e.parsed = some e.bare
  sealed : ∀ {bytes}, e.sealed = some bytes → ¬ (bytes = [] ∨ maxSealed < bytes.length)

theorem parsed_sealed {e read : OutEntry} (parsed : e.parsed = some read) : read.sealed = none ∧ read.id = e.id := by
  unfold OutEntry.parsed at parsed
  split at parsed <;> split at parsed <;> cases parsed <;> exact ⟨rfl, rfl⟩

theorem parsed_valid {e read : OutEntry} (parsed : e.parsed = some read) : read.Valid := by
  constructor
  · unfold OutEntry.parsed at parsed
    split at parsed
    · rename_i kind
      split at parsed <;> cases parsed
      rename_i size
      simp only [OutEntry.parsed, kind, size, if_false]
      rfl
    · rename_i kind
      split at parsed <;> cases parsed
      rename_i counted
      simp only [OutEntry.parsed, kind, counted, if_false]
      rfl
  · intro bytes sealed
    rw [(parsed_sealed parsed).1] at sealed
    cases sealed

end OutEntry

namespace Outbox

def replay (entries : List OutEntry) : LogRecord → List OutEntry
  | .put e => entries ++ e.parsed.toList
  | .done id => entries.eraseP (·.id = id)
  | .sealed id bytes =>
    if bytes = [] ∨ maxSealed < bytes.length then entries
    else updateFirst OutEntry.id id (OutEntry.withSealed bytes) entries
  | .unsealed id => updateFirst OutEntry.id id OutEntry.bare entries

variable {entries : List OutEntry}

theorem find?_absent {id : B16}
    (none : entries.find? (·.id = id) = none) : ∀ e ∈ entries, e.id ≠ id := by
  intro e there
  simpa using find?_eq_none.mp none e there

theorem fold_fst {garbage : Nat} : (fold (entries, garbage) entry).1 = replay entries entry := by
  cases entry with
  | put e =>
    simp only [fold, replay]
    cases e.parsed <;> simp
  | done id =>
    simp only [fold, replay]
    cases found : entries.find? (·.id = id) with
    | none =>
      apply (eraseP_of_forall_not _).symm
      intro e there
      simpa using find?_absent found e there
    | some e => rfl
  | sealed id =>
    simp only [fold, replay]
    split
    · rfl
    cases found : entries.find? (·.id = id) with
    | none => exact (updateFirst_of_absent (find?_absent found)).symm
    | some e => exact updateEntry_eq
  | unsealed id => exact updateEntry_eq

def entriesOf (log : List LogRecord) : List OutEntry := log.foldl replay []

theorem foldl_fold_fst {log : List LogRecord} : (log.foldl fold start).1 = log.foldl replay start.1 := by
  induction log generalizing start with
  | nil => rfl
  | cons entry log ih => rw [foldl_cons, foldl_cons, ih, ← fold_fst]

theorem entriesOf_append {log : List LogRecord} :
    entriesOf (log ++ [entry]) = replay (entriesOf log) entry := by
  simp [entriesOf]

theorem replay_distinct (distinct : Distinct OutEntry.id entries)
    (fresh : ∀ e, entry = .put e → ∀ held ∈ entries, held.id ≠ e.id) :
    Distinct OutEntry.id (replay entries entry) := by
  cases entry with
  | put e =>
    simp only [replay]
    cases parsed : e.parsed with
    | none => simpa using distinct
    | some read =>
      apply distinct.concat
      intro held there
      rw [(OutEntry.parsed_sealed parsed).2]
      exact fresh e rfl held there
  | done => exact distinct.sublist (eraseP_sublist)
  | sealed =>
    simp only [replay]
    split
    · exact distinct
    rw [distinct.updateFirst_eq_map]
    apply distinct.map
    intro e
    split <;> rfl
  | unsealed =>
    simp only [replay, distinct.updateFirst_eq_map]
    apply distinct.map
    intro e
    split <;> rfl

theorem replay_rewritten (valid : e.Valid) (fresh : ∀ held ∈ entries, held.id ≠ e.id) :
    (rewritten e).foldl replay entries = entries ++ [e] := by
  cases sealed : e.sealed with
  | none =>
    have same : e.bare = e := by
      cases e
      cases sealed
      rfl
    simp [rewritten, sealed, replay, valid.parsed, same]
  | some bytes =>
    have same : e.bare.withSealed bytes = e := by
      cases e
      cases sealed
      rfl
    have last : updateFirst OutEntry.id e.id (OutEntry.withSealed bytes) (entries ++ [e.bare]) = entries ++ [e] := by
      induction entries with
      | nil => exact (if_pos rfl).trans (congrArg (· :: []) same)
      | cons held rest ih =>
        obtain ⟨first, later⟩ := forall_mem_cons.mp fresh
        rw [cons_append, updateFirst, if_neg first, ih later, cons_append]
    simp [rewritten, sealed, replay, valid.parsed, valid.sealed sealed, last]

theorem entriesOf_rewritten (distinct : Distinct OutEntry.id entries)
    (valid : ∀ e ∈ entries, e.Valid) : entriesOf (entries.flatMap rewritten) = entries := by
  have prefixed : ∀ done : List OutEntry, Distinct OutEntry.id (done ++ entries) →
      (entries.flatMap rewritten).foldl replay done = done ++ entries := by
    clear distinct
    induction entries with
    | nil => simp
    | cons e rest ih =>
      intro done distinct
      obtain ⟨here, later⟩ := forall_mem_cons.mp valid
      have fresh : ∀ held ∈ done, held.id ≠ e.id := by
        intro held there same
        simp only [Distinct, map_append, map_cons] at distinct
        have apart := (nodup_append.mp distinct).2.2
        exact apart held.id (mem_map_of_mem there) e.id (by simp) same
      rw [flatMap_cons, foldl_append, replay_rewritten here fresh, ih later]
      · simp
      · simpa using distinct
  exact prefixed [] distinct

end Outbox

end Miasma.Chat
