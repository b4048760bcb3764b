import Miasma.Chat.Mailbox.Client

namespace Miasma.Chat.Mailbox

open Data List Mailbox

/-! What one collection gets to see.

A list is left at the first id not met before whose copy cannot be fetched, or that is one too
many.  `Reading` says how far that goes. -/

/-- How far the lists are read. -/
structure Reading where
  /-- The entries read, in order. -/
  entries : List (B32 × ItemId)
  /-- Each id with the holder it was met at first. -/
  firsts : List (B32 × ItemId)

namespace Reading

def ids (w : Reading) : List ItemId := w.firsts.map Prod.snd

def heard (w : Reading) : List (B32 × ItemId) := w.firsts.take maxCollect

end Reading

open Reading

section Answers

variable (T : Transport) (accepts : B32 → Bytes → Bool) (tag : RecipientTag) (now : UInt64)

def copyOf (h : B32) (id : ItemId) : Option (B32 × Bytes) := match T.fetch h tag id now with
  | .ok (some blob) => splitBlob blob
  | _ => none

def acceptable (h : B32) (id : ItemId) : Bool :=
  (copyOf T tag now h id).any (fun copy => accepts copy.1 copy.2)

def refuses (h : B32) (id : ItemId) : Bool := match T.fetch h tag id now with
  | .error _ => true
  | .ok _ => false

def listed (h : B32) : List ItemId := match T.list h tag now with
  | .ok ids => ids
  | .error _ => []

variable (holders : List B32)

/-- A holder other than the device itself lists `id`. -/
def Lists (me h : B32) (id : ItemId) : Prop := h ∈ holders ∧ h ≠ me ∧ id ∈ listed T tag now h

def allListed (me : B32) : List ItemId := (holders.filter (· ≠ me)).flatMap (listed T tag now)

namespace Reading

/-- One entry; `false` leaves the rest of the list. -/
def read (h : B32) (id : ItemId) (w : Reading) : Reading × Bool :=
  if id ∈ w.ids then ({ w with entries := w.entries ++ [(h, id)] }, true)
  else (⟨w.entries ++ [(h, id)], w.firsts ++ [(h, id)]⟩, w.firsts.length < maxCollect && !refuses T tag now h id)

def readEach (h : B32) : List ItemId → Reading → Reading
  | [], w => w
  | id :: ids, w =>
    match w.read T tag now h id with
    | (w, true) => readEach h ids w
    | (w, false) => w

def readAll (me : B32) : List B32 → Reading → Reading
  | [], w => w
  | h :: holders, w =>
    if h = me then readAll me holders w
    else readAll me holders (readEach T tag now h (listed T tag now h) w)

end Reading

def reading (me : B32) : Reading := readAll T tag now me holders ⟨[], []⟩

def callOf (entry : B32 × ItemId) : Option Call := (copyOf T tag now entry.1 entry.2).map fun copy =>
    ⟨entry.1, entry.2, copy.1, copy.2, accepts copy.1 copy.2⟩

end Answers

/-! ## A collection follows its reading -/

section Follows

variable {σ : Type} {T : Transport} {take : σ → B32 → Bytes → σ × Bool}
  {accepts : B32 → Bytes → Bool} {tag : RecipientTag} {now : UInt64}
  {r next : Round σ} {w : Reading} {h me : B32} {id : ItemId}

structure Follows (T : Transport) (accepts : B32 → Bytes → Bool) (tag : RecipientTag)
    (now : UInt64) (r : Round σ) (w : Reading) : Prop where
  seen : r.seen = w.ids
  taken : r.takenIds = (w.heard.filter fun entry => acceptable T accepts tag now entry.1 entry.2).map Prod.snd
  deletes : r.toDelete = w.entries.filter fun entry => entry.2 ∈ r.takenIds
  calls : r.calls = w.heard.filterMap (callOf T accepts tag now)
  distinct : w.ids.Nodup
  met : ∀ entry ∈ w.entries, entry.2 ∈ w.ids

namespace Follows

theorem taken_met (follows : Follows T accepts tag now r w) (taken : id ∈ r.takenIds) : id ∈ w.ids := by
  rw [follows.taken] at taken
  obtain ⟨entry, heard, rfl⟩ := mem_map.mp taken
  exact mem_map_of_mem (mem_of_mem_take (mem_of_mem_filter heard))

theorem heard_first (room : w.firsts.length < maxCollect) :
    (⟨w.entries ++ [(h, id)], w.firsts ++ [(h, id)]⟩ : Reading).heard = w.heard ++ [(h, id)] := by
  simp only [heard]
  rw [take_of_length_le (by simp; omega), take_of_length_le (by omega)]

section

variable (follows : Follows T accepts tag now r w)
include follows

theorem again (seen : next.seen = r.seen) (taken : next.takenIds = r.takenIds) (calls : next.calls = r.calls)
    (deletes : next.toDelete = if id ∈ r.takenIds then r.toDelete ++ [(h, id)] else r.toDelete)
    (met : id ∈ w.ids) :
    Follows T accepts tag now next { w with entries := w.entries ++ [(h, id)] } where
  seen := seen.trans follows.seen
  taken := taken.trans follows.taken
  deletes := by
    rw [deletes, taken, filter_append, ← follows.deletes]
    split <;> rename_i held <;> simp [held]
  calls := calls.trans follows.calls
  distinct := follows.distinct
  met := forall_mem_snoc follows.met met

/-- An id that is met for the first time; `takes` says whether its copy is taken. -/
theorem first (takes : Bool) (made : List Call) (new : id ∉ w.ids) (seen : next.seen = r.seen ++ [id])
    (taken : next.takenIds = r.takenIds ++ if takes then [id] else [])
    (deletes : next.toDelete = r.toDelete ++ if takes then [(h, id)] else [])
    (calls : next.calls = r.calls ++ made)
    (asked : (⟨w.entries ++ [(h, id)], w.firsts ++ [(h, id)]⟩ : Reading).heard =
        w.heard ++ [(h, id)] ∧ takes = acceptable T accepts tag now h id ∧
          made = (callOf T accepts tag now (h, id)).toList ∨
      (⟨w.entries ++ [(h, id)], w.firsts ++ [(h, id)]⟩ : Reading).heard = w.heard ∧ takes = false ∧ made = []) :
    Follows T accepts tag now next ⟨w.entries ++ [(h, id)], w.firsts ++ [(h, id)]⟩ where
  seen := by simp [seen, follows.seen, ids]
  taken := by
    rcases asked with ⟨heard, rfl, -⟩ | ⟨heard, rfl, -⟩
    · rw [taken, follows.taken, heard, filter_append, map_append]
      cases good : acceptable T accepts tag now h id <;> simp [good]
    · simp [taken, follows.taken, heard]
  deletes := by
    have old : ∀ entry ∈ w.entries, entry.2 ≠ id := by
      rintro entry member rfl
      exact new (follows.met entry member)
    have unchanged : (w.entries.filter fun entry => entry.2 ∈ next.takenIds) =
        w.entries.filter fun entry => entry.2 ∈ r.takenIds := by
      apply filter_congr
      intro entry member
      rw [taken]
      cases takes <;> simp [old entry member]
    have untaken : id ∉ r.takenIds := fun held => new (follows.taken_met held)
    rw [deletes, filter_append, unchanged, ← follows.deletes, taken]
    cases takes <;> simp [untaken]
  calls := by
    rcases asked with ⟨heard, -, rfl⟩ | ⟨heard, -, rfl⟩
    · rw [calls, follows.calls, heard, filterMap_append]
      cases called : callOf T accepts tag now (h, id) <;> simp [called]
    · simp [calls, follows.calls, heard]
  distinct := by
    simp only [ids, map_append, map_cons, map_nil]
    exact nodup_append.mpr ⟨follows.distinct, nodup_singleton _, by
      rintro other old _ new' rfl
      cases mem_singleton.mp new'
      exact new old⟩
  met entry member := by
    simp only [ids, map_append, mem_append]
    rcases mem_snoc.mp member with old | rfl
    · exact .inl (follows.met entry old)
    · exact .inr (by simp)

theorem unreachable : Follows T accepts tag now { r with rep := rep } w :=
  ⟨follows.seen, follows.taken, follows.deletes, follows.calls, follows.distinct, follows.met⟩

section

variable (answers : ∀ s sender wire, (take s sender wire).2 = accepts sender wire)
include answers

theorem hand (new : id ∉ w.ids) (room : w.firsts.length < maxCollect)
    (copy : copyOf T tag now h id = some (sender, wire)) :
    Follows T accepts tag now (hand take h id sender wire { r with seen := r.seen ++ [id] })
      ⟨w.entries ++ [(h, id)], w.firsts ++ [(h, id)]⟩ := by
  have good : acceptable T accepts tag now h id = accepts sender wire := by simp [acceptable, copy]
  have called : callOf T accepts tag now (h, id) =
      some ⟨h, id, sender, wire, accepts sender wire⟩ := by simp [callOf, copy]
  have verdict := answers r.state sender wire
  simp only [Mailbox.hand]
  generalize take r.state sender wire = result at verdict
  obtain ⟨state, accepted⟩ := result
  cases verdict
  refine follows.first (accepts sender wire) [⟨h, id, sender, wire, accepts sender wire⟩] new
    ?_ ?_ ?_ ?_ (.inl ⟨heard_first room, good.symm, by simp [called]⟩) <;>
    dsimp only <;> split <;> simp

theorem visit :
    Follows T accepts tag now (visit T take tag now h id r).1 (w.read T tag now h id).1 ∧
      (visit T take tag now h id r).2 = (w.read T tag now h id).2 := by
  unfold Mailbox.visit Reading.read
  by_cases met : id ∈ w.ids
  · have seen : id ∈ r.seen := follows.seen ▸ met
    rw [if_pos met, if_pos seen]
    exact ⟨follows.again rfl rfl rfl rfl met, rfl⟩
  have unseen : id ∉ r.seen := follows.seen ▸ met
  rw [if_neg met, if_neg unseen]
  have length : (r.seen ++ [id]).length = w.firsts.length + 1 := by
    simp [follows.seen, ids]
  simp only [length]
  by_cases room : w.firsts.length < maxCollect
  · have silent : ∀ {next : Round σ}, copyOf T tag now h id = none →
        next.seen = r.seen ++ [id] → next.takenIds = r.takenIds → next.toDelete = r.toDelete →
        next.calls = r.calls → Follows T accepts tag now next ⟨w.entries ++ [(h, id)], w.firsts ++ [(h, id)]⟩ := by
      intro next none seen taken deletes calls
      exact follows.first false [] met seen (by simp [taken]) (by simp [deletes]) (by simp [calls])
        (.inl ⟨heard_first room, by simp [acceptable, none], by simp [callOf, none]⟩)
    rw [if_neg (by omega)]
    cases fetched : T.fetch h tag id now with
    | error =>
      exact ⟨silent (by simp [copyOf, fetched]) rfl rfl rfl rfl, by simp [refuses, fetched]⟩
    | ok found =>
      cases found with
      | none =>
        exact ⟨silent (by simp [copyOf, fetched]) rfl rfl rfl rfl, by simp [refuses, fetched, room]⟩
      | some blob =>
        cases copy : splitBlob blob with
        | none =>
          simp only [copy]
          exact ⟨silent (by simp [copyOf, fetched, copy]) rfl rfl rfl rfl, by simp [refuses, fetched, room]⟩
        | some pair =>
          have came : copyOf T tag now h id = some pair := by simp [copyOf, fetched, copy]
          simp only [copy]
          exact ⟨follows.hand answers met room came, by simp [refuses, fetched, room]⟩
  · have same : (⟨w.entries ++ [(h, id)], w.firsts ++ [(h, id)]⟩ : Reading).heard = w.heard :=
      take_append_of_le_length (by omega)
    rw [if_pos (by omega)]
    refine ⟨follows.first false [] met rfl (by simp) (by simp) (by simp) (.inr ⟨same, rfl, rfl⟩), ?_⟩
    simp [room]

theorem visitEach {ids : List ItemId} :
    Follows T accepts tag now (visitEach T take tag now h ids r)
      (w.readEach T tag now h ids) := by
  induction ids generalizing r w with
  | nil => exact follows
  | cons id ids ih =>
    obtain ⟨after, goes⟩ := follows.visit answers
    simp only [visitEach, readEach]
    generalize Mailbox.visit T take tag now h id r = visited at after goes
    generalize w.read T tag now h id = read at after goes
    obtain ⟨r, on⟩ := visited
    obtain ⟨w, _⟩ := read
    cases goes
    cases on with
    | true => exact ih after
    | false => exact after

theorem askEach :
    Follows T accepts tag now (askEach T take tag now me holders r) (w.readAll T tag now me holders) := by
  induction holders generalizing r w with
  | nil => exact follows
  | cons h holders ih =>
    simp only [askEach, readAll, listed]
    split
    · exact ih follows
    cases T.list h tag now with
    | error => exact ih (follows.unreachable)
    | ok ids => exact ih (follows.visitEach answers)

end

theorem taken_iff : id ∈ r.takenIds ↔ ∃ holder, (holder, id) ∈ w.heard ∧
      acceptable T accepts tag now holder id = true := by
  simp [follows.taken]

theorem accepted_iff : (∃ call ∈ r.calls, call.id = id ∧ call.accepted = true) ↔ id ∈ r.takenIds := by
  rw [follows.taken_iff, follows.calls]
  simp only [mem_filterMap, callOf, Option.map_eq_some_iff, acceptable, Option.any_eq_true]
  constructor
  · rintro ⟨call, ⟨⟨holder, other⟩, heard, copy, came, rfl⟩, rfl, good⟩
    exact ⟨holder, heard, copy, came, good⟩
  · rintro ⟨holder, heard, copy, came, good⟩
    exact ⟨_, ⟨(holder, id), heard, copy, came, rfl⟩, rfl, good⟩

theorem copy_of_call (called : call ∈ r.calls) :
    copyOf T tag now call.holder call.id = some (call.sender, call.wire) := by
  rw [follows.calls] at called
  obtain ⟨entry, -, made⟩ := mem_filterMap.mp called
  obtain ⟨copy, came, rfl⟩ := Option.map_eq_some_iff.mp made
  exact came

theorem distinct_calls : r.calls.Pairwise (fun first second => second.id ≠ first.id) := by
  rw [follows.calls, pairwise_filterMap]
  have heard : w.heard.Pairwise (·.2 ≠ ·.2) :=
    (pairwise_map.mp follows.distinct).sublist (take_sublist _ _)
  refine heard.imp ?_
  intro first second different one called other recalled same
  obtain ⟨copy, _, rfl⟩ := Option.map_eq_some_iff.mp called
  obtain ⟨copy', _, rfl⟩ := Option.map_eq_some_iff.mp recalled
  exact different same.symm

end

end Follows

end Follows

/-! ## Reading what was listed -/

section Listed

variable {T : Transport} {tag : RecipientTag} {now : UInt64} {me h : B32}

variable {entry : B32 × ItemId} {w : Reading}

theorem mem_read {id : ItemId}
    (read : entry ∈ (w.read T tag now h id).1.entries) : entry ∈ w.entries ∨ entry = (h, id) := by
  unfold Reading.read at read
  split at read <;> simpa using read

theorem mem_readEach {ids : List ItemId} (read : entry ∈ (w.readEach T tag now h ids).entries) :
    entry ∈ w.entries ∨ entry.1 = h ∧ entry.2 ∈ ids := by
  induction ids generalizing w with
  | nil => exact .inl read
  | cons id ids ih =>
    have last : entry ∈ (w.read T tag now h id).1.entries →
        entry ∈ w.entries ∨ entry.1 = h ∧ entry.2 ∈ id :: ids := by
      intro read
      rcases mem_read read with old | rfl
      · exact .inl old
      · exact .inr ⟨rfl, mem_cons_self⟩
    simp only [readEach] at read
    split at read <;> rename_i next stepped <;> rw [stepped] at last
    · rcases ih read with old | ⟨here, later⟩
      · exact last old
      · exact .inr ⟨here, mem_cons_of_mem _ later⟩
    · exact last read

variable {holders : List B32}

theorem mem_readAll (read : entry ∈ (w.readAll T tag now me holders).entries) :
    entry ∈ w.entries ∨ Lists T tag now holders me entry.1 entry.2 := by
  induction holders generalizing w with
  | nil => exact .inl read
  | cons h holders ih =>
    have widen : Lists T tag now holders me entry.1 entry.2 → Lists T tag now (h :: holders) me entry.1 entry.2 :=
      fun lists => ⟨mem_cons_of_mem _ lists.1, lists.2⟩
    simp only [readAll] at read
    split at read
    · exact (ih read).imp_right widen
    rename_i other
    rcases ih read with old | later
    · rcases mem_readEach old with before | ⟨rfl, listed⟩
      · exact .inl before
      · exact .inr ⟨mem_cons_self, other, listed⟩
    · exact .inr (widen later)

theorem lists_of_reading {id : ItemId} (read : (h, id) ∈ (reading T tag now holders me).entries) :
    Lists T tag now holders me h id := by
  rcases mem_readAll read with none | lists
  · cases none
  · exact lists

end Listed

/-! ## Redundant custody -/

section Redundant

variable (T : Transport) (accepts : B32 → Bytes → Bool) (tag : RecipientTag)
  (now : UInt64) (holders : List B32) (me : B32)

/-- What redundant copies are for: an item of which one holder has an acceptable copy
is taken, once, and then removed wherever it is listed. -/
structure Collects {σ : Type} (r : Round σ) : Prop where
  delivered : (allListed T tag now holders me).dedup.length ≤ maxCollect →
    ∀ h id, Lists T tag now holders me h id → acceptable T accepts tag now h id = true →
      ∃ call ∈ r.calls, call.id = id ∧ call.accepted = true ∧
        copyOf T tag now call.holder id = some (call.sender, call.wire)
  once : r.calls.Pairwise (fun first second => first.accepted = true → second.id ≠ first.id)
  deleted : ∀ h id, (h, id) ∈ r.toDelete ↔
    (∃ call ∈ r.calls, call.id = id ∧ call.accepted = true) ∧ Lists T tag now holders me h id

/-- An item of which some holder has an acceptable copy is met first at such a holder,
and the list of every holder that has an item met like this is read as far as it. -/
structure MetWell : Prop where
  first : (allListed T tag now holders me).dedup.length ≤ maxCollect →
    ∀ h id, Lists T tag now holders me h id → acceptable T accepts tag now h id = true →
      ∃ holder, (holder, id) ∈ (reading T tag now holders me).heard ∧ acceptable T accepts tag now holder id = true
  reached : ∀ holder id, (holder, id) ∈ (reading T tag now holders me).heard →
    acceptable T accepts tag now holder id = true → ∀ h, Lists T tag now holders me h id →
      (h, id) ∈ (reading T tag now holders me).entries

end Redundant

/-- `take` may do anything to what it captured; whether it takes a copy depends on the
copy. -/
theorem collects_iff_met_well (P : Primitives) (T : Transport) (holders : List B32)
    (me : B32) (now : UInt64) (take : σ → B32 → Bytes → σ × Bool) (state : σ)
    (accepts : B32 → Bytes → Bool)
    (answers : ∀ s sender wire, (take s sender wire).2 = accepts sender wire) :
    Collects T accepts (.forRecipient P me) now holders me (collect P T holders me now take state) ↔
      MetWell T accepts (.forRecipient P me) now holders me := by
  have start : Follows T accepts (.forRecipient P me) now (Round.start state) ⟨[], []⟩ :=
    ⟨rfl, rfl, rfl, rfl, .nil, nofun⟩
  have follows : Follows T accepts (.forRecipient P me) now (collect P T holders me now take state)
      (reading T (.forRecipient P me) now holders me) := start.askEach answers
  generalize collect P T holders me now take state = r at follows
  have once : r.calls.Pairwise (fun first second => first.accepted = true → second.id ≠ first.id) := by
    refine Pairwise.imp ?_ follows.distinct_calls
    intro first second different _
    exact different
  constructor
  · intro collects
    constructor
    · intro few h id lists good
      obtain ⟨call, called, same, accepted, -⟩ := collects.delivered few h id lists good
      exact follows.taken_iff.mp (follows.accepted_iff.mp ⟨call, called, same, accepted⟩)
    · intro holder id heard good h lists
      have taken := follows.taken_iff.mpr ⟨holder, heard, good⟩
      have deleted := (collects.deleted h id).mpr ⟨follows.accepted_iff.mpr taken, lists⟩
      rw [follows.deletes] at deleted
      exact mem_of_mem_filter deleted
  · intro met
    refine ⟨?_, once, ?_⟩
    · intro few h id lists good
      have taken := follows.taken_iff.mpr (met.first few h id lists good)
      obtain ⟨call, called, rfl, accepted⟩ := follows.accepted_iff.mpr taken
      exact ⟨call, called, rfl, accepted, follows.copy_of_call called⟩
    intro h id
    rw [follows.accepted_iff, follows.deletes, mem_filter, decide_eq_true_iff]
    constructor
    · rintro ⟨read, taken⟩
      exact ⟨taken, lists_of_reading read⟩
    rintro ⟨taken, lists⟩
    obtain ⟨holder, heard, good⟩ := follows.taken_iff.mp taken
    exact ⟨met.reached holder id heard good h lists, taken⟩

namespace Holders

/-- Two holders list one item; `empty` does not return it, `honest` does. -/
def empty : B32 := .fill 32 1

def honest : B32 := .fill 32 2

def me : B32 := .fill 32 3

def item : ItemId := ⟨.fill 16 9⟩

def halfEmpty : Transport where
  list _ _ _ := .ok [item]
  fetch h _ _ _ := .ok (if h = honest then some (blobOf (.fill 32 4) [7]) else none)

def takeAll (_ : Unit) (_ : B32) (_ : Bytes) : Unit × Bool := ((), true)

end Holders

open Holders in
/-- With the honest holder in front, the item is taken and removed from both. -/
theorem collects_of_honest_first :
    Collects halfEmpty (fun _ _ => true) (.forRecipient .checksum me) 0 [honest, empty] me
      (collect .checksum halfEmpty [honest, empty] me 0 takeAll ()) := by
  refine (collects_iff_met_well .checksum halfEmpty [honest, empty] me 0 takeAll ()
    (fun _ _ => true) (fun _ _ _ => rfl)).mpr ?_
  have heard : (reading halfEmpty (.forRecipient .checksum me) 0 [honest, empty]
      me).heard = [(honest, item)] := by decide +kernel
  have entries : (reading halfEmpty (.forRecipient .checksum me) 0 [honest, empty]
      me).entries = [(honest, item), (empty, item)] := by decide +kernel
  have only : ∀ {h id}, Lists halfEmpty (.forRecipient .checksum me) 0 [honest, empty] me
      h id → (h = honest ∨ h = empty) ∧ id = item := by
    rintro h id ⟨asked, -, lists⟩
    exact ⟨by simpa using asked, mem_singleton.mp lists⟩
  constructor
  · intro _ h id lists _
    obtain ⟨-, rfl⟩ := only lists
    exact ⟨honest, by rw [heard]; simp, by decide +kernel⟩
  · intro holder id _ _ h lists
    obtain ⟨rfl | rfl, rfl⟩ := only lists <;> simp [entries]

open Holders in
/-- With the other in front, the answer that it has nothing uses up the item: nothing
is handed over, though `honest` lists the item and returns an acceptable copy. -/
theorem empty_answer_hides_copy :
    let tag := RecipientTag.forRecipient .checksum me
    let r := collect .checksum halfEmpty [empty, honest] me 0 takeAll ()
    (allListed halfEmpty tag 0 [empty, honest] me).dedup.length ≤ maxCollect ∧
      Lists halfEmpty tag 0 [empty, honest] me honest item ∧
      acceptable halfEmpty (fun _ _ => true) tag 0 honest item = true ∧
      r.calls = [] ∧ r.rep = ⟨0, 0, 1, 0⟩ ∧
      ¬ Collects halfEmpty (fun _ _ => true) tag 0 [empty, honest] me r := by
  intro tag r
  have few : (allListed halfEmpty tag 0 [empty, honest] me).dedup.length ≤ maxCollect := by
    decide +kernel
  have lists : Lists halfEmpty tag 0 [empty, honest] me honest item := ⟨by decide, by decide, by decide +kernel⟩
  have good : acceptable halfEmpty (fun _ _ => true) tag 0 honest item = true := by decide +kernel
  have silent : r.calls = [] := by decide +kernel
  refine ⟨few, lists, good, silent, by decide +kernel, fun collects => ?_⟩
  obtain ⟨call, called, -⟩ := collects.delivered few honest item lists good
  cases called

end Miasma.Chat.Mailbox
