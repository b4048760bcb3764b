import Miasma.Chat.Group.Steps
import Miasma.Data.Keyed
import Miasma.Data.Run

namespace Miasma.Chat.Group

open Data Group.Sample GroupCore SortedMap List GroupStore Group.Record Option

/-! # Messages of others are recorded once

There is one record for each counter; whether it is the author's own is up to the first who
names the counter. -/

variable {P : Primitives}

/-! ## What a recorded message does to the history -/

namespace GroupStore

variable {store : GroupStore} {gid : B16} {m : GroupMsg} (store : GroupStore) (gid : B16)

/-- The messages of `other` with `m` appended if it is the group of `m`. -/
def withMessage (m : GroupMsg) (other : B16) : List GroupMsg :=
  if other = gid then store.messages other ++ [m] else store.messages other

/-- Nothing is dropped from the history to make place: the log is within its
limit, or the ring has room for the text. -/
def Fits (countAfter : UInt64) (text : String) : Prop := if store.settings.historySave then
    countAfter.toNat ≤ store.settings.maxMessagesPerConversation + store.settings.maxMessagesPerConversation / 10
  else ringBytes store.ring + text.utf8ByteSize + entryOverhead ≤ store.settings.ephemeralBytes

instance (store : GroupStore) (countAfter : UInt64) (text : String) : Decidable (store.Fits countAfter text) := by
  unfold Fits
  infer_instance

theorem group_concat {gid other : B16} :
    group other (list ++ [(gid, m)]) = if other = gid then group other list ++ [m] else group other list := by
  unfold group
  by_cases same : other = gid
  · simp [same]
  have different : (gid == other) = false := by simpa using Ne.symm same
  simp [same, different]

theorem group_sublist (part : list.Sublist more) {gid : B16} :
    (group gid list).Sublist (group gid more) := (part.filter _).map _

theorem trimRing_sublist {ring : List (B16 × GroupMsg)} : (trimRing limit ring).Sublist ring := by
  induction ring with
  | nil => exact .slnil
  | cons oldest rest ih =>
    simp only [trimRing]
    split
    · exact .cons _ ih
    · exact .refl _

theorem trimRing_of_fits {ring : List (B16 × GroupMsg)} (fits : ringBytes ring ≤ limit) :
    trimRing limit ring = ring := by
  cases ring with
  | nil => rfl
  | cons oldest rest => rw [trimRing, if_neg (Nat.not_lt.mpr fits)]

theorem record_messages (m : GroupMsg) (countAfter : UInt64) :
    ∃ after, store.record {} gid m countAfter = (after, .ok ()) ∧
      (∀ other, (after.messages other).Sublist (store.withMessage gid m other)) ∧
      (store.Fits countAfter m.text → ∀ other, after.messages other = store.withMessage gid m other) := by
  unfold record Fits
  by_cases saved : store.settings.historySave = true
  · simp only [saved, Bool.not_true, Bool.false_eq_true, if_false, if_true]
    have grown : ∀ other, ({ store with logs := store.logs ++ [(gid, m)] } : GroupStore).messages other =
        store.withMessage gid m other := by
      intro other
      simp only [messages, withMessage, saved, if_true, group_concat]
    split
    · rename_i beyond
      refine ⟨_, rfl, fun other => ?_, fun within => absurd beyond (Nat.not_lt.mpr within)⟩
      rw [← grown other]
      simp only [messages, saved, if_true]
      exact group_sublist filter_sublist
    · refine ⟨_, rfl, fun other => ?_, fun _ => grown⟩
      rw [grown other]
  · simp only [saved, Bool.not_false, if_true, Bool.false_eq_true, if_false]
    have grown : ∀ other, group other (store.ring ++ [(gid, m)]) = store.withMessage gid m other := by
      intro other
      simp only [messages, withMessage, saved, Bool.false_eq_true, if_false, group_concat]
    refine ⟨_, rfl, fun other => ?_, fun room other => ?_⟩
    · rw [← grown other]
      simp only [messages, saved, Bool.false_eq_true, if_false]
      exact group_sublist trimRing_sublist
    · rw [← grown other]
      simp only [messages, saved, Bool.false_eq_true, if_false]
      rw [trimRing_of_fits]
      simp only [ringBytes, map_append, sum_append, map_cons, map_nil, sum_cons, sum_nil, GroupMsg.cost] at room ⊢
      omega

end GroupStore

variable {after : GroupCore}

namespace GroupCore

variable {core after : GroupCore} {gid : B16} {s : GroupState} {m : GroupMsg}

/-- The number of messages the group counts with the next one. -/
def countNext (store : GroupStore) (s : GroupState) : UInt64 :=
  (if s.nextOrd = 0 then (store.maxOrd s.gid).2 else s.count) + 1

def applied (s : GroupState) (sender : B32) : SenderVec := (s.vectors.get? sender).getD default

/-- `m` is recorded in the group `gid`, which is `s` before, and its counter is
marked. -/
structure Takes (core : GroupCore) (gid : B16) (s : GroupState) (m : GroupMsg) (after : GroupCore) : Prop where
  own : after.own = core.own
  group : ∃ next, (∀ other, after.groups.get? other = if other = gid then some next else core.groups.get? other) ∧
    next.gid = s.gid ∧ next.vectors = s.vectors.insert m.sender ((applied s m.sender).mark m.counter)
  history : ∃ ord,
    (∀ other, (after.store.messages other).Sublist (core.store.withMessage s.gid { m with ord := ord } other)) ∧
    (core.store.Fits (countNext core.store s) m.text →
      ∀ other, after.store.messages other = core.store.withMessage s.gid { m with ord := ord } other)

theorem numberMessage_fields {store : GroupStore} :
    (numberMessage store s m).1.vectors = s.vectors ∧ (numberMessage store s m).1.gid = s.gid ∧
      (numberMessage store s m).1.count = countNext store s ∧
      ∃ ord, (numberMessage store s m).2 = { m with ord := ord } := by
  unfold numberMessage countNext
  split
  all_goals exact ⟨rfl, rfl, rfl, _, rfl⟩

theorem save_succeeds (core : GroupCore) (s : GroupState) :
    ∃ after, core.save {} s = (after, .ok ()) ∧ after.own = core.own ∧ after.groups = core.groups ∧
      ∀ other, after.store.messages other = core.store.messages other :=
  ⟨_, rfl, rfl, rfl, fun _ => rfl⟩

theorem takeMessage_takes (core : GroupCore) (gid : B16) (s : GroupState) (m : GroupMsg)
    (stamp : GroupState → GroupState)
    (quiet : ∀ s, (stamp s).vectors = s.vectors ∧ (stamp s).gid = s.gid) :
    (core.takeMessage {} gid s m stamp).2.1 = .stored ∧ Takes core gid s m (core.takeMessage {} gid s m stamp).1 := by
  obtain ⟨vectors, sameGid, count, ord, numbered⟩ := numberMessage_fields
  generalize number : numberMessage core.store s m = pair at vectors sameGid count numbered
  obtain ⟨mid, n⟩ := pair
  simp only at vectors sameGid count numbered
  subst numbered
  obtain ⟨store, recorded, fewer, all⟩ := core.store.record_messages mid.gid { m with ord := ord } mid.count
  have locked : recordLocked core.store {} s m = (store, mid, .ok ()) := by
    simp only [recordLocked, number, recorded]
  obtain ⟨after, saved, own, groups, messages⟩ :=
    save_succeeds ({ core with store := store }.putGroup gid (stamp (mid.markCounter m.sender m.counter)))
      (stamp (mid.markCounter m.sender m.counter))
  simp only [takeMessage, locked, saved, pushEvent]
  refine ⟨trivial, own, ⟨stamp (mid.markCounter m.sender m.counter), ?_, ?_, ?_⟩, ord, ?_, ?_⟩
  · rw [groups]
    exact fun other => get?_insert _
  · rw [(quiet _).2]
    exact sameGid
  · rw [(quiet _).1]
    simp only [GroupState.markCounter, applied, vectors]
  · intro other
    rw [messages, ← sameGid]
    exact fewer other
  · intro fits other
    rw [messages, ← sameGid]
    exact all (count ▸ fits) other

/-- Nothing is recorded and no counter is marked. -/
structure Unread (core after : GroupCore) : Prop where
  own : after.own = core.own
  groups : ∀ gid next, after.groups.get? gid = some next →
    ∃ s, core.groups.get? gid = some s ∧ next.gid = s.gid ∧ next.vectors = s.vectors
  messages : ∀ other, after.store.messages other = core.store.messages other

theorem Unread.refl : Unread core core :=
  ⟨rfl, fun _ s found => ⟨s, found, rfl, rfl⟩, fun _ => rfl⟩

theorem Unread.owe (found : core.groups.get? gid = some s) (own : after.own = core.own)
    (groups : after.groups = core.groups.insert gid (s.owe dest kind arg).1)
    (messages : ∀ other, after.store.messages other = core.store.messages other) : Unread core after where
  own := own
  groups := by
    intro other next there
    rcases get?_insert_cases (groups ▸ there) with ⟨rfl, rfl⟩ | ⟨-, there⟩
    · rw [GroupState.owe_rest]
      exact ⟨s, found, rfl, rfl⟩
    · exact ⟨next, there, rfl, rfl⟩
  messages := messages

def liveMessage (peer : B32) (t : GroupText) (now : UInt64) : GroupMsg :=
  { ord := 0, outgoing := false, sender := peer, counter := t.counter, id := t.id, sentMs := t.sentMs,
    atMs := now, epoch := t.epoch, text := t.text, sharedBy := none }

def sharedMessage (peer : B32) (o : HistOffer) (now : UInt64) : GroupMsg :=
  { ord := 0, outgoing := false, sender := o.originalSender, counter := o.originalCounter, id := o.originalId,
    sentMs := o.originalSentMs, atMs := now, epoch := o.originEpoch, text := o.text, sharedBy := some peer }

def Fresh (s : GroupState) (sender : B32) (counter : UInt64) : Prop :=
  ∀ v, s.vectors.get? sender = some v → v.isNew counter = true

theorem fresh_of_any (new : ¬ (s.vectors.get? sender).any (!·.isNew counter) = true) :
    Fresh s sender counter := by
  intro v found
  simpa [found] using new

theorem handleText_cases {answer : AckStatus} (core : GroupCore) (peer : B32) (t : GroupText) (now : UInt64)
    (trusted : B32 → Bool) (handled : core.handleText {} peer t now trusted = (after, answer, kick)) :
    (Unread core after ∧ answer ≠ .stored ∧ answer ≠ .duplicate) ∨
    (after = core ∧ answer = .duplicate ∧ ∃ s v, core.groups.get? t.gid = some s ∧
      s.vectors.get? peer = some v ∧ v.isNew t.counter = false) ∨
    (answer = .stored ∧ ∃ s, core.groups.get? t.gid = some s ∧ Fresh s peer t.counter ∧
      Takes core t.gid s (liveMessage peer t now) after) := by
  have unread : ∀ {answer : AckStatus}, answer ≠ .stored → answer ≠ .duplicate →
      (Unread core core ∧ answer ≠ .stored ∧ answer ≠ .duplicate) := fun stored duplicate =>
    ⟨.refl, stored, duplicate⟩
  simp only [handleText] at handled
  split at handled
  · cases handled
    exact .inl (unread (by simp) (by simp))
  rename_i s found
  split at handled
  · cases handled
    exact .inl (unread (by simp) (by simp))
  · cases handled
    exact .inl (unread (by simp) (by simp))
  · cases handled
    exact .inl (unread (by simp) (by simp))
  split at handled
  · split at handled
    all_goals
      rename_i owed
      cases handled
      have same := congrArg Prod.fst owed
      exact .inl ⟨.owe found rfl (by rw [same]; rfl) (fun _ => rfl), by simp, by simp⟩
  split at handled
  · cases handled
    exact .inl (unread (by simp) (by simp))
  split at handled
  · cases handled
    exact .inl (unread (by simp) (by simp))
  split at handled
  · rename_i known
    cases handled
    obtain ⟨v, there, old⟩ := (any_eq_true _ _).mp known
    exact .inr (.inl ⟨rfl, rfl, s, v, found, there, by simpa using old⟩)
  rename_i new
  split at handled
  · cases handled
    exact .inl (unread (by simp) (by simp))
  have taken := takeMessage_takes core t.gid s (liveMessage peer t now) (fun s => (s.confirm peer).1) (fun s => by
      simp only [GroupState.confirm]
      split
      · exact ⟨rfl, rfl⟩
      · exact ⟨rfl, rfl⟩)
  have same : core.takeMessage {} t.gid s (liveMessage peer t now) (fun s => (s.confirm peer).1) =
      (after, answer, kick) := handled
  rw [same] at taken
  exact .inr (.inr ⟨taken.1, s, found, fresh_of_any new, taken.2⟩)

theorem handleHistOffer_cases {answer : AckStatus} (core : GroupCore) (peer : B32) (o : HistOffer) (now : UInt64)
    (handled : core.handleHistOffer {} peer o now = (after, answer, kick)) :
    after = core ∨ (o.originalSender ≠ core.own ∧ ∃ s, core.groups.get? o.gid = some s ∧
      Fresh s o.originalSender o.originalCounter ∧ Takes core o.gid s (sharedMessage peer o now) after) := by
  simp only [handleHistOffer] at handled
  split at handled
  · cases handled
    exact .inl rfl
  rename_i s found
  split at handled
  · cases handled
    exact .inl rfl
  · cases handled
    exact .inl rfl
  · cases handled
    exact .inl rfl
  split at handled
  · cases handled
    exact .inl rfl
  split at handled
  · cases handled
    exact .inl rfl
  rename_i allowed
  split at handled
  · cases handled
    exact .inl rfl
  split at handled
  · cases handled
    exact .inl rfl
  rename_i new
  split at handled
  · cases handled
    exact .inl rfl
  have taken := takeMessage_takes core o.gid s (sharedMessage peer o now) id (fun _ => ⟨rfl, rfl⟩)
  have same : core.takeMessage {} o.gid s (sharedMessage peer o now) id = (after, answer, kick) := handled
  rw [same] at taken
  exact .inr ⟨fun own => allowed (.inl own), s, found, fresh_of_any new, taken.2⟩

/-! ## One record for each counter -/

def RecordedOnce (core : GroupCore) : Prop :=
  ∀ gid, Distinct (fun m : GroupMsg => (m.sender, m.counter)) (core.store.messages gid)

/-- Groups sit under their own IDs, and what others wrote is recorded once and
counted as applied. -/
structure Counted (core : GroupCore) : Prop where
  keyed : ∀ gid s, core.groups.get? gid = some s → s.gid = gid
  once : RecordedOnce core
  marked : ∀ gid s, core.groups.get? gid = some s → ∀ m ∈ core.store.messages gid, m.sender ≠ core.own →
    ∃ v, s.vectors.get? m.sender = some v ∧ v.isNew m.counter = false

theorem counted_of_silent (keyed : ∀ gid s, core.groups.get? gid = some s → s.gid = gid)
    (silent : ∀ gid, core.store.messages gid = []) : Counted core where
  keyed := keyed
  once gid := by
    rw [silent gid]
    exact Distinct.nil
  marked gid s _ m member := by
    rw [silent gid] at member
    contradiction

theorem Counted.unread (counted : Counted core) (unread : Unread core after) : Counted after where
  keyed gid next found := by
    obtain ⟨s, there, same, -⟩ := unread.groups gid next found
    rw [same, counted.keyed gid s there]
  once gid := unread.messages gid ▸ counted.once gid
  marked gid next found m member other := by
    obtain ⟨s, there, -, vectors⟩ := unread.groups gid next found
    rw [unread.own] at other
    rw [vectors]
    exact counted.marked gid s there m (unread.messages gid ▸ member) other

theorem mem_withMessage {store : GroupStore} {other : B16}
    (member : held ∈ store.withMessage gid m other) : held ∈ store.messages other ∨ other = gid ∧ held = m := by
  unfold withMessage at member
  split at member
  · rename_i same
    exact (mem_snoc.mp member).imp_right (⟨same, ·⟩)
  · exact .inl member

theorem Counted.takes (counted : Counted core) (found : core.groups.get? gid = some s)
    (fresh : Fresh s m.sender m.counter) (other : m.sender ≠ core.own)
    (takes : Takes core gid s m after) : Counted after := by
  obtain ⟨own, ⟨next, groups, sameGid, vectors⟩, ord, fewer, -⟩ := takes
  have here : s.gid = gid := counted.keyed gid s found
  rw [here] at fewer
  refine ⟨fun place held there => ?_, fun place => ?_, fun place held there n member notOwn => ?_⟩
  · rw [groups] at there
    split at there
    · rename_i same
      cases there
      rw [sameGid, here, same]
    · exact counted.keyed place held there
  · refine Distinct.sublist ?_ (fewer place)
    unfold withMessage
    split
    · rename_i same
      subst same
      refine (counted.once place).concat fun held member same => ?_
      -- A record under the same counter would be counted as applied.
      simp only [Prod.mk.injEq] at same
      obtain ⟨v, there, old⟩ := counted.marked place s found held member (same.1 ▸ other)
      rw [same.1] at there
      rw [same.2, fresh v there] at old
      contradiction
    · exact counted.once place
  rw [own] at notOwn
  rw [groups] at there
  split at there
  · rename_i same
    cases there
    subst same
    rw [vectors, get?_insert]
    have covered : n.sender = m.sender → ((applied s m.sender).mark m.counter).isNew n.counter = false := by
      intro sender
      refine Applied.isNew_mark_of_covered ?_
      rcases mem_withMessage ((fewer place).subset member) with old | ⟨-, new⟩
      · obtain ⟨v, there, old⟩ := counted.marked place s found n old notOwn
        rw [sender] at there
        exact .inl (by rw [applied, there]; exact old)
      · exact .inr (by rw [new])
    split
    · rename_i sender
      exact ⟨_, rfl, covered sender⟩
    rename_i different
    rcases mem_withMessage ((fewer place).subset member) with old | ⟨-, new⟩
    · exact counted.marked place s found n old notOwn
    · exact absurd (by rw [new]) different
  · rename_i different
    rcases mem_withMessage ((fewer place).subset member) with old | ⟨same, -⟩
    · exact counted.marked place held there n old notOwn
    · exact absurd same different

/-! ## A record for each counter -/

/-- Every counter that counts as applied has a record. -/
def Whole (core : GroupCore) : Prop :=
  ∀ gid s, core.groups.get? gid = some s → ∀ sender v counter, s.vectors.get? sender = some v →
    v.isNew counter = false → counter ≠ 0 →
    ∃ m ∈ core.store.messages gid, m.sender = sender ∧ m.counter = counter

theorem whole_of_silent (silent : ∀ gid s, core.groups.get? gid = some s → s.vectors = empty) : Whole core := by
  intro gid s found sender v counter there
  rw [silent gid s found] at there
  contradiction

theorem Whole.unread (whole : Whole core) (unread : Unread core after) : Whole after := by
  intro gid next found sender v counter there old nonzero
  obtain ⟨s, held, -, vectors⟩ := unread.groups gid next found
  rw [vectors] at there
  rw [unread.messages gid]
  exact whole gid s held sender v counter there old nonzero

theorem Takes.keeps (takes : Takes core gid s m after)
    (fits : core.store.Fits (countNext core.store s) m.text) {other : B16}
    (member : held ∈ core.store.messages other) : held ∈ after.store.messages other := by
  obtain ⟨-, -, ord, -, all⟩ := takes
  rw [all fits, withMessage]
  split
  · exact mem_append_left _ member
  · exact member

theorem Takes.recorded (takes : Takes core gid s m after) (keyed : s.gid = gid)
    (fits : core.store.Fits (countNext core.store s) m.text) :
    ∃ ord, { m with ord := ord } ∈ after.store.messages gid := by
  obtain ⟨-, -, ord, -, all⟩ := takes
  refine ⟨ord, ?_⟩
  rw [all fits, withMessage, if_pos keyed.symm]
  exact mem_append_right _ mem_cons_self

theorem Whole.takes (whole : Whole core) (keyed : s.gid = gid) (found : core.groups.get? gid = some s)
    (room : (applied s m.sender).Room m.counter)
    (fits : core.store.Fits (countNext core.store s) m.text) (takes : Takes core gid s m after) :
    Whole after := by
  intro place held there sender v counter vector old nonzero
  obtain ⟨ord, recorded⟩ := takes.recorded keyed fits
  have before : ∀ {known : GroupState} {w : SenderVec}, core.groups.get? place = some known →
      known.vectors.get? sender = some w → w.isNew counter = false →
      ∃ n ∈ after.store.messages place, n.sender = sender ∧ n.counter = counter := by
    intro known w inside vector old
    obtain ⟨n, member, facts⟩ := whole place known inside sender w counter vector old nonzero
    exact ⟨n, takes.keeps fits member, facts⟩
  obtain ⟨-, ⟨next, groups, -, vectors⟩, -⟩ := takes
  rw [groups] at there
  split at there
  · rename_i same
    cases there
    subst same
    rw [vectors, get?_insert] at vector
    split at vector
    · rename_i who
      cases vector
      rcases (Applied.isNew_mark room).mp old with was | now
      · unfold applied at was
        cases held : s.vectors.get? m.sender with
        | none =>
          rw [held, getD_none, Applied.isNew_default] at was
          exact absurd was nonzero
        | some w =>
          rw [held] at was
          exact before found (who ▸ held) was
      · exact ⟨_, recorded, who.symm, now.symm⟩
    · exact before found vector old
  · exact before there vector old

end GroupCore

theorem counter_ne_zero (read : decode P plain = .ok (.text t)) : t.counter ≠ 0 := by
  have text : Yields GroupText.read (·.counter ≠ 0) :=
    .bind fun gid => .bind fun epoch => .bind fun counter => .bind fun id => .bind fun sentMs =>
      .check fun nonzero => .bind fun text => yields_pure nonzero
  unfold decode at read
  split at read
  · contradiction
  split at read
  · obtain ⟨held, found, same⟩ := parsed_ok_iff.mp read
    cases same
    exact text.complete found
  split at read
  · obtain ⟨_, -, same⟩ := parsed_ok_iff.mp read
    contradiction
  split at read
  · obtain ⟨_, -, same⟩ := parsed_ok_iff.mp read
    contradiction
  split at read
  · obtain ⟨_, -, same⟩ := parsed_ok_iff.mp read
    contradiction
  · contradiction

namespace Once

open GroupCore

/-! ## Runs of live texts and offers -/

structure Incoming where
  peer : B32
  plain : Bytes
  now : UInt64
  trusted : B32 → Bool

/-- A device with the live texts that it answered with Stored or Duplicate. -/
structure World where
  core : GroupCore
  answered : List (B32 × GroupText)

def text? (P : Primitives) (plain : Bytes) : Option GroupText := match decode P plain with
  | .ok (.text t) => some t
  | _ => none

def offer? (P : Primitives) (plain : Bytes) : Option HistOffer := match decode P plain with
  | .ok (.histOffer o) => some o
  | _ => none

/-- A live text or an offer from another device is handled; every write succeeds. -/
def World.step (P : Primitives) (w : World) (e : Incoming) : Option World :=
  if e.peer = w.core.own ∨ (text? P e.plain).isNone ∧ (offer? P e.plain).isNone then none
  else
    let handled := w.core.handle P {} e.peer e.plain e.now e.trusted
    let kept := handled.2.1 = .stored ∨ handled.2.1 = .duplicate
    some ⟨handled.1, if kept then w.answered ++ ((text? P e.plain).map (e.peer, ·)).toList else w.answered⟩

/-- Every live text that was answered so is in the history as its sender wrote it. -/
def World.Kept (w : World) : Prop := ∀ pair ∈ w.answered, ∃ m ∈ w.core.store.messages pair.2.gid,
    m.sender = pair.1 ∧ m.counter = pair.2.counter ∧ m.id = pair.2.id ∧ m.text = pair.2.text

def content? (P : Primitives) (e : Incoming) : Option (B16 × B32 × UInt64 × String) :=
  match decode P e.plain with
  | .ok (.text t) => some (t.gid, e.peer, t.counter, t.text)
  | .ok (.histOffer o) => some (o.gid, o.originalSender, o.originalCounter, o.text)
  | _ => none

/-- What the history has under the counter of a live text is that text, no gap of
counters is given up, and nothing is dropped to make place in the history. -/
def Faithful (P : Primitives) (w : World) (e : Incoming) : Prop :=
  (∀ t ∈ text? P e.plain, ∀ m ∈ w.core.store.messages t.gid,
    m.sender = e.peer → m.counter = t.counter → m.id = t.id ∧ m.text = t.text) ∧
  ∀ x ∈ content? P e, ∀ s ∈ w.core.groups.get? x.1,
    (applied s x.2.1).Room x.2.2.1 ∧ w.core.store.Fits (countNext w.core.store s) x.2.2.2

instance (P : Primitives) (w : World) (e : Incoming) : Decidable (Faithful P w e) := by
  unfold Faithful
  infer_instance

variable {w next : World} {e : Incoming}

theorem step_cases (stepped : w.step P e = some next) : e.peer ≠ w.core.own ∧ ∃ after answer kick,
      ((∃ t, text? P e.plain = some t ∧ content? P e = some (t.gid, e.peer, t.counter, t.text) ∧ t.counter ≠ 0 ∧
          w.core.handleText {} e.peer t e.now e.trusted = (after, answer, kick) ∧
          next = ⟨after, if answer = .stored ∨ answer = .duplicate then w.answered ++ [(e.peer, t)]
            else w.answered⟩) ∨
        ∃ o, text? P e.plain = none ∧ content? P e = some (o.gid, o.originalSender, o.originalCounter, o.text) ∧
          w.core.handleHistOffer {} e.peer o e.now = (after, answer, kick) ∧
          next = ⟨after, w.answered⟩) := by
  unfold World.step at stepped
  split at stepped
  · contradiction
  rename_i possible
  obtain ⟨other, known⟩ := not_or.mp possible
  cases stepped
  refine ⟨other, ?_⟩
  unfold text? offer? at known
  cases read : decode P e.plain with
  | error => simp [read] at known
  | ok record =>
    cases record with
    | descs | sync => simp [read] at known
    | text t =>
      generalize handled : w.core.handleText {} e.peer t e.now e.trusted = result
      refine ⟨result.1, result.2.1, result.2.2, .inl ⟨t, ?_, ?_, counter_ne_zero read, handled, ?_⟩⟩
      · simp only [text?, read]
      · simp only [content?, read]
      · simp only [text?, handle, read, handled, map_some, toList_some]
    | histOffer o =>
      generalize handled : w.core.handleHistOffer {} e.peer o e.now = result
      refine ⟨result.1, result.2.1, result.2.2, .inr ⟨o, ?_, ?_, handled, ?_⟩⟩
      · simp only [text?, read]
      · simp only [content?, read]
      · simp only [text?, handle, read, handled, map_none, toList_none, append_nil, ite_self]

theorem counted_step (counted : Counted w.core) (stepped : w.step P e = some next) : Counted next.core := by
  obtain ⟨other, after, answer, kick, ⟨t, -, -, -, handled, rfl⟩ | ⟨o, -, -, handled, rfl⟩⟩ := step_cases stepped
  · rcases handleText_cases w.core e.peer t e.now e.trusted handled with ⟨unread, -⟩ | ⟨rfl, -⟩ |
        ⟨-, s, found, fresh, takes⟩
    · exact counted.unread unread
    · exact counted
    · exact counted.takes found fresh other takes
  · rcases handleHistOffer_cases w.core e.peer o e.now handled with rfl | ⟨other, s, found, fresh, takes⟩
    · exact counted
    · exact counted.takes found fresh other takes

structure Inv (w : World) : Prop where
  counted : Counted w.core
  whole : Whole w.core
  kept : w.Kept

theorem World.Kept.carry (kept : w.Kept)
    (grown : ∀ other, ∀ m ∈ w.core.store.messages other, m ∈ after.store.messages other) :
    World.Kept ⟨after, w.answered⟩ := by
  intro pair member
  obtain ⟨m, there, facts⟩ := kept pair member
  exact ⟨m, grown _ m there, facts⟩

theorem World.Kept.answer (kept : w.Kept) (recorded : ∃ m ∈ w.core.store.messages t.gid,
      m.sender = peer ∧ m.counter = t.counter ∧ m.id = t.id ∧ m.text = t.text) :
    World.Kept ⟨w.core, w.answered ++ [(peer, t)]⟩ :=
  forall_mem_snoc kept recorded

theorem Inv.step (inv : Inv w) (faithful : Faithful P w e) (stepped : w.step P e = some next) : Inv next := by
  have counted := counted_step inv.counted stepped
  obtain ⟨other, after, answer, kick, ⟨t, text, entry, nonzero, handled, rfl⟩ |
    ⟨o, -, entry, handled, rfl⟩⟩ := step_cases stepped
  · rcases handleText_cases w.core e.peer t e.now e.trusted handled with ⟨unread, stored, duplicate⟩ |
        ⟨rfl, rfl, s, v, found, there, old⟩ | ⟨rfl, s, found, fresh, takes⟩
    · refine ⟨counted, inv.whole.unread unread, ?_⟩
      rw [if_neg (not_or.mpr ⟨stored, duplicate⟩)]
      exact inv.kept.carry fun place m member => unread.messages place ▸ member
    · obtain ⟨m, member, sender, counter⟩ := inv.whole t.gid s found e.peer v t.counter there old nonzero
      obtain ⟨id, words⟩ := faithful.1 t text m member sender counter
      refine ⟨counted, inv.whole, ?_⟩
      exact inv.kept.answer ⟨m, member, sender, counter, id, words⟩
    obtain ⟨room, fits⟩ : (applied s e.peer).Room t.counter ∧
        w.core.store.Fits (countNext w.core.store s) t.text := faithful.2 _ entry s found
    have keyed := inv.counted.keyed t.gid s found
    obtain ⟨ord, recorded⟩ := takes.recorded keyed fits
    have whole := inv.whole.takes (m := liveMessage e.peer t e.now) keyed found room fits takes
    refine ⟨counted, whole, ?_⟩
    exact World.Kept.answer (inv.kept.carry fun place m member => takes.keeps fits member)
      ⟨_, recorded, rfl, rfl, rfl, rfl⟩
  · rcases handleHistOffer_cases w.core e.peer o e.now handled with rfl | ⟨other, s, found, fresh, takes⟩
    · exact ⟨counted, inv.whole, inv.kept⟩
    obtain ⟨room, fits⟩ : (applied s o.originalSender).Room o.originalCounter ∧
        w.core.store.Fits (countNext w.core.store s) o.text := faithful.2 _ entry s found
    have keyed := inv.counted.keyed o.gid s found
    have whole := inv.whole.takes (m := sharedMessage e.peer o e.now) keyed found room fits takes
    exact ⟨counted, whole, inv.kept.carry fun place m member => takes.keeps fits member⟩

end Once

open Once in
/-- In every run from a device on which what others wrote is recorded once and
counted, there is at most one record for each sender and counter.  If every counted
one has its record at first and the steps are faithful, each text that was answered
with Stored or Duplicate is in the history as its sender wrote it. -/
theorem recorded_once_and_kept (P : Primitives) (core : GroupCore) (counted : Counted core)
    (events : List Incoming) (last : World) (ran : run (World.step P) ⟨core, []⟩ events = some last) :
    RecordedOnce last.core ∧ (Whole core → Along (World.step P) (Faithful P) ⟨core, []⟩ events → last.Kept) := by
  constructor
  · exact (invariant_of_run (I := fun w => Counted w.core) (fun counted _ stepped =>
      counted_step counted stepped) counted (along_of_forall (fun _ _ _ => trivial) _) ran).once
  · intro whole faithful
    exact (invariant_of_run Inv.step ⟨counted, whole, by simp [World.Kept]⟩ faithful ran).kept

namespace Sample

open Once

/-- The group of the admin, the guest and one more, as the guest's device has it
after the invitation. -/
def trioRoot : Descriptor := Descriptor.signed .checksum
    { root with members := [⟨admin, .admin, ""⟩, ⟨guest, .member, ""⟩, ⟨other, .member, ""⟩] } admin

def invitation : Faults × Op := ({}, .handle admin ((encodeDescs [trioRoot]).toOption.getD []) 1000 (fun _ => true))

@[irreducible] def guestCore : GroupCore :=
  (fresh .checksum guest 4096 ⟨true, 1000, 1000⟩).run .checksum [invitation]

def firstText : GroupText := ⟨gid, 1, 1, ByteVec.fill 16 5, 1001, "hello"⟩

/-- What the third member offers as the admin's first message. -/
def offered (text : String) : HistOffer := ⟨gid, 1, admin, 1, ByteVec.fill 16 5, 1001, text⟩

def heardText : Incoming := ⟨admin, firstText.encode.toOption.getD [], 1002, fun _ => true⟩

def heardOffer (text : String) : Incoming := ⟨other, (offered text).encode.toOption.getD [], 1002, fun _ => true⟩

theorem guestCore_silent : (∀ gid s, guestCore.groups.get? gid = some s → s.gid = gid ∧ s.vectors = empty) ∧
      ∀ gid, guestCore.store.messages gid = [] := by
  have groups : guestCore.groups.entries.all (fun pair =>
      pair.2.gid = pair.1 ∧ pair.2.vectors = empty) = true := by
    decide +kernel
  have nothing : guestCore.store.logs = [] ∧ guestCore.store.ring = [] := by
    decide +kernel
  refine ⟨fun gid s found => ?_, fun gid => ?_⟩
  · exact of_decide_eq_true (all_eq_true.mp groups _ (get?_eq_some_iff.mp found))
  · simp [messages, group, nothing]

end Sample

/-- The offer and the live text agree; the text is answered with Duplicate. -/
theorem recorded_once_and_kept_agreeing : ∃ last, run (Once.World.step .checksum) ⟨guestCore, []⟩
        [heardOffer "hello", heardText] = some last ∧
      last.answered = [(admin, firstText)] ∧ RecordedOnce last.core ∧ last.Kept := by
  have faithful : Along (Once.World.step .checksum) (Once.Faithful .checksum)
      ⟨guestCore, []⟩ [heardOffer "hello", heardText] := by
    decide +kernel
  have shown : (run (Once.World.step .checksum) ⟨guestCore, []⟩
      [heardOffer "hello", heardText]).any (fun last =>
        last.answered = [(admin, firstText)]) = true := by
    decide +kernel
  obtain ⟨groups, nothing⟩ := guestCore_silent
  obtain ⟨last, ran, answered⟩ := exists_of_any shown
  have kept := recorded_once_and_kept _ _
    (counted_of_silent (fun gid s found => (groups gid s found).1) nothing) _ last ran
  exact ⟨last, ran, answered, kept.1, kept.2 (whole_of_silent fun gid s found => (groups gid s found).2) faithful⟩

/-- The live text is answered with Duplicate and lost: the history has what another
member said it was. -/
theorem forged_offer_displaces_text : ∃ last, run (Once.World.step .checksum) ⟨guestCore, []⟩
        [heardOffer "forged", heardText] = some last ∧ ¬ last.Kept := by
  have shown : (run (Once.World.step .checksum) ⟨guestCore, []⟩
      [heardOffer "forged", heardText]).any (fun last =>
        last.answered = [(admin, firstText)] ∧
          (last.core.store.messages gid).all (·.text ≠ "hello")) = true := by
    decide +kernel
  obtain ⟨last, ran, answered, forged⟩ := exists_of_any shown
  refine ⟨last, ran, fun kept => ?_⟩
  obtain ⟨m, member, -, -, -, text⟩ := kept (admin, firstText) (by simp [answered])
  exact absurd text (of_decide_eq_true (all_eq_true.mp forged m member))

end Miasma.Chat.Group
