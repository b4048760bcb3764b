import Miasma.Chat.Engine.Accept

namespace Miasma.Chat

open Data Protocol Chat.Pq Sample ChatStore Envelope PeerState

/-! The numbers a contact state counts as applied and the envelope ids it remembers stand for
recorded texts, as long as no text is refused for its length, no gap is given up on and no id is
used twice. -/

namespace Proto

variable {bytes : Bytes}

theorem need_bind {read : Reader α} {result : β × Bytes}
    (ok : (need what read >>= rest) bytes = .ok result) : ∃ found left, rest found left = .ok result := by
  simp only [bind, StateT.bind, need, Except.bind] at ok
  cases found : read bytes with
  | none => simp [found] at ok
  | some pair =>
    simp only [found] at ok
    exact ⟨pair.1, pair.2, ok⟩

theorem refuse_bind [Decidable wrong] {result : β × Bytes}
    (ok : (if wrong then refuse what >>= rest else rest ()) bytes = .ok result) :
    ¬ wrong ∧ rest () bytes = .ok result := by
  by_cases bad : wrong
  · rw [if_pos bad] at ok
    cases ok
  · rw [if_neg bad] at ok
    exact ⟨bad, ok⟩

theorem Message.decode_seq (decoded : Message.decode bytes = .ok m) : m.seq ≠ 0 := by
  unfold Message.decode at decoded
  cases parsed : Message.decode.read bytes with
  | error =>
    rw [parsed] at decoded
    cases decoded
  | ok =>
    rw [parsed] at decoded
    cases decoded
    obtain ⟨kind, left, parsed⟩ := need_bind parsed
    obtain ⟨-, parsed⟩ := refuse_bind parsed
    obtain ⟨id, left, parsed⟩ := need_bind parsed
    obtain ⟨seq, left, parsed⟩ := need_bind parsed
    obtain ⟨sentMs, left, parsed⟩ := need_bind parsed
    obtain ⟨length, left, parsed⟩ := need_bind parsed
    obtain ⟨-, parsed⟩ := refuse_bind parsed
    obtain ⟨body, left, parsed⟩ := need_bind parsed
    obtain ⟨text, left, parsed⟩ := need_bind parsed
    obtain ⟨counted, parsed⟩ := refuse_bind parsed
    cases parsed
    exact counted

theorem Record.decode_seq (decoded : Record.decode bytes = .ok (.text m)) : m.seq ≠ 0 := by
  unfold Record.decode at decoded
  split at decoded
  · cases decoded
  split at decoded
  · rename_i kind rest _
    cases read : Message.decode (kind :: rest) with
    | error =>
      rw [read] at decoded
      cases decoded
    | ok =>
      rw [read] at decoded
      cases decoded
      exact Message.decode_seq read
  · split at decoded
    · rename_i kind rest _ _
      cases read : ReadReceipt.decode (kind :: rest) <;> rw [read] at decoded <;> cases decoded
    · split at decoded <;> cases decoded

end Proto

variable {S : Suite} {X : Exchange S.Key}

def Envelope.Carries (S : Suite) (env : Envelope) (m : Proto.Message) : Prop :=
  ∃ plain, env.Contains S plain ∧ Proto.Record.decode plain = .ok (.text m)

def Core.textOf (c : Core S X) (peer : B32) (env : Envelope) (ratchet : S.Secret) : Option Proto.Message :=
  match (c.unlock peer env ratchet).2 with
  | .error _ => none
  | .ok u =>
    match Proto.Record.decode u.plain with
    | .ok (.text m) => some m
    | _ => none

namespace Ack

abbrev History := SortedMap B32 (List StoredMessage)

def Recorded (history : History) (peer : B32) (seq : UInt64) : Prop :=
  ∃ m ∈ (history.get? peer).getD [], m.outgoing = false ∧ m.seq = seq

structure World (S : Suite) (X : Exchange S.Key) where
  core : Core S X
  /-- Envelopes given to `accept` so far, with the contact they came from. -/
  given : List (B32 × Envelope)

inductive Event (S : Suite) (X : Exchange S.Key) where
  | accept (peer : B32) (wire : Bytes) (now : UInt64) (draw : OpenDraw S X)
      (fate : Fate)
  | evict (peer : B32) (fate : Fate)
  | restart (now : UInt64) (mode : PqcMode) (fate : Fate)
  | setMode (mode : PqcMode)

def World.start (core : Core S X) : World S X := ⟨core, []⟩

def World.step (w : World S X) : Event S X → Option (World S X)
  | .accept peer wire now draw fate => some
      { core := (w.core.accept peer wire now draw fate).1
        given := match decode wire with
          | .ok env => w.given ++ [(peer, env)]
          | .error _ => w.given }
  | .evict peer fate => some { w with core := w.core.evict peer fate }
  | .restart now mode fate => some { w with core := w.core.restart now mode fate }
  | .setMode mode => some { w with core := { w.core with pq := { w.core.pq with mode := mode } } }

/-- The contact uses no envelope id for two envelopes, and a text that opens is not
too long and, if its number is new, makes the receiver give up on no gap. -/
def Orderly (w : World S X) : Event S X → Prop
  | .accept peer wire _ draw fate =>
    match decode wire with
    | .error _ => True
    | .ok env =>
      (∀ earlier ∈ w.given, earlier.1 = peer → earlier.2.id = env.id → earlier.2 = env) ∧
        ∀ m ∈ (w.core.settleRollback peer fate).textOf peer env draw.ratchet, m.text.utf8ByteSize ≤ w.core.maxText ∧
            ((w.core.settleRollback peer fate).stateOf peer).recv.Room m.seq
  | .evict _ _ => True
  | .restart _ _ _ => True
  | .setMode _ => True

instance (w : World S X) : (event : Event S X) → Decidable (Orderly w event)
  | .accept peer wire now draw fate =>
    match decoded : decode wire with
    | .error _ => .isTrue (by simp only [Orderly, decoded])
    | .ok env => decidable_of_iff
        ((∀ earlier ∈ w.given, earlier.1 = peer → earlier.2.id = env.id → earlier.2 = env) ∧
          ∀ m ∈ (w.core.settleRollback peer fate).textOf peer env draw.ratchet, m.text.utf8ByteSize ≤ w.core.maxText ∧
              ((w.core.settleRollback peer fate).stateOf peer).recv.Room m.seq)
        (by simp only [Orderly, decoded])
  | .evict _ _ => .isTrue trivial
  | .restart _ _ _ => .isTrue trivial
  | .setMode _ => .isTrue trivial

/-- Applied numbers and remembered envelopes stand for recorded texts. -/
structure Backed (S : Suite) (history : History) (given : List (B32 × Envelope))
    (peer : B32) (st : PeerState S) : Prop where
  named : st.peer = peer
  numbers : ∀ {seq}, seq ≠ 0 → st.isNewSeq seq = false → Recorded history peer seq
  ids : ∀ {id}, id ∈ st.recentEnv → ∃ env, (peer, env) ∈ given ∧ env.id = id ∧
    ∀ {m}, env.Carries S m → Recorded history peer m.seq

variable {history later : History} {given more : List (B32 × Envelope)}
  {peer : B32} {st : PeerState S} {env : Envelope} {u : Unlocked S} {fate : Fate}

theorem Backed.loadable : Loadable (Backed S history given) where
  new peer := {
    named := rfl
    numbers := fun {seq} counted applied => by
      rcases Applied.isNew_eq_false.mp applied with low | there
      · exact absurd (UInt64.le_zero_iff.mp low) counted
      · cases there
    ids := nofun }
  drop _ backed := ⟨backed.named, backed.numbers, backed.ids⟩
  named backed := backed.named

theorem Backed.grow (backed : Backed S history given peer st)
    (recorded : ∀ {peer seq}, Recorded history peer seq → Recorded later peer seq)
    (known : given ⊆ more) : Backed S later more peer st where
  named := backed.named
  numbers counted applied := recorded (backed.numbers counted applied)
  ids member := by
    obtain ⟨env, there, same, told⟩ := backed.ids member
    exact ⟨env, known there, same, fun carries => recorded (told carries)⟩

theorem mem_remember (member : other ∈ remember bound queue entry) : other ∈ queue ∨ other = entry := by
  rcases List.mem_append.mp member with old | new
  · split at old
    · exact .inl (List.mem_of_mem_tail old)
    · exact .inl old
  · exact .inr (List.mem_singleton.mp new)

/-- What a record may change in a contact state, besides the session and the
envelope id: the numbers it applies are recorded. -/
structure Applies (history : History) (peer : B32) (st : PeerState S)
    (f : PeerState S → PeerState S) : Prop where
  named : ∀ other, (f other).peer = other.peer
  recent : ∀ other, (f other).recentEnv = other.recentEnv
  numbers : ∀ {other seq}, other.recv = st.recv → (f other).isNewSeq seq = false →
    st.isNewSeq seq = false ∨ Recorded history peer seq

theorem committed_frame :
    ∃ other, other.peer = st.peer ∧ other.recv = st.recv ∧
      other.recentEnv = st.recentEnv ∧ Core.committed env u f st = (f other).rememberEnvelope env.id := by
  have moved : ∀ ek : B32, ∀ other : PeerState S, (other.rememberEk ek).peer = other.peer ∧
      (other.rememberEk ek).recv = other.recv ∧
      (other.rememberEk ek).recentEnv = other.recentEnv := by
    intro ek other
    unfold rememberEk
    split <;> exact ⟨rfl, rfl, rfl⟩
  unfold Core.committed
  cases u.newEk with
  | none => exact ⟨{ st with session := some u.session }, rfl, rfl, rfl, rfl⟩
  | some ek =>
    obtain ⟨peer, recv, recent⟩ := moved ek { st with session := some u.session }
    exact ⟨_, peer, recv, recent, rfl⟩

variable {f : PeerState S → PeerState S}

theorem Backed.commit (backed : Backed S history given peer st) (there : (peer, env) ∈ given)
    (told : ∀ {m}, env.Carries S m → Recorded history peer m.seq)
    (applies : Applies history peer st f) :
    Backed S history given peer (Core.committed env u f st) := by
  obtain ⟨other, named, recv, recent, same⟩ := committed_frame
  rw [same]
  constructor
  · exact (applies.named other).trans (named.trans backed.named)
  · intro seq counted applied
    rcases applies.numbers recv applied with old | recorded
    · exact backed.numbers counted old
    · exact recorded
  · intro id member
    rcases mem_remember member with old | new
    · rw [applies.recent, recent] at old
      exact backed.ids old
    · exact ⟨env, there, new.symm, told⟩

theorem Applies.id : Applies history peer st id :=
  ⟨fun _ => rfl, fun _ => rfl, fun {other seq} same applied => .inl (by
    simpa [isNewSeq, same] using applied)⟩

theorem Applies.read : Applies history peer st (Core.applyRead enabled upToSeq) := by
  constructor
  · intro other
    unfold Core.applyRead
    split <;> rfl
  · intro other
    unfold Core.applyRead
    split <;> rfl
  · intro other seq same applied
    left
    unfold Core.applyRead at applied
    split at applied <;> simpa [isNewSeq, same] using applied

theorem Applies.mark (room : st.recv.Room seq) (recorded : Recorded history peer seq) :
    Applies history peer st (markSeq · seq) where
  named _ := rfl
  recent _ := rfl
  numbers {other number} same applied := by
    simp only [isNewSeq, markSeq, same] at applied
    rcases (Applied.isNew_mark room).mp applied with old | new
    · exact .inl old
    · exact .inr (new ▸ recorded)

def CoreBacked (c : Core S X) (given : List (B32 × Envelope)) : Prop :=
  c.store.Holds (Backed S c.history given)

variable {c : Core S X}

section

variable (backed : CoreBacked c given)
include backed

theorem CoreBacked.settleRollback : CoreBacked (c.settleRollback peer fate) given := by
  obtain ⟨outbox, pq, same⟩ := c.settleRollback_frame peer
  rw [same]
  exact Holds.takeRollback backed Backed.loadable

theorem CoreBacked.loaded (peer : B32) : CoreBacked (c.loaded peer) given :=
  (Holds.slot backed Backed.loadable).1

theorem CoreBacked.stateOf (peer : B32) : Backed S c.history given peer (c.stateOf peer) :=
  (Holds.slot backed Backed.loadable).2

theorem CoreBacked.conclude : CoreBacked (c.conclude peer u status fate).1 given := by
  obtain ⟨outbox, same⟩ := c.conclude_frame peer u status fate
  rw [same]
  exact Holds.flushPeer backed Backed.loadable peer fate

theorem CoreBacked.commit (there : (peer, env) ∈ given)
    (told : ∀ {m}, env.Carries S m → Recorded c.history peer m.seq)
    (applies : Applies c.history peer (c.stateOf peer) f) :
    CoreBacked (c.commit peer env u f) given :=
  Holds.withPeer backed Backed.loadable ((backed.stateOf peer).commit there told applies)

end

/-- What a call of `accept` has to keep. -/
structure Answered (c next : Core S X) (given : List (B32 × Envelope)) (peer : B32)
    (env : Envelope) (status : AckStatus) : Prop where
  backed : CoreBacked next given
  kept : ∀ {peer seq}, Recorded c.history peer seq → Recorded next.history peer seq
  told : status.isDelivered = true → ∀ {m}, env.Carries S m → Recorded next.history peer m.seq

theorem Answered.refused (backed : CoreBacked c given) (refusal : status.isDelivered = false) :
    Answered c c given peer env status :=
  ⟨backed, fun recorded => recorded, fun delivered => by rw [refusal] at delivered; cases delivered⟩

theorem Answered.after (answered : Answered before next given peer env status)
    (same : before.history = c.history) : Answered c next given peer env status :=
  ⟨answered.backed, fun recorded => answered.kept (same ▸ recorded), answered.told⟩

theorem recorded_insert (history : History) (peer : B32) (m : StoredMessage) (incoming : m.outgoing = false) :
    Recorded (history.insert peer ((history.get? peer).getD [] ++ [m])) peer m.seq :=
  ⟨m, by simp, incoming, rfl⟩

theorem Recorded.insert (recorded : Recorded history other seq) :
    Recorded (history.insert peer ((history.get? peer).getD [] ++ [m])) other seq := by
  obtain ⟨found, member, facts⟩ := recorded
  refine ⟨found, ?_, facts⟩
  rw [SortedMap.get?_insert]
  split
  · rename_i same
    subst same
    exact List.mem_append_left _ member
  · exact member

theorem CoreBacked.recordMessage (backed : CoreBacked c given) (peer : B32) (m : StoredMessage) (fate : Fate) :
    CoreBacked (c.recordMessage peer m fate).1 given ∧
      ((c.recordMessage peer m fate).1.stateOf peer).recv = (c.stateOf peer).recv ∧
      (∀ {other seq}, Recorded c.history other seq → Recorded (c.recordMessage peer m fate).1.history other seq) := by
  have state := backed.stateOf peer
  have counted : CoreBacked (c.withPeer peer (Core.countMessage m)) given := Holds.withPeer backed Backed.loadable
      (show Backed S c.history given peer (Core.countMessage m (c.stateOf peer)) from
        ⟨state.named, state.numbers, state.ids⟩)
  have recv : ((c.withPeer peer (Core.countMessage m)).stateOf peer).recv = (c.stateOf peer).recv := by
    simp only [Core.stateOf, Core.withPeer, withPeer]
    rw [slot_of_found (SortedMap.get?_insert_self _)]
    rfl
  unfold Core.recordMessage
  split
  · refine ⟨?_, recv, fun recorded => Recorded.insert recorded⟩
    exact Holds.mono counted (fun held =>
      held.grow (Recorded.insert ·) (List.Subset.refl _))
  · exact ⟨counted, recv, fun recorded => recorded⟩

theorem carries_none (ideal : S.Ideal) {found : Proto.Record} (contains : env.Contains S plain)
    (decoded : Proto.Record.decode plain = .ok found) (other : ∀ m, found ≠ .text m)
    (carries : env.Carries S m) : False := by
  obtain ⟨text, holds, read⟩ := carries
  rw [ideal.contains_unique holds contains, decoded] at read
  exact other m (Except.ok.inj read)

theorem acceptText_eq : c.acceptText peer env u m now fate =
    if (c.stateOf peer).isNewSeq m.seq && !decide (c.maxText < m.text.utf8ByteSize) then
      match (c.loaded peer).recordMessage peer
        ⟨false, m.id, m.seq, m.sentMs, now, .received, none, m.text⟩ fate with
      | (c, false) => (c, ⟨.failed, false⟩)
      | (c, true) => c.commitText peer env u m.seq .stored fate
    else (c.loaded peer).commitText peer env u m.seq
      (if decide (c.maxText < m.text.utf8ByteSize) then .tooBig else .duplicate) fate := rfl

section

variable (backed : CoreBacked c given) (there : (peer, env) ∈ given)
include backed there

theorem Answered.committed
    (told : ∀ {m}, env.Carries S m → Recorded c.history peer m.seq)
    (applies : Applies c.history peer (c.stateOf peer) f)
    (u : Unlocked S) (status : AckStatus) (fate : Fate) :
    Answered c ((c.commit peer env u f).conclude peer u status fate).1 given peer env
      ((c.commit peer env u f).conclude peer u status fate).2.status := by
  have history : ((c.commit peer env u f).conclude peer u status fate).1.history = c.history := by
    obtain ⟨outbox, same⟩ := (c.commit peer env u f).conclude_frame peer u status fate
    rw [same]
    rfl
  refine ⟨(backed.commit there told applies).conclude, ?_, ?_⟩
  · intro peer seq recorded
    rw [history]
    exact recorded
  · intro _ m carries
    rw [history]
    exact told carries

theorem Answered.text (counted : m.seq ≠ 0) (only : ∀ {other}, env.Carries S other → other = m)
    (short : m.text.utf8ByteSize ≤ c.maxText) (room : (c.stateOf peer).recv.Room m.seq) (now : UInt64) :
    Answered c (c.acceptText peer env u m now fate).1 given peer env
      (c.acceptText peer env u m now fate).2.status := by
  have held := backed.loaded peer
  have state := c.stateOf_loaded peer
  have fits : decide (c.maxText < m.text.utf8ByteSize) = false := by simpa using short
  rw [acceptText_eq, fits]
  cases fresh : (c.stateOf peer).isNewSeq m.seq with
  | true =>
    -- The text is recorded first; its number counts as applied afterwards.
    obtain ⟨after, recv, kept⟩ := held.recordMessage peer
      ⟨false, m.id, m.seq, m.sentMs, now, .received, none, m.text⟩ fate
    cases result : (c.loaded peer).recordMessage peer
        ⟨false, m.id, m.seq, m.sentMs, now, .received, none, m.text⟩ fate with
    | mk next written =>
      rw [result] at after recv kept
      cases written with
      | false =>
        exact ⟨after, kept, by rintro ⟨⟩⟩
      | true =>
        have history : next.history = c.history.insert peer ((c.history.get? peer).getD [] ++
            [⟨false, m.id, m.seq, m.sentMs, now, .received, none, m.text⟩]) := by
          unfold Core.recordMessage at result
          split at result <;> cases result
          rfl
        have recorded : Recorded next.history peer m.seq := by
          rw [history]
          exact recorded_insert c.history peer ⟨false, m.id, m.seq, m.sentMs, now, .received, none, m.text⟩ rfl
        have room : (next.stateOf peer).recv.Room m.seq := by
          rw [recv, state]
          exact room
        have answered := Answered.committed after there
          (only · ▸ recorded) (Applies.mark room recorded) u .stored fate
        exact ⟨answered.backed, fun old => answered.kept (kept old), answered.told⟩
  | false =>
    have recorded : Recorded c.history peer m.seq := (backed.stateOf peer).numbers counted fresh
    have room : ((c.loaded peer).stateOf peer).recv.Room m.seq := by
      rw [state]
      exact room
    exact (Answered.committed held there (only · ▸ recorded)
      (Applies.mark room recorded) u .duplicate fate).after rfl

theorem Answered.unknown (told : ∀ {m}, env.Carries S m → False) :
    Answered c (c.acceptUnknown peer env u now draw fate).1 given peer env
      (c.acceptUnknown peer env u now draw fate).2.status := by
  unfold Core.acceptUnknown
  generalize (if u.plain.head?.any isPqKind then
      c.pq.onRecord peer u.session.originEk u.plain now draw.coins fate.document
    else (c.pq, true)) = result
  obtain ⟨pq, applied⟩ := result
  dsimp only
  have same : CoreBacked { c with pq := pq } given := backed
  split
  · exact (Answered.committed same there (fun carries => (told carries).elim) Applies.id u .stored fate).after rfl
  · exact (Answered.refused same rfl).after rfl

theorem Answered.read (told : ∀ {m}, env.Carries S m → False) :
    Answered c (c.acceptRead peer env u r fate).1 given peer env (c.acceptRead peer env u r fate).2.status :=
  (Answered.committed (backed.loaded peer) there (fun carries => (told carries).elim)
    Applies.read u .stored fate).after rfl

end

theorem Answered.opened (ideal : S.Ideal) (backed : CoreBacked c given) (there : (peer, env) ∈ given)
    (contains : env.Contains S u.plain) (orderly : ∀ m, Proto.Record.decode u.plain = .ok (.text m) →
      m.text.utf8ByteSize ≤ c.maxText ∧ (c.stateOf peer).recv.Room m.seq) :
    Answered c (c.acceptRecord peer env u now draw fate).1 given peer env
      (c.acceptRecord peer env u now draw fate).2.status := by
  unfold Core.acceptRecord
  cases decoded : Proto.Record.decode u.plain with
  | error => exact Answered.refused backed rfl
  | ok found =>
    cases found with
    | unknown =>
      exact Answered.unknown backed there (carries_none ideal contains decoded nofun ·)
    | read r =>
      exact Answered.read backed there (carries_none ideal contains decoded nofun ·)
    | text m =>
      obtain ⟨short, room⟩ := orderly m decoded
      refine Answered.text backed there (Proto.Record.decode_seq decoded) ?_ short room now
      intro other carries
      obtain ⟨plain, holds, read⟩ := carries
      rw [ideal.contains_unique holds contains, decoded] at read
      exact (Proto.Record.text.inj (Except.ok.inj read)).symm

theorem Answered.accept (ideal : S.Ideal) (backed : CoreBacked c given) (decoded : decode wire = .ok env)
    (once : ∀ earlier ∈ given, earlier.1 = peer → earlier.2.id = env.id → earlier.2 = env)
    (orderly : ∀ m ∈ (c.settleRollback peer fate).textOf peer env draw.ratchet, m.text.utf8ByteSize ≤ c.maxText ∧
        ((c.settleRollback peer fate).stateOf peer).recv.Room m.seq) :
    Answered c (c.accept peer wire now draw fate).1 (given ++ [(peer, env)]) peer env
      (c.accept peer wire now draw fate).2.status := by
  obtain ⟨outbox, pq, settled⟩ := c.settleRollback_frame peer
  have maxText : (c.settleRollback peer fate).maxText = c.maxText := by rw [settled]
  have history : (c.settleRollback peer fate).history = c.history := by rw [settled]
  have start : CoreBacked (c.settleRollback peer fate) (given ++ [(peer, env)]) :=
    Holds.mono (backed.settleRollback) (fun held =>
      held.grow (fun recorded => recorded) (List.subset_append_left _ _))
  have there : (peer, env) ∈ given ++ [(peer, env)] := by simp
  simp only [Core.accept, decoded]
  generalize c.settleRollback peer fate = base at orderly maxText history start
  obtain ⟨pq, frame⟩ := base.unlock_frame peer
  cases unlocked : base.unlock peer env draw.ratchet with
  | mk next result =>
    rw [unlocked] at frame
    change next = _ at frame
    have loaded : CoreBacked next (given ++ [(peer, env)]) := by
      rw [frame]
      exact start.loaded peer
    have same : next.history = c.history := by
      rw [frame]
      exact history
    cases result with
    | error =>
      refine ⟨loaded, fun recorded => same ▸ recorded, fun delivered {m} carries => ?_⟩
      -- The id was remembered for this very envelope.
      have seen := Core.unlock_error unlocked delivered
      obtain ⟨earlier, known, id, told⟩ := (start.stateOf peer).ids seen
      have identical : earlier = env := by
        rcases List.mem_append.mp known with old | new
        · exact once _ old rfl id
        · exact (Prod.mk.inj (List.mem_singleton.mp new)).2
      rw [same, ← history]
      exact told (identical ▸ carries)
    | ok =>
      obtain ⟨-, opening⟩ := Core.unlock_ok unlocked
      have state : next.stateOf peer = base.stateOf peer := by
        rw [frame]
        exact base.stateOf_loaded peer
      have bound : next.maxText = c.maxText := by
        rw [frame]
        exact maxText
      refine (Answered.opened ideal loaded there (opening.contains ideal) ?_).after same
      intro m text
      rw [state, bound]
      exact orderly m (by simp [Core.textOf, unlocked, text])

theorem World.step_backed (ideal : S.Ideal) {w next : World S X} (backed : CoreBacked w.core w.given)
    (orderly : Orderly w event) (stepped : w.step event = some next) : CoreBacked next.core next.given := by
  cases event with
  | accept peer wire now draw fate =>
    cases stepped
    cases decoded : decode wire with
    | error e =>
      have same : (w.core.accept peer wire now draw fate).1 = w.core := by
        unfold Core.accept
        rw [decoded]
        cases e <;> rfl
      simpa only [same, decoded] using backed
    | ok =>
      simp only [Orderly, decoded] at orderly
      simpa only [decoded] using (Answered.accept ideal backed decoded orderly.1 orderly.2).backed
  | evict peer fate =>
    cases stepped
    exact Holds.evict backed Backed.loadable
  | restart =>
    cases stepped
    exact Holds.restart backed
  | setMode =>
    cases stepped
    exact backed

end Ack

open Ack in
/-- In every run of orderly calls, whatever an orderly call answers `Stored` or
`Duplicate` for is recorded when it returns, and so is what the answer to a `Sync`
lists. -/
theorem acked_held_of_orderly (ideal : S.Ideal) (anchor : Option Anchor) (settings : StoreSettings)
    (identity : Identity S) (maxMessageBytes : Nat) (events : List (Ack.Event S X))
    (last : Ack.World S X)
    (orderly : Along Ack.World.step Orderly (.start (Core.new X anchor settings identity maxMessageBytes)) events)
    (ran : run Ack.World.step (.start (Core.new X anchor settings identity maxMessageBytes)) events = some last) :
    (∀ peer wire now draw fate env m, Orderly last (.accept peer wire now draw fate) →
      decode wire = .ok env → env.Carries S m →
      (last.core.accept peer wire now draw fate).2.status.isDelivered = true →
      Recorded (last.core.accept peer wire now draw fate).1.history peer m.seq) ∧
    ∀ peer items, ∀ item ∈ last.core.listed peer items, Recorded last.core.history peer item.seq := by
  have start : CoreBacked (Core.new X anchor settings identity maxMessageBytes) [] := Holds.new
  have backed := invariant_of_run (I := fun w => CoreBacked w.core w.given) (World.step_backed ideal) start orderly ran
  constructor
  · intro peer wire now draw fate env m met decoded carries delivered
    simp only [Orderly, decoded] at met
    exact (Answered.accept ideal backed decoded met.1 met.2).told delivered carries
  · intro peer items item listed
    have passed := (List.mem_filter.mp listed).2
    simp only [Bool.and_eq_true, decide_eq_true_eq, Bool.not_eq_true'] at passed
    exact (backed.stateOf peer).numbers passed.1.1 passed.2

/-! The first message of `alice`, delivered to `bob` twice. -/

namespace Sample

def hello : Proto.Message := ⟨ByteVec.fill 16 7, 1, 1000, "hello"⟩

def helloPlain : Bytes := (Proto.Message.encode hello).toOption.getD []

def helloEnvelope : Except CryptoError Envelope := do
  let s ← Session.newInitiator alice bob.id (sealing 3).ek (sealing 3).ratchet
  (s.sealWith (sealing 3).id helloPlain none).2

def helloWire : Bytes := helloEnvelope.toOption.elim [] encode

def deliver : Ack.Event Symbolic.suite exchange := .accept alice.id helloWire 1000 (opening 5) (.done default)

theorem helloEnvelope_carries (made : helloEnvelope = .ok env) : env.Carries Symbolic.suite hello := by
  refine ⟨helloPlain, ?_, by decide +kernel⟩
  unfold helloEnvelope at made
  cases started : Session.newInitiator alice bob.id (sealing 3).ek (sealing 3).ratchet with
  | error =>
    rw [started] at made
    cases made
  | ok =>
    exact Session.sealWith_contains (Prod.ext rfl made)

theorem helloWire_decodes : ∃ env, decode helloWire = .ok env ∧ env.Carries Symbolic.suite hello := by
  have same : (helloEnvelope.toOption.bind fun env =>
      (decode env.encode).toOption.map (fun found => decide (found = env))) = some true := by
    decide +kernel
  cases made : helloEnvelope with
  | error => simp [made, Except.toOption] at same
  | ok env =>
    refine ⟨env, ?_, helloEnvelope_carries made⟩
    cases decoded : decode env.encode with
    | error => simp [made, decoded, Except.toOption] at same
    | ok =>
      simp only [made, decoded, Except.toOption, Option.bind_some, Option.map_some,
        Option.some.injEq, decide_eq_true_eq] at same
      simp [helloWire, made, Except.toOption, decoded, same]

end Sample

open Ack in
set_option maxRecDepth 8192 in
theorem acked_held_of_redelivery : ∃ last, run Ack.World.step (.start (coreOf bob 100)) [deliver] = some last ∧
      (last.core.accept alice.id helloWire 1000 (opening 5) (.done default)).2.status = .duplicate ∧
      Recorded (last.core.accept alice.id helloWire 1000 (opening 5)
        (.done default)).1.history alice.id hello.seq := by
  have orderly : Along Ack.World.step Orderly (.start (coreOf bob 100)) [deliver] := by decide +kernel
  have observed : (run Ack.World.step (.start (coreOf bob 100))
      [deliver]).any (fun last => Orderly last (.accept alice.id helloWire 1000 (opening 5) (.done default)) ∧
        (last.core.accept alice.id helloWire 1000 (opening 5)
          (.done default)).2.status = .duplicate) = true := by decide +kernel
  obtain ⟨last, ran, facts⟩ := exists_of_any observed
  have both := facts
  have status := both.2
  obtain ⟨env, decoded, carries⟩ := helloWire_decodes
  have delivered : (last.core.accept alice.id helloWire 1000 (opening 5)
      (.done default)).2.status.isDelivered = true := by
    rw [status]
    rfl
  obtain ⟨held, -⟩ := acked_held_of_orderly Symbolic.suite_ideal none settings bob 100 [deliver] last orderly ran
  exact ⟨last, ran, status, held alice.id helloWire 1000 (opening 5)
    (.done default) env hello both.1 decoded carries delivered⟩

open Ack in
/-- A text that is too long for the receiver is refused the first time and
acknowledged as a duplicate the second time; nothing is recorded. -/
theorem refused_text_acked : ∃ last env, run Ack.World.step (.start (coreOf bob 1)) [deliver] = some last ∧
      decode helloWire = .ok env ∧ env.Carries Symbolic.suite hello ∧
      (last.core.accept alice.id helloWire 1000 (opening 5) (.done default)).2.status = .duplicate ∧
      ¬ Recorded (last.core.accept alice.id helloWire 1000 (opening 5)
        (.done default)).1.history alice.id hello.seq := by
  have observed : (run Ack.World.step (.start (coreOf bob 1)) [deliver]).any
      (fun last => (last.core.accept alice.id helloWire 1000 (opening 5) (.done default)).2.status = .duplicate ∧
        (last.core.accept alice.id helloWire 1000 (opening 5)
          (.done default)).1.history.get? alice.id = none) = true := by decide +kernel
  obtain ⟨last, ran, status, absent⟩ := exists_of_any observed
  obtain ⟨env, decoded, carries⟩ := helloWire_decodes
  refine ⟨last, env, ran, decoded, carries, status, fun recorded => ?_⟩
  obtain ⟨m, member, -⟩ := recorded
  rw [absent] at member
  cases member

end Miasma.Chat
