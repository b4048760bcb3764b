import Miasma.Chat.Engine.Accept

namespace Miasma.Chat

open Data Protocol Chat.Pq OutEntry

/-! What the calls of the engine do to the outbox, and what they leave alone. -/

variable {S : Suite} {X : Exchange S.Key}

namespace Core

variable {fate : Fate}

/-! Sealing. -/

section

variable (c : Core S X) (peer : B32) (plain : Bytes) (draw : SealDraw S)

theorem sealOn_eq : c.sealOn peer plain draw = match sessionFor c.identity peer draw (c.stateOf peer).session with
    | .error e => ((c.loaded peer).withPeer peer id, .error e)
    | .ok s => ({ (c.loaded peer).withPeer peer (fun st =>
        { st with session := some (s.sealWith draw.id plain
          (c.pq.sealKey peer s.originEk).2).1 }) with pq := (c.pq.sealKey peer s.originEk).1 },
      (s.sealWith draw.id plain (c.pq.sealKey peer s.originEk).2).2) := rfl

theorem sealOn_cases : (∃ e, c.sealOn peer plain draw = ((c.loaded peer).withPeer peer id, .error e)) ∨
    ∃ s next result, sessionFor c.identity peer draw (c.stateOf peer).session = .ok s ∧
      s.sealWith draw.id plain (c.pq.sealKey peer s.originEk).2 = (next, result) ∧
      c.sealOn peer plain draw = ({ (c.loaded peer).withPeer peer
        (fun st => { st with session := some next }) with
          pq := (c.pq.sealKey peer s.originEk).1 }, result) := by
  rw [sealOn_eq]
  cases sessionFor c.identity peer draw (c.stateOf peer).session with
  | error e => exact .inl ⟨e, rfl⟩
  | ok s => exact .inr ⟨s, _, _, rfl, rfl, rfl⟩

theorem sealOn_frame :
    (c.sealOn peer plain draw).1.outbox = c.outbox ∧ (c.sealOn peer plain draw).1.maxText = c.maxText := by
  rcases c.sealOn_cases peer plain draw with ⟨_, same⟩ | ⟨_, _, _, _, _, same⟩ <;> rw [same] <;> exact ⟨rfl, rfl⟩

end

/-- The ways sealing an entry ends: nothing is sealed, the session does not seal, the
session is not written, or the envelope is given to the outbox. -/
inductive SealsEntry (c : Core S X) (e : OutEntry) (draw : SealDraw S) (fate : Fate) :
    Core S X → Except PrepareError (Bytes × B16) → Prop
  | refused (er : PrepareError) : SealsEntry c e draw fate c (.error er)
  | unsealed {plain : Bytes} {mid : Core S X} {er : CryptoError}
      (plainOf : plainOf e = .ok plain)
      (sealed : c.sealOn e.peer plain draw = (mid, .error er)) :
      SealsEntry c e draw fate mid (.error (.session er))
  | unwritten {plain : Bytes} {mid last : Core S X} {env : Envelope}
      (plainOf : plainOf e = .ok plain)
      (sealed : c.sealOn e.peer plain draw = (mid, .ok env))
      (flushed : mid.flushPeer e.peer fate = (last, false)) :
      SealsEntry c e draw fate last (.error (.storage .disk))
  | kept {plain : Bytes} {mid last : Core S X} {env : Envelope} {outbox : Outbox}
      {set : Except StoreError Unit} (room : c.outbox.hasSealedRoom = true)
      (plainOf : plainOf e = .ok plain) (sealed : c.sealOn e.peer plain draw = (mid, .ok env))
      (flushed : mid.flushPeer e.peer fate = (last, true))
      (given : last.outbox.setSealed e.id env.encode fate.log = (outbox, set)) :
      SealsEntry c e draw fate { last with outbox := outbox } (match set with
          | .ok _ => .ok (env.encode, env.id)
          | .error er => .error (.storage er))

variable (c : Core S X)

theorem sealEntry_cases (e : OutEntry) (draw : SealDraw S) (fate : Fate) :
    SealsEntry c e draw fate (c.sealEntry e draw fate).1 (c.sealEntry e draw fate).2 := by
  unfold sealEntry
  split
  · exact .refused _
  rename_i room
  split
  · exact .refused _
  rename_i plain plainOf
  split
  · rename_i sealed
    exact .unsealed plainOf sealed
  rename_i mid env sealed
  split
  · rename_i flushed
    exact .unwritten plainOf sealed flushed
  rename_i last flushed
  split <;>
  · rename_i given
    exact .kept (by simpa using room) plainOf sealed flushed given

/-- The engine `prepare_wire` looks into, after a rollback was settled. -/
def settledFor (id : B16) (fate : Fate) : Core S X := match c.outbox.get id with
  | none => c
  | some e => c.settleRollback e.peer fate

/-! The limit of a text never changes. -/

section

variable (c : Core S X) (peer : B32)

theorem settleRollback_limit : (c.settleRollback peer fate).maxText = c.maxText := by
  obtain ⟨outbox, pq, same⟩ := c.settleRollback_frame peer
  rw [same]

theorem conclude_limit : (c.conclude peer u status fate).1.maxText = c.maxText := by
  obtain ⟨outbox, same⟩ := c.conclude_frame peer u status fate
  rw [same]

theorem recordMessage_limit (m : StoredMessage) (fate : Fate) :
    (c.recordMessage peer m fate).1.maxText = c.maxText := by
  unfold recordMessage
  split <;> rfl

theorem unlock_limit (env : Envelope) (ratchet : S.Secret) : (c.unlock peer env ratchet).1.maxText = c.maxText := by
  obtain ⟨pq, frame⟩ := c.unlock_frame peer
  rw [frame]
  rfl

end

theorem arrival_limit {peer : B32} :
    Arrival (fun c : Core S X => c.maxText = limit) (fun _ => True) peer fate where
  loaded same := same
  hybrid _ _ _ _ same := same
  recorded m same := (recordMessage_limit _ peer m fate).trans same
  committed env f _ _ _ same := (conclude_limit (commit _ peer env _ f) peer).trans same

theorem unlocked_limit {c next : Core S X} {peer : B32}
    (unlocked : (c.settleRollback peer fate).unlock peer env ratchet = (next, result)) : next.maxText = c.maxText := by
  have same := (unlock_limit (c.settleRollback peer fate) peer env ratchet).trans (settleRollback_limit c peer)
  rwa [unlocked] at same

theorem accept_limit {peer : B32} : (c.accept peer wire now draw fate).1.maxText = c.maxText :=
  arrival_limit.accept rfl fun unlocked => ⟨unlocked_limit unlocked, fun _ _ => trivial⟩

theorem acceptRaw_limit {peer : B32} : (c.acceptRaw peer wire handle draw fate).1.maxText = c.maxText :=
  arrival_limit.acceptRaw rfl fun unlocked =>
    ⟨unlocked_limit unlocked, fun _ _ => trivial⟩

/-! Queueing and removing entries. -/

theorem enqueue_frame (limit : c.maxText ≤ maxTextBytes) {peer : B32} {text : String}
    {id : B16} :
    (c.enqueue peer text now id fate).1.maxText = c.maxText ∧ ((c.enqueue peer text now id fate).1.outbox = c.outbox ∨
        ∃ seq, Outbox.Made (newEntry id peer seq now text) ∧ (c.enqueue peer text now id fate).1.outbox =
            (c.outbox.push (newEntry id peer seq now text) fate.log).1) := by
  unfold enqueue
  split
  · exact ⟨rfl, .inl rfl⟩
  split
  · exact ⟨rfl, .inl rfl⟩
  split
  · exact ⟨rfl, .inl rfl⟩
  have made : ∀ seq, Outbox.Made (newEntry id peer seq now text) := by
    intro seq
    unfold Outbox.Made newEntry parsed
    dsimp only
    rw [if_neg (by omega)]
  dsimp only
  split
  · rename_i next flushed
    have frame := congrArg (fun pair => (pair.1.outbox, pair.1.maxText)) flushed
    exact ⟨(Prod.mk.inj frame).2.symm, .inl (Prod.mk.inj frame).1.symm⟩
  rename_i next flushed
  have frame := congrArg (fun pair => (pair.1.outbox, pair.1.maxText)) flushed
  have outbox : next.outbox = c.outbox := (Prod.mk.inj frame).1.symm
  have pushed : ∀ {seq result}, next.outbox.push (newEntry id peer seq now text)
      fate.log = result → ∃ seq, Outbox.Made (newEntry id peer seq now text) ∧
        result.1 = (c.outbox.push (newEntry id peer seq now text) fate.log).1 := by
    rintro seq _ rfl
    exact ⟨seq, made seq, by rw [outbox]⟩
  split <;> exact ⟨(Prod.mk.inj frame).2.symm, .inr (pushed ‹_›)⟩

theorem finish_frame {id : B16} : (c.finish id state reason now fate).maxText = c.maxText ∧
      ((c.finish id state reason now fate).outbox = c.outbox ∨ (c.finish id state reason now fate).outbox =
          (c.outbox.remove id (fate.note id) fate.rewrites).1) := by
  unfold finish
  split
  · exact ⟨rfl, .inl rfl⟩
  rename_i e _
  split
  · exact ⟨rfl, .inr rfl⟩
  have limit := c.recordMessage_limit e.peer ⟨true, e.id, e.seq, e.sentMs, now, state, reason, e.text⟩ fate
  have outbox := c.recordMessage_outbox e.peer ⟨true, e.id, e.seq, e.sentMs, now, state, reason, e.text⟩ fate
  split
  · rename_i next result
    rw [result] at limit outbox
    refine ⟨limit, .inr ?_⟩
    rw [outbox]
  · rename_i next result
    rw [result] at limit outbox
    exact ⟨limit, .inl outbox⟩

section

variable (c : Core S X) (peer : B32)

theorem deleteConversation_frame :
    (c.deleteConversation peer fate).1.maxText = c.maxText ∧ (c.deleteConversation peer fate).1.outbox =
        c.outbox.removePeer peer fate.note fate.rewrites := by
  unfold deleteConversation
  dsimp only
  split
  · exact ⟨rfl, rfl⟩
  split <;>
  · rename_i next result
    have frame := congrArg (fun pair => (pair.1.outbox, pair.1.maxText)) result
    exact ⟨(Prod.mk.inj frame).2.symm, (Prod.mk.inj frame).1.symm⟩

theorem pqSent_frame :
    (c.pqSent peer out outcome now fate).maxText = c.maxText ∧
      (c.pqSent peer out outcome now fate).outbox = c.outbox := by
  unfold pqSent
  dsimp only
  split <;> exact ⟨rfl, rfl⟩

theorem sealFor_frame :
    (c.sealFor peer plain draw fate).1.maxText = c.maxText ∧
      (c.sealFor peer plain draw fate).1.outbox = (c.settleRollback peer fate).outbox := by
  obtain ⟨outbox, limit⟩ := (c.settleRollback peer fate).sealOn_frame peer plain draw
  rw [c.settleRollback_limit peer] at limit
  unfold sealFor
  dsimp only
  split
  · rename_i sealed
    rw [sealed] at outbox limit
    exact ⟨limit, outbox⟩
  rename_i mid env sealed
  rw [sealed] at outbox limit
  split <;>
  · rename_i last flushed
    have frame := congrArg (fun pair => (pair.1.outbox, pair.1.maxText)) flushed
    exact ⟨(Prod.mk.inj frame).2.symm.trans limit, (Prod.mk.inj frame).1.symm.trans outbox⟩

end

end Core

end Miasma.Chat
