import Miasma.Chat.Engine.Frames
import Miasma.Chat.Pq.Keyed

namespace Miasma.Chat

open Data Protocol Chat.Pq PqState

/-! The hybrid state of the engine, call by call, and the sessions a call leaves
alone. -/

variable {S : Suite} {X : Exchange S.Key}

namespace Core

variable {c next : Core S X} {peer : B32} {fate : Fate}

theorem settleRollback_keeps (c : Core S X) (peer : B32) (fate : Fate) :
    Keeps c.pq (c.settleRollback peer fate).pq := by
  simp only [settleRollback]
  split
  · exact .forget c.pq
  · exact .refl

theorem sealOn_keeps (c : Core S X) (peer : B32) (plain : Bytes) (draw : SealDraw S) :
    Keeps c.pq (c.sealOn peer plain draw).1.pq := by
  rcases c.sealOn_cases peer plain draw with ⟨_, same⟩ | ⟨s, _, _, _, _, same⟩
  · rw [same]
    exact .refl
  · rw [same]
    exact .keyOf c.pq peer s.originEk

theorem flushPeer_pq (flushed : c.flushPeer peer fate = (last, written)) : last.pq = c.pq :=
  (congrArg (·.1.pq) flushed).symm

theorem SealsEntry.keeps (seals : SealsEntry c e draw fate next result) : Keeps c.pq next.pq := by
  cases seals with
  | refused => exact .refl
  | @unsealed plain _ _ _ sealed =>
    have kept := c.sealOn_keeps e.peer plain draw
    rw [sealed] at kept
    exact kept
  | @unwritten plain _ _ _ _ sealed flushed | @kept plain _ _ _ _ _ _ _ sealed flushed =>
    have kept := c.sealOn_keeps e.peer plain draw
    rw [sealed] at kept
    exact flushPeer_pq flushed ▸ kept

theorem settledFor_keeps (c : Core S X) (id : B16) (fate : Fate) : Keeps c.pq (c.settledFor id fate).pq := by
  unfold settledFor
  split
  · exact .refl
  · exact c.settleRollback_keeps _ fate

section

variable (c : Core S X) (peer : B32)

theorem unlock_keeps (env : Envelope) (ratchet : S.Secret) : Keeps c.pq (c.unlock peer env ratchet).1.pq := by
  rw [unlock_eq]
  split
  · exact .refl
  split
  · exact .refl
  · exact .keyOf c.pq peer _

theorem commit_pq {env : Envelope} : ((c.commit peer env u f).conclude peer u status fate).1.pq = c.pq := by
  obtain ⟨outbox, same⟩ := (c.commit peer env u f).conclude_frame peer u status fate
  rw [same]
  rfl

theorem recordMessage_pq (m : StoredMessage) (fate : Fate) : (c.recordMessage peer m fate).1.pq = c.pq := by
  unfold recordMessage
  split <;> rfl

theorem arrival_keeps : Arrival (fun next : Core S X => Keeps c.pq next.pq) (fun _ => True) peer fate where
  loaded keeps := keeps
  hybrid ek _ _ _ keeps := keeps.trans (.onRecord _ peer ek)
  recorded m keeps := (recordMessage_pq _ peer m fate).symm ▸ keeps
  committed _ _ _ _ _ keeps := (commit_pq _ peer).symm ▸ keeps

end

theorem unlocked_keeps {env : Envelope}
    (unlocked : (c.settleRollback peer fate).unlock peer env ratchet = (next, result)) :
    Keeps c.pq next.pq := by
  have keeps := (c.settleRollback_keeps peer fate).trans ((c.settleRollback peer fate).unlock_keeps peer env ratchet)
  rwa [unlocked] at keeps

section

variable (c : Core S X) (peer : B32)

theorem accept_keeps : Keeps c.pq (c.accept peer wire now draw fate).1.pq :=
  (c.arrival_keeps peer).accept .refl fun unlocked => ⟨unlocked_keeps unlocked, fun _ _ => trivial⟩

theorem acceptRaw_keeps : Keeps c.pq (c.acceptRaw peer wire handle draw fate).1.pq :=
  (c.arrival_keeps peer).acceptRaw .refl fun unlocked =>
    ⟨unlocked_keeps unlocked, fun _ _ => trivial⟩

theorem sealFor_keeps : Keeps c.pq (c.sealFor peer plain draw fate).1.pq := by
  have sealing := (c.settleRollback_keeps peer fate).trans ((c.settleRollback peer fate).sealOn_keeps peer plain draw)
  unfold sealFor
  dsimp only
  split
  · rename_i sealed
    rw [sealed] at sealing
    exact sealing
  · rename_i sealed
    rw [sealed] at sealing
    split <;>
    · rename_i flushed
      exact flushPeer_pq flushed ▸ sealing

theorem deleteConversation_keeps : Keeps c.pq (c.deleteConversation peer fate).1.pq := by
  unfold deleteConversation
  dsimp only
  split
  · exact .refl
  split <;>
  · rename_i flushed
    exact flushPeer_pq flushed ▸ .forget c.pq

theorem enqueue_pq {id : B16} : (c.enqueue peer text now id fate).1.pq = c.pq := by
  unfold enqueue
  split
  · rfl
  split
  · rfl
  split
  · rfl
  dsimp only
  split
  · rename_i flushed
    have same := flushPeer_pq flushed
    exact same
  · rename_i flushed
    have same := flushPeer_pq flushed
    split <;> exact same

end

theorem finish_pq (c : Core S X) {id : B16} : (c.finish id state reason now fate).pq = c.pq := by
  unfold finish
  split
  · rfl
  rename_i e _
  split
  · rfl
  have kept := c.recordMessage_pq e.peer ⟨true, e.id, e.seq, e.sentMs, now, state, reason, e.text⟩ fate
  split <;>
  · rename_i result
    rw [result] at kept
    exact kept

theorem pqSent_keeps (c : Core S X) : Keeps c.pq (c.pqSent peer out outcome now fate).pq := by
  unfold pqSent
  dsimp only
  split
  · exact .refl
  · exact .sent c.pq peer _

end Core

end Miasma.Chat
