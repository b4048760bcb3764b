import Miasma.Chat.Pq.Keyed
import Miasma.Data.Recent

namespace Miasma.Protocol.ReplayGuard

open Data

theorem insert_ne {guard : ReplayGuard} {id : B32} (unseen : guard.contains id = false) :
    guard.insert id ≠ guard := by
  intro same
  have absent : id ∉ guard.order := by simpa [contains] using unseen
  have last : (guard.insert id).order.getLast? = some id := by
    simp only [insert, unseen, Bool.false_eq_true, if_false]
    exact (getLast?_recent guard.positive).trans (List.getLast?_concat)
  rw [same] at last
  exact absent (List.mem_of_getLast? last)

end Miasma.Protocol.ReplayGuard

namespace Miasma.Chat.Pq

open Data Protocol

/-! The records of the upgrade that change nothing.  `Peer.Ignores` says, kind by kind, which do;
every other record moves a field besides the mark that the record is to be written. -/

variable {Key : Type} {X : Exchange Key}

namespace Peer

variable (p : Peer X)

def IgnoresOffer (body : Bytes) : Prop := body = [] ∨ maxOfferBytes < body.length ∨ p.peerOffer = body ∨
    p.phase = .kex ∨ p.phase = .active ∨ p.phase = .failed

def Answered (env : Env) (guard : ReplayGuard) (asm : Assembled) : Prop :=
  asm.suiteId = suiteIdHybrid ∧ guard.contains (X.replayId asm.data) = true ∧
    ∃ cfg, p.kexConfig env = some cfg ∧ X.readableMsg cfg asm.data = true

def IgnoresInit (env : Env) (guard : ReplayGuard) (body : Bytes) : Prop :=
  env.weInitiate = true ∨ p.peerOffer = [] ∨ p.phase = .classical ∨ p.phase = .active ∨ p.phase = .failed ∨
    p.phase = .kex ∧ (p.peerConfirmed = true ∨ p.assemble env body = (p, none) ∨
      ∃ asm, p.assemble env body = (p, some asm) ∧ p.Answered env guard asm)

def IgnoresResp (env : Env) (body : Bytes) : Prop :=
  env.weInitiate = false ∨ p.phase ≠ .kex ∨ p.initiator = none ∨ p.assemble env body = (p, none) ∨
    ∃ asm, p.assemble env body = (p, some asm) ∧ asm.handshakeId ≠ p.handshakeId

def IgnoresConfirm (body : Bytes) : Prop := if body = abortBody then p.phase ≠ .kex
  else body.length ≠ 32 ∨ p.key = none ∨ p.peerConfirmed = true

def Ignores (env : Env) (guard : ReplayGuard) (out : Outgoing) : Prop :=
  if out.kind = kindOffer then p.IgnoresOffer out.body
  else if out.kind = kindInit then p.IgnoresInit env guard out.body
  else if out.kind = kindResp then p.IgnoresResp env out.body
  else if out.kind = kindConfirm then p.IgnoresConfirm out.body
  else True

/-- The same record, up to the mark that it is to be written. -/
def Like (p next : Peer X) : Prop := ∃ dirty, next = { p with dirty := dirty }

variable {p next : Peer X} {env : Env} {guard : ReplayGuard} {body : Bytes} {out : Outgoing} {coins : X.Coins}

namespace Like

section

variable (like : p.Like next)
include like

theorem field {f : Peer X → α} (blind : ∀ (q : Peer X) dirty, f { q with dirty := dirty } = f q) :
    f next = f p := by
  obtain ⟨dirty, rfl⟩ := like
  exact blind p dirty

theorem phase : next.phase = p.phase := like.field fun _ _ => rfl

theorem peerOffer : next.peerOffer = p.peerOffer := like.field fun _ _ => rfl

theorem key : next.key = p.key := like.field fun _ _ => rfl

theorem initiator : next.initiator = p.initiator := like.field fun _ _ => rfl

theorem peerConfirmed : next.peerConfirmed = p.peerConfirmed := like.field fun _ _ => rfl

theorem eq (dirty : next.dirty = p.dirty) : next = p := by
  obtain ⟨mark, rfl⟩ := like
  cases dirty
  rfl

end

theorem of_written (back : p = { next with dirty := false }) : p.Like next := ⟨next.dirty, by rw [back]⟩

end Like

/-! Offers. -/

theorem onOffer_of_ignores (ignores : p.IgnoresOffer body) : p.onOffer body = p := by
  unfold onOffer
  split
  · rfl
  split
  · rfl
  rename_i fits other
  obtain empty | long | same | running | active | failed := ignores
  · exact absurd (.inl empty) fits
  · exact absurd (.inr long) fits
  · exact absurd same other
  · simp [running]
  · simp [active]
  · simp [failed]

theorem ignores_of_onOffer (like : p.Like (p.onOffer body)) : p.IgnoresOffer body := by
  by_contra heeded
  simp only [IgnoresOffer, not_or] at heeded
  obtain ⟨filled, fits, other, running, active, failed⟩ := heeded
  have undecided : p.phase = .new ∨ p.phase = .offered ∨ p.phase = .classical := by
    revert running active failed
    cases p.phase <;> simp
  unfold onOffer at like
  rw [if_neg (by simp [filled, fits]), if_neg other] at like
  by_cases late : p.phase = .classical ∧ p.reason = .peerNoHybrid
  · simp only [if_pos late] at like
    exact other like.peerOffer.symm
  · simp only [if_neg late, if_pos undecided] at like
    exact other like.peerOffer.symm

/-! First messages. -/

variable {found : Option Assembled}

theorem assemble_frame (held : p.assemble env body = (next, found)) : ∃ reasm, next = { p with reasm := reasm } := by
  unfold assemble at held
  dsimp only at held
  split at held <;> exact ⟨_, (Prod.mk.inj held).1.symm⟩

theorem assemble_phase (held : p.assemble env body = (next, found)) : next.phase = p.phase := by
  obtain ⟨reasm, rfl⟩ := assemble_frame held
  rfl

theorem Like.of_assemble (like : p.Like next) (held : p.assemble env body = (next, found)) : next = p := by
  apply like.eq
  obtain ⟨reasm, rfl⟩ := assemble_frame held
  rfl

theorem phase_conclude (p : Peer X) (env : Env) :
    (p.conclude env none).phase = .kex ∨ (p.conclude env none).phase = .classical ∨
      (p.conclude env none).phase = .failed := by
  simp only [conclude]
  generalize (if X.readableOffer p.ourOffer then p.ourOffer else X.currentOffer) = ours
  generalize (if p.peerOffer = [] then none else some p.peerOffer) = wire
  split
  · exact .inl rfl
  unfold markClassical
  split
  · exact .inr (.inr rfl)
  · exact .inr (.inl rfl)

theorem answerInit_cases (p : Peer X) :
    (p.answerInit env guard asm coins).1.phase = .failed ∨
      p.Answered env guard asm ∧ p.answerInit env guard asm coins = (p, guard) ∨
      (p.answerInit env guard asm coins).1.phase = p.phase ∧ (p.answerInit env guard asm coins).2 ≠ guard := by
  unfold answerInit respond
  split
  · exact .inl rfl
  rename_i suite
  split
  · exact .inl rfl
  rename_i cfg config
  cases readable : X.readableMsg cfg asm.data with
  | false => exact .inl rfl
  | true =>
    cases seen : guard.contains (X.replayId asm.data) with
    | true =>
      exact .inr (.inl ⟨⟨not_not.mp suite, seen, cfg, config, readable⟩, rfl⟩)
    | false =>
      cases X.answer cfg asm.data coins with
      | none => exact .inl rfl
      | some established =>
        simp only [Bool.not_true, Bool.false_eq_true, if_false]
        split
        · exact .inr (.inr ⟨rfl, ReplayGuard.insert_ne seen⟩)
        · exact .inl rfl

theorem answerInit_of_answered (answered : p.Answered env guard asm) :
    p.answerInit env guard asm coins = (p, guard) := by
  obtain ⟨suite, seen, cfg, config, readable⟩ := answered
  unfold answerInit
  have replayed : respond X cfg asm.data guard coins = (guard, .error .replay) := by
    simp [respond, readable, seen]
  rw [if_neg (not_not.mpr suite)]
  simp only [config, replayed]

theorem onInit_of_ignores (ignores : p.IgnoresInit env guard body) : p.onInit env guard body coins = (p, guard) := by
  unfold onInit
  split
  · rfl
  rename_i ours
  have idle : p.phase = .classical ∨ p.phase = .active ∨ p.phase = .failed ∨ p.phase = .kex := by
    obtain first | offerless | classical | active | failed | ⟨running, -⟩ := ignores
    · exact absurd (.inl first) ours
    · exact absurd (.inr offerless) ours
    · exact .inl classical
    · exact .inr (.inl active)
    · exact .inr (.inr (.inl failed))
    · exact .inr (.inr (.inr running))
  have settled : ¬ (p.phase = .new ∨ p.phase = .offered) := by
    rintro (new | offered) <;> simp_all
  simp only [if_neg settled]
  split
  · rfl
  rename_i running
  simp only [not_or, not_not] at running
  obtain first | offerless | phase | phase | phase | ⟨-, confirmed | held | ⟨asm, held, again⟩⟩ := ignores
  · exact absurd (.inl first) ours
  · exact absurd (.inr offerless) ours
  · simp [phase] at running
  · simp [phase] at running
  · simp [phase] at running
  · exact absurd confirmed running.2
  · rw [held]
  rw [held]
  exact answerInit_of_answered again

theorem ignores_of_onInit (like : p.Like (p.onInit env guard body coins).1)
    (unmoved : (p.onInit env guard body coins).2 = guard) : p.IgnoresInit env guard body := by
  by_contra heeded
  simp only [IgnoresInit, not_or, not_and] at heeded
  obtain ⟨second, offered, classical, active, failed, running⟩ := heeded
  have ours : ¬ (env.weInitiate = true ∨ p.peerOffer = []) := by simp [second, offered]
  unfold onInit at like unmoved
  rw [if_neg ours] at like unmoved
  by_cases early : p.phase = .new ∨ p.phase = .offered
  · -- The decision was still open, and the record closes it.
    simp only [if_pos early] at like
    have concluded := p.phase_conclude env
    generalize p.conclude env none = q at like concluded
    have open_ : ∀ {r : Peer X}, r.phase = q.phase ∨ r.phase = .failed → ¬ p.Like r := by
      intro r phase like
      rw [like.phase] at phase
      rcases early with early | early <;> rw [early] at phase <;>
        rcases concluded with c | c | c <;> rw [c] at phase <;> simp at phase
    split at like
    · exact open_ (.inl rfl) like
    split at like
    · rename_i r held
      exact open_ (.inl (assemble_phase held)) like
    rename_i r asm held
    have phase := assemble_phase held
    rcases r.answerInit_cases with f | ⟨-, same⟩ | ⟨kept, -⟩
    · exact open_ (.inr f) like
    · rw [same] at like
      exact open_ (.inl phase) like
    · exact open_ (.inl (kept.trans phase)) like
  · simp only [if_neg early] at like unmoved
    have kex : p.phase = .kex := by
      cases phase : p.phase <;> simp_all
    obtain ⟨open_, partial_, fresh⟩ := running kex
    rw [if_neg (by simp [kex, open_])] at like unmoved
    split at like
    · rename_i q held
      have back : q = p := like.of_assemble held
      rw [back] at held
      exact partial_ held
    rename_i q asm held
    rw [held] at unmoved
    rcases q.answerInit_cases with f | ⟨again, same⟩ | ⟨-, moved⟩
    · rw [like.phase, kex] at f
      cases f
    · rw [same] at like
      have back : q = p := like.of_assemble held
      rw [back] at held again
      exact fresh ⟨asm, held, again⟩
    · exact moved unmoved

/-! Answers. -/

theorem onResp_of_ignores (ignores : p.IgnoresResp env body) : p.onResp env body = p := by
  unfold onResp
  split
  · rfl
  rename_i ours
  simp only [Bool.not_eq_true', not_or, not_not, Bool.not_eq_false, Option.isNone_iff_eq_none] at ours
  obtain second | idle | none | held | ⟨asm, held, other⟩ := ignores
  · simp [second] at ours
  · exact absurd ours.2.1 idle
  · exact absurd none ours.2.2
  · rw [held]
  rw [held]
  exact if_pos other

theorem ignores_of_onResp (like : p.Like (p.onResp env body)) : p.IgnoresResp env body := by
  by_contra heeded
  simp only [IgnoresResp, not_or, not_exists, not_and, not_not, Bool.not_eq_false] at heeded
  obtain ⟨ours, running, started, partial_, other⟩ := heeded
  unfold onResp at like
  rw [if_neg (by simp [ours, running, started])] at like
  split at like
  · rename_i q held
    rw [like.of_assemble held] at held
    exact partial_ held
  rename_i q asm held
  split at like
  · rename_i foreign
    have back := like.of_assemble held
    rw [back] at held foreign
    exact foreign (other asm held)
  have kept : q.initiator = p.initiator := by
    obtain ⟨reasm, rfl⟩ := assemble_frame held
    rfl
  split at like
  · rename_i none
    exact started (kept.symm.trans none)
  -- The exchange ends either way, and its state is dropped.
  have dropped := like.initiator
  split at dropped
  · exact started dropped.symm
  split at dropped
  all_goals exact started dropped.symm

/-! Confirmations. -/

theorem onConfirm_of_ignores (ignores : p.IgnoresConfirm body) : p.onConfirm env body = p := by
  unfold IgnoresConfirm at ignores
  unfold onConfirm
  split
  · rename_i abort
    rw [if_pos abort] at ignores
    exact if_neg ignores
  · rename_i tag
    rw [if_neg tag] at ignores
    rw [if_pos (by simpa using ignores)]

theorem ignores_of_onConfirm (like : p.Like (p.onConfirm env body)) : p.IgnoresConfirm body := by
  unfold IgnoresConfirm
  unfold onConfirm at like
  split at like
  · rename_i abort
    rw [if_pos abort]
    intro running
    rw [if_pos running] at like
    have failed : Phase.failed = .kex := like.phase.trans running
    cases failed
  rename_i tag
  rw [if_neg tag]
  by_contra heeded
  simp only [not_or, not_not] at heeded
  obtain ⟨length, keyed, open_⟩ := heeded
  rw [if_neg (by simp [length, keyed, open_])] at like
  split at like
  · have confirmed : p.peerConfirmed = true := by
      rw [← like.peerConfirmed]
      dsimp only
      split <;> rfl
    exact open_ confirmed
  · exact keyed like.key.symm

/-! All kinds. -/

theorem onRecord_of_ignores (ignores : p.Ignores env guard out) : p.onRecord env guard out coins = (p, guard) := by
  unfold Ignores at ignores
  unfold onRecord
  split_ifs at ignores ⊢
  · rw [onOffer_of_ignores ignores]
  · exact onInit_of_ignores ignores
  · rw [onResp_of_ignores ignores]
  · rw [onConfirm_of_ignores ignores]
  · rfl

theorem ignores_of_onRecord (like : p.Like (p.onRecord env guard out coins).1)
    (unmoved : (p.onRecord env guard out coins).2 = guard) : p.Ignores env guard out := by
  unfold onRecord at like unmoved
  unfold Ignores
  split_ifs at like unmoved ⊢
  · exact ignores_of_onOffer like
  · exact ignores_of_onInit like unmoved
  · exact ignores_of_onResp like
  · exact ignores_of_onConfirm like

/-! No record moves the contact to another session. -/

theorem sid_onOffer (p : Peer X) : (p.onOffer body).sid = p.sid := by
  simp only [onOffer, apply_ite Peer.sid, ite_self]

theorem assemble_sid (held : p.assemble env body = (next, found)) : next.sid = p.sid := by
  obtain ⟨reasm, rfl⟩ := assemble_frame held
  rfl

section

variable (p : Peer X) (env : Env)

theorem sid_answerInit : (p.answerInit env guard asm coins).1.sid = p.sid := by
  unfold answerInit
  split
  · rfl
  split
  · rfl
  split
  · split <;> rfl
  · rfl
  · rfl

theorem sid_onInit : (p.onInit env guard body coins).1.sid = p.sid := by
  unfold onInit
  split
  · rfl
  have concluded : (if p.phase = .new ∨ p.phase = .offered then p.conclude env none
      else p).sid = p.sid := by
    split
    · exact p.sid_conclude env
    · rfl
  rw [← concluded]
  dsimp only
  generalize (if p.phase = .new ∨ p.phase = .offered then p.conclude env none else p) = q
  split
  · rfl
  split
  · exact assemble_sid ‹_›
  · exact (sid_answerInit _ env).trans (assemble_sid ‹_›)

theorem sid_onResp : (p.onResp env body).sid = p.sid := by
  unfold onResp
  split
  · rfl
  split
  · exact assemble_sid ‹_›
  rename_i held
  rw [← assemble_sid held]
  split
  · rfl
  split
  · rfl
  split
  · rfl
  · split <;> rfl

theorem sid_onConfirm : (p.onConfirm env body).sid = p.sid := by
  unfold onConfirm
  dsimp only
  split_ifs <;> rfl

theorem sid_onRecord : (p.onRecord env guard out coins).1.sid = p.sid := by
  unfold onRecord
  split
  · exact p.sid_onOffer
  split
  · exact p.sid_onInit env
  split
  · exact p.sid_onResp env
  split
  · exact p.sid_onConfirm env
  · rfl

end

end Peer

namespace PqState

variable {st : PqState X} {peer sid : B32} {p : Peer X} {kind : UInt8} {body : Bytes}
  {now : UInt64} {coins : X.Coins} {writable : Bool}

/-- The upgrade is switched off, or the record of the contact is in memory, written,
and ignores `out`. -/
def Ignores (st : PqState X) (peer sid : B32) (out : Outgoing) (now : UInt64) : Prop :=
  st.mode = .off ∨ ∃ p, st.peers.get? peer = some p ∧ p.sid = sid ∧ p.dirty = false ∧
    p.Ignores (st.env peer now) st.guard out

theorem slot_of_held (found : st.peers.get? peer = some p) (own : p.sid = sid) : st.slot peer sid = (st, p) := by
  simp [slot, found, own]

/-- What `persist` says it wrote is what it holds, without the mark. -/
theorem persist_ok (written : st.persist peer p writable = (next, true)) :
    next.peers.get? peer = some { p with dirty := false } ∧ next.guard = st.guard := by
  unfold persist at written
  split at written
  · have same : ({ p with dirty := false } : Peer X) = p := by
      cases p
      simp_all
    cases written
    exact ⟨by rw [same]; exact SortedMap.get?_insert_self _, rfl⟩
  · split at written
    · cases written
      exact ⟨SortedMap.get?_insert_self _, rfl⟩
    split at written
    · cases written
      exact ⟨SortedMap.get?_insert_self _, rfl⟩
    · cases written

theorem onRecord_of_ignores (ignores : st.Ignores peer sid out now) :
    st.onRecord peer sid (out.kind :: out.body) now coins writable = (st, true) := by
  obtain off | ⟨p, found, own, clean, ignored⟩ := ignores
  · simp [onRecord, off]
  simp only [onRecord, slot_of_held found own, Peer.onRecord_of_ignores ignored]
  split
  · rfl
  · simp [persist, clean, SortedMap.insert_of_get? found]

theorem ignores_of_onRecord (upgrade : isPqKind kind = true)
    (kept : st.onRecord peer sid (kind :: body) now coins writable = (st, true)) :
    st.Ignores peer sid ⟨kind, body⟩ now := by
  by_cases off : st.mode = .off
  · exact .inl off
  simp only [onRecord, off, upgrade, decide_false, Bool.not_true, Bool.or_self, Bool.false_eq_true, if_false] at kept
  obtain ⟨held, guard⟩ := persist_ok kept
  -- The record that is back in memory is one of this session, so it was there before.
  have own : ({ (Peer.onRecord (st.slot peer sid).2 ((st.slot peer sid).1.env peer now)
      (st.slot peer sid).1.guard ⟨kind, body⟩ coins).1 with dirty := false } : Peer X).sid = sid :=
    (Peer.sid_onRecord _ _).trans (st.sid_slot)
  have slotted := slot_of_held held own
  generalize st.slot peer sid = result at held guard own slotted
  obtain ⟨base, p⟩ := result
  obtain ⟨rfl, back⟩ := Prod.mk.inj slotted
  have clean : p.dirty = false := back ▸ rfl
  rw [← back] at held own
  exact .inr ⟨p, held, own, clean, Peer.ignores_of_onRecord (.of_written back) guard.symm⟩

theorem onRecord_ignored_iff (upgrade : isPqKind kind = true) (coins : X.Coins)
    (writable : Bool) : st.onRecord peer sid (kind :: body) now coins writable = (st, true) ↔
      st.Ignores peer sid ⟨kind, body⟩ now :=
  ⟨ignores_of_onRecord upgrade, onRecord_of_ignores⟩

end PqState

end Miasma.Chat.Pq
