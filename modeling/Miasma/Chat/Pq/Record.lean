import Miasma.Chat.Pq

namespace Miasma.Chat.Pq

open Data Protocol

/-! What the operations on one contact's record can do to its key: it enters through
`install_key`, stays until the record fails, and is confirmed at most once. -/

variable {Key : Type} {X : Exchange Key}

/-- The side with the smaller endpoint id starts the exchange. -/
inductive Role where
  | initiator
  | responder
deriving DecidableEq

def Role.other : Role → Role
  | .initiator => .responder
  | .responder => .initiator

def Role.tag (X : Exchange Key) : Role → X.Seed → B32
  | .initiator => X.confirmInitiator
  | .responder => X.confirmResponder

/-- The environment of a decision belongs to the side. -/
def Env.OfRole (env : Env) (role : Role) : Prop := env.weInitiate = true ↔ role = .initiator

namespace Peer

structure Held (role : Role) (p : Peer X) : Prop where
  tags : ∀ key, p.key = some key → ∃ seed, key = X.sessionKey seed ∧
    p.ownTag = role.tag X seed ∧ p.peerTag = role.other.tag X seed
  running : p.key.isSome → p.phase = .kex ∨ p.phase = .active
  confirmed : p.peerConfirmed = true → p.phase = .active
  active : p.phase = .active → p.key.isSome ∧ p.peerConfirmed = true
  unstarted : role = .initiator → p.initiator.isSome → p.key = none
  queued : ∀ out ∈ p.outq, out.kind = kindConfirm → out.body = abortBody ∨
    (p.key.isSome ∧ out.body = p.ownTag.toList ∧ (role = .responder → p.peerConfirmed = true))

/-- There is no key, and nothing that belongs to one. -/
structure Clean (p : Peer X) : Prop where
  keyless : p.key = none
  inactive : p.phase ≠ .active
  unconfirmed : p.peerConfirmed = false
  queued : ∀ out ∈ p.outq, out.kind = kindConfirm → out.body = abortBody

/-- The exchange failed, and this is to be written down. -/
structure Failed (p : Peer X) : Prop where
  clean : p.Clean
  phase : p.phase = .failed
  dirty : p.dirty = true

/-- The key and all that belongs to it are the same. -/
structure Same (p next : Peer X) : Prop where
  key : next.key = p.key
  ownTag : p.key.isSome → next.ownTag = p.ownTag
  peerTag : p.key.isSome → next.peerTag = p.peerTag
  peerConfirmed : next.peerConfirmed = p.peerConfirmed
  phase : p.key.isSome → next.phase = p.phase

theorem Same.refl (p : Peer X) : p.Same p := ⟨rfl, fun _ => rfl, fun _ => rfl, rfl, fun _ => rfl⟩

theorem Same.trans {p next last : Peer X} (first : p.Same next) (second : next.Same last) : p.Same last := by
  have keyed : p.key.isSome → next.key.isSome := fun held => by rw [first.key]; exact held
  exact {
    key := second.key.trans first.key
    ownTag := fun held => (second.ownTag (keyed held)).trans (first.ownTag held)
    peerTag := fun held => (second.peerTag (keyed held)).trans (first.peerTag held)
    peerConfirmed := second.peerConfirmed.trans first.peerConfirmed
    phase := fun held => (second.phase (keyed held)).trans (first.phase held) }

theorem Same.symm {p next : Peer X} (same : p.Same next) : next.Same p := by
  have keyed : next.key.isSome → p.key.isSome := fun held => by rw [← same.key]; exact held
  exact {
    key := same.key.symm
    ownTag := fun held => (same.ownTag (keyed held)).symm
    peerTag := fun held => (same.peerTag (keyed held)).symm
    peerConfirmed := same.peerConfirmed.symm
    phase := fun held => (same.phase (keyed held)).symm }

variable {role : Role} {p next : Peer X} {env : Env}

theorem Clean.held (clean : p.Clean) (role : Role) : p.Held role where
  tags key there := by
    rw [clean.keyless] at there
    cases there
  running held := by
    rw [clean.keyless] at held
    cases held
  confirmed yes := by
    rw [clean.unconfirmed] at yes
    cases yes
  active phase := absurd phase clean.inactive
  unstarted _ _ := clean.keyless
  queued out inside kind := .inl (clean.queued out inside kind)

theorem Held.clean (held : p.Held role) (keyless : p.key = none) : p.Clean where
  keyless := keyless
  inactive phase := by
    have keyed := (held.active phase).1
    rw [keyless] at keyed
    cases keyed
  unconfirmed := by
    cases yes : p.peerConfirmed with
    | false => rfl
    | true =>
      have keyed := (held.active (held.confirmed yes)).1
      rw [keyless] at keyed
      cases keyed
  queued out inside kind := by
    cases held.queued out inside kind with
    | inl abort => exact abort
    | inr tag =>
      rw [keyless] at tag
      cases tag.1

theorem Held.keyless (held : p.Held role) (idle : p.phase ≠ .kex) (inactive : p.phase ≠ .active) : p.key = none := by
  cases key : p.key with
  | none => rfl
  | some k =>
    cases held.running (by rw [key]; rfl) with
    | inl kex => exact absurd kex idle
    | inr active => exact absurd active inactive

theorem Clean.same (clean : p.Clean) (after : next.Clean) : p.Same next where
  key := after.keyless.trans clean.keyless.symm
  ownTag keyed := by
    rw [clean.keyless] at keyed
    cases keyed
  peerTag keyed := by
    rw [clean.keyless] at keyed
    cases keyed
  peerConfirmed := after.unconfirmed.trans clean.unconfirmed.symm
  phase keyed := by
    rw [clean.keyless] at keyed
    cases keyed

theorem clean_fresh (sid : B32) : (fresh X sid).Clean := ⟨rfl, by simp [fresh], rfl, nofun⟩

section

variable (p : Peer X) (env : Env) (why : Reason)

theorem clean_failWith {tell : Bool} : (p.failWith env why tell).Clean := by
  refine ⟨rfl, by simp [failWith], rfl, ?_⟩
  cases tell with
  | false => exact nofun
  | true =>
    intro out inside _
    simp only [failWith, if_true, List.mem_singleton] at inside
    rw [inside]

theorem failed_failWith {tell : Bool} : (p.failWith env why tell).Failed := ⟨p.clean_failWith env why, rfl, rfl⟩

theorem failed_markFailed : (p.markFailed env why).Failed := p.failed_failWith env why

theorem clean_markFailed : (p.markFailed env why).Clean := (p.failed_markFailed env why).clean

theorem clean_markClassical : (p.markClassical env why).Clean := by
  rw [markClassical]
  split
  · exact p.clean_markFailed env why
  · exact ⟨rfl, by simp, rfl, nofun⟩

end

theorem clean_ite [Decidable condition] (clean : p.Clean) (after : next.Clean) :
    (if condition then p else next).Clean := by
  split
  · exact clean
  · exact after

theorem Clean.conclude (clean : p.Clean) (env : Env) (forced : Option Reason) : (p.conclude env forced).Clean := by
  cases forced with
  | some why => exact p.clean_markClassical env why
  | none =>
    exact clean_ite ⟨clean.keyless, by simp, clean.unconfirmed, clean.queued⟩
      (p.clean_markClassical env .peerNoHybrid)

/-- The operation leaves the key alone. -/
structure Steady (role : Role) (p next : Peer X) : Prop where
  held : next.Held role
  same : p.Same next

theorem Clean.steady (clean : p.Clean) (after : next.Clean) : Steady role p next :=
  ⟨after.held role, clean.same after⟩

theorem Steady.trans (first : Steady role p next) (second : Steady role next last) :
    Steady role p last := ⟨second.held, first.same.trans second.same⟩

theorem Held.retryDecided (held : p.Held role) (env : Env) : Steady role p (p.retryDecided env) := by
  have again : p.key = none → ∀ after : UInt64, Steady role p
      (if after ≤ saturatingSub env.now p.decidedMs then { fresh X p.sid with dirty := true }
        else p) := fun keyless after =>
    (held.clean keyless).steady (clean_ite ⟨rfl, by simp [fresh], rfl, nofun⟩ (held.clean keyless))
  cases phase : p.phase with
  | classical | failed =>
    simp only [Peer.retryDecided, phase]
    exact again (held.keyless (by simp [phase]) (by simp [phase])) _
  | new | offered | kex | active =>
    simp only [Peer.retryDecided, phase]
    exact ⟨held, .refl p⟩

theorem Held.ensureConfirm (held : p.Held role) (ofRole : env.OfRole role) : Steady role p (p.ensureConfirm env) := by
  rw [Peer.ensureConfirm]
  split
  · rename_i due
    simp only [Bool.and_eq_true, Bool.or_eq_true] at due
    obtain ⟨⟨⟨⟨keyed, -⟩, may⟩, -⟩, -⟩ := due
    refine ⟨{ held with queued := forall_mem_snoc held.queued fun _ => ?_ },
      ⟨rfl, fun _ => rfl, fun _ => rfl, rfl, fun _ => rfl⟩⟩
    refine .inr ⟨keyed, rfl, fun responder => ?_⟩
    cases may with
    | inl initiates =>
      rw [ofRole.mp initiates] at responder
      cases responder
    | inr confirmed => exact confirmed
  · exact ⟨held, .refl p⟩

theorem Clean.startFlight (clean : p.Clean) (env : Env) (draw : Draw X) : (p.startFlight env draw).1.Clean := by
  rw [Peer.startFlight]
  split
  · exact clean
  split
  · exact ⟨clean.keyless, clean.inactive, clean.unconfirmed, clean.queued⟩
  refine ⟨clean.keyless, clean.inactive, clean.unconfirmed, fun out inside kind => ?_⟩
  obtain ⟨frame, -, same⟩ := List.mem_map.mp inside
  subst same
  cases kind

theorem Held.decideKex (held : p.Held role) (env : Env) (draw : Draw X) : Steady role p (p.decideKex env draw).1 := by
  simp only [Peer.decideKex]
  split
  · rename_i start
    have clean := held.clean (Option.isNone_iff_eq_none.mp start.2.1)
    have flight := clean.startFlight env draw
    split
    · rename_i after result
      rw [result] at flight
      exact clean.steady flight
    · rename_i after result
      exact clean.steady (after.clean_markFailed env .exchangeFailed)
  · split
    · rename_i late
      have clean := held.clean (Option.isNone_iff_eq_none.mp late.2.2)
      split
      · exact clean.steady (Peer.clean_markFailed _ env .timeout)
      · exact clean.steady ⟨rfl, clean.inactive, rfl, nofun⟩
    · exact ⟨held, .refl p⟩

/-- What a side sends is its offer or stands in its queue. -/
def Sends (p : Peer X) (pass : Pass) : Prop := ∀ out, pass = .send out → out.kind = kindConfirm → out ∈ p.outq

theorem sends_holdOrProceed (p : Peer X) (env : Env) : p.Sends (holdOrProceed env) := by
  intro out sent
  rw [holdOrProceed] at sent
  split at sent <;> cases sent

theorem sends_gateOfDecided (p : Peer X) (env : Env) : p.Sends (p.gateOfDecided env) := by
  intro out sent
  rw [gateOfDecided] at sent
  split at sent
  · cases sent
  · split at sent <;> cases sent

theorem sends_decideKex {pass : Pass} (p : Peer X) (env : Env) (draw : Draw X)
    (passed : (p.decideKex env draw).2 = some pass) : (p.decideKex env draw).1.Sends pass := by
  simp only [decideKex] at passed ⊢
  split at passed
  · split at passed <;> cases passed
  split at passed
  · split at passed <;> cases passed
  rename_i idle late
  cases passed
  rw [if_neg idle, if_neg late]
  exact p.sends_holdOrProceed env

section

variable (held : p.Held role) (ofRole : env.OfRole role) (draw : Draw X)
include held ofRole

theorem Held.decideOnce : Steady role p (p.decideOnce env draw).1 ∧
      ∀ pass, (p.decideOnce env draw).2 = some pass → (p.decideOnce env draw).1.Sends pass := by
  have first := held.retryDecided env
  have ready := first.trans (first.held.ensureConfirm ofRole)
  simp only [Peer.decideOnce]
  generalize (p.retryDecided env).ensureConfirm env = q at ready
  cases queue : q.outq with
  | cons front rest =>
    refine ⟨ready, fun pass passed out sent _ => ?_⟩
    cases passed
    cases sent
    rw [queue]
    exact List.mem_cons_self
  | nil =>
    by_cases unoffered : q.offeredMs = 0
    · rw [if_pos unoffered]
      refine ⟨ready, fun pass passed out sent kind => ?_⟩
      cases passed
      cases sent
      cases kind
    rw [if_neg unoffered]
    cases phase : q.phase with
    | new =>
      have clean := ready.held.clean (ready.held.keyless (by simp [phase]) (by simp [phase]))
      exact ⟨ready.trans (clean.steady ⟨clean.keyless, by simp, clean.unconfirmed, nofun⟩), nofun⟩
    | offered =>
      have clean := ready.held.clean (ready.held.keyless (by simp [phase]) (by simp [phase]))
      dsimp only
      split
      · exact ⟨ready.trans (clean.steady (clean.conclude env none)), nofun⟩
      exact ⟨ready, fun pass passed => by
        cases passed
        exact q.sends_holdOrProceed env⟩
    | classical | failed =>
      exact ⟨ready, fun pass passed => by
        cases passed
        exact q.sends_gateOfDecided env⟩
    | kex =>
      exact ⟨ready.trans (ready.held.decideKex env draw), fun pass passed => q.sends_decideKex env draw passed⟩
    | active =>
      exact ⟨ready, fun pass passed out sent => by
        cases passed
        cases sent⟩

theorem Held.decideLoop : Steady role p (decideLoop env draw turns p).1 ∧
      (decideLoop env draw turns p).1.Sends (decideLoop env draw turns p).2 := by
  induction turns generalizing p with
  | zero => exact ⟨⟨held, .refl p⟩, p.sends_holdOrProceed env⟩
  | succ turns ih =>
    obtain ⟨steady, sends⟩ := held.decideOnce ofRole draw
    simp only [Peer.decideLoop]
    cases result : p.decideOnce env draw with
    | mk next pass =>
      rw [result] at steady sends
      cases pass with
      | some pass => exact ⟨steady, sends pass rfl⟩
      | none =>
        obtain ⟨later, laterSends⟩ := ih steady.held
        exact ⟨steady.trans later, laterSends⟩

theorem Held.decide : Steady role p (p.decide env draw).1 ∧ (p.decide env draw).1.Sends (p.decide env draw).2 :=
  held.decideLoop ofRole draw

end

structure Installed (role : Role) (next : Peer X) (seed : X.Seed) : Prop where
  held : next.Held role
  key : next.key = some (X.sessionKey seed)
  unconfirmed : next.peerConfirmed = false
  phase : next.phase = .kex
  dirty : next.dirty = true

theorem Held.installKey (role : Role) (running : p.phase = .kex) (unstarted : role = .initiator → p.initiator = none)
    (quiet : ∀ out ∈ p.outq, out.kind = kindConfirm → out.body = abortBody) (seed : X.Seed) :
    Installed role (p.installKey seed (role = .initiator)) seed := by
  refine ⟨⟨?_, fun _ => .inl running, nofun, ?_, ?_, fun out inside kind =>
    .inl (quiet out inside kind)⟩, rfl, rfl, running, rfl⟩
  · intro key there
    cases there
    refine ⟨seed, rfl, ?_, ?_⟩ <;> cases role <;> rfl
  · intro active
    change p.phase = .active at active
    rw [running] at active
    cases active
  · intro starts started
    change p.initiator.isSome at started
    rw [unstarted starts] at started
    cases started

theorem Held.answerInit (running : p.phase = .kex) {guard : ReplayGuard} :
    (p.answerInit env guard asm coins).1 = p ∨ (p.answerInit env guard asm coins).1.Failed ∨
      ∃ seed, Installed .responder (p.answerInit env guard asm coins).1 seed := by
  simp only [Peer.answerInit]
  split
  · exact .inr (.inl (p.failed_markFailed env .exchangeFailed))
  split
  · exact .inr (.inl (p.failed_markFailed env .exchangeFailed))
  split
  · rename_i seed msg2 _
    split
    · rename_i frames _
      have quiet : ∀ out ∈ frames.map (Outgoing.mk kindResp), out.kind = kindConfirm → out.body = abortBody := by
        intro out inside kind
        obtain ⟨frame, -, same⟩ := List.mem_map.mp inside
        subst same
        cases kind
      let q : Peer X := { p with outq := frames.map (Outgoing.mk kindResp) }
      have ready : q.phase = .kex := running
      obtain ⟨held, key, unconfirmed, phase, dirty⟩ := Held.installKey .responder ready nofun quiet seed
      exact .inr (.inr ⟨seed, held, key, unconfirmed, phase, dirty⟩)
    · exact .inr (.inl (Peer.failed_markFailed _ env .exchangeFailed))
  · exact .inl rfl
  · exact .inr (.inl (p.failed_markFailed env .exchangeFailed))

inductive Confirms (role : Role) (p next : Peer X) (body : Bytes) : Prop where
  | ignored (steady : Steady role p next)
  | aborted (abort : body = abortBody) (running : p.phase = .kex) (failed : next.Failed)
  | matched (tag : body = p.peerTag.toList) (keyed : p.key.isSome) (held : next.Held role)
      (key : next.key = p.key) (confirmed : next.peerConfirmed = true) (dirty : next.dirty = true)
  | mismatched (other : body ≠ p.peerTag.toList) (keyed : p.key.isSome)
      (notAbort : body ≠ abortBody) (unconfirmed : p.peerConfirmed = false) (failed : next.Failed)

section

variable (held : p.Held role)
include held

theorem Held.delivered (env : Env) (out : Outgoing) : Steady role p (p.afterSend env out .delivered) := by
  simp only [Peer.afterSend]
  split
  · refine ⟨{ held with running := ?_, confirmed := ?_, active := ?_ }, ⟨rfl, fun _ => rfl, fun _ => rfl, rfl, ?_⟩⟩
    · intro keyed
      cases held.running keyed with
      | inl kex => simp [kex]
      | inr active => simp [active]
    · intro yes
      simp [held.confirmed yes]
    · intro active
      by_cases new : p.phase = .new
      · simp [new] at active
      simp only [new, if_false] at active
      exact held.active active
    · intro keyed
      cases held.running keyed with
      | inl kex => simp [kex]
      | inr active => simp [active]
  · refine ⟨{ held with queued := ?_ }, ⟨rfl, fun _ => rfl, fun _ => rfl, rfl, fun _ => rfl⟩⟩
    intro other inside
    split at inside
    · exact held.queued other (List.mem_of_mem_tail inside)
    · exact held.queued other inside

theorem Held.onOffer (body : Bytes) : Steady role p (p.onOffer body) := by
  simp only [Peer.onOffer]
  split
  · exact ⟨held, .refl p⟩
  split
  · exact ⟨held, .refl p⟩
  by_cases reopened : p.phase = .classical ∧ p.reason = .peerNoHybrid
  · have clean := held.clean (held.keyless (by simp [reopened.1]) (by simp [reopened.1]))
    rw [if_pos reopened]
    exact clean.steady ⟨clean.keyless, by simp, clean.unconfirmed, clean.queued⟩
  · rw [if_neg reopened]
    split
    · exact ⟨{ held with }, ⟨rfl, fun _ => rfl, fun _ => rfl, rfl, fun _ => rfl⟩⟩
    · exact ⟨held, .refl p⟩

theorem Held.assemble : Steady role p (p.assemble env body).1 ∧
      (p.assemble env body).1.initiator = p.initiator ∧
      (p.assemble env body).1.phase = p.phase := by
  simp only [Peer.assemble]
  split <;> exact ⟨⟨{ held with }, ⟨rfl, fun _ => rfl, fun _ => rfl, rfl, fun _ => rfl⟩⟩, rfl, rfl⟩

/-- A fragment of a first message: only the responder, and only before the key is
confirmed, takes a new key or fails. -/
theorem Held.onInit (ofRole : env.OfRole role) (guard : ReplayGuard) (body : Bytes) (coins : X.Coins) :
    Steady role p (p.onInit env guard body coins).1 ∨
      (role = .responder ∧ p.peerConfirmed = false ∧ ((p.onInit env guard body coins).1.Failed ∨
        ∃ seed, Installed .responder (p.onInit env guard body coins).1 seed)) := by
  simp only [Peer.onInit]
  split
  · exact .inl ⟨held, .refl p⟩
  rename_i answers
  have responder : role = .responder := by
    cases role with
    | responder => rfl
    | initiator => exact absurd (.inl (ofRole.mpr rfl)) answers
  have concluded : Steady role p (if p.phase = .new ∨ p.phase = .offered then p.conclude env none
      else p) := by
    split
    · rename_i early
      have idle : p.phase ≠ .kex ∧ p.phase ≠ .active := by
        cases early with
        | inl new => simp [new]
        | inr offered => simp [offered]
      have clean := held.clean (held.keyless idle.1 idle.2)
      exact clean.steady (clean.conclude env none)
    · exact ⟨held, .refl p⟩
  generalize (if p.phase = .new ∨ p.phase = .offered then p.conclude env none else p) = q at concluded
  split
  · exact .inl concluded
  rename_i ready
  simp only [not_or, Decidable.not_not, Bool.not_eq_true] at ready
  obtain ⟨assembled, -, phase⟩ := concluded.held.assemble
  split
  · rename_i partly result
    rw [result] at assembled
    exact .inl (concluded.trans assembled)
  rename_i complete asm result
  rw [result] at assembled phase
  have unconfirmed : p.peerConfirmed = false := concluded.same.peerConfirmed ▸ ready.2
  cases Held.answerInit (phase.trans ready.1) with
  | inl unchanged =>
    rw [unchanged]
    exact .inl (concluded.trans assembled)
  | inr changed => exact .inr ⟨responder, unconfirmed, changed⟩

theorem Held.onResp (ofRole : env.OfRole role) (body : Bytes) : Steady role p (p.onResp env body) ∨
      (role = .initiator ∧ p.key = none ∧ ∃ seed, Installed .initiator (p.onResp env body) seed) := by
  simp only [Peer.onResp]
  split
  · exact .inl ⟨held, .refl p⟩
  rename_i waits
  simp only [not_or, Decidable.not_not, Bool.not_eq_true, Bool.not_eq_false', Option.isNone_eq_false_iff] at waits
  obtain ⟨initiates, running, started⟩ := waits
  have initiator := ofRole.mp initiates
  subst initiator
  have clean := held.clean (held.unstarted rfl started)
  obtain ⟨assembled, init, phase⟩ := held.assemble
  split
  · rename_i partly result
    rw [result] at assembled
    exact .inl assembled
  rename_i complete asm result
  rw [result] at assembled init phase
  have after := assembled.held.clean (assembled.same.key.trans clean.keyless)
  split
  · exact .inl assembled
  split
  · exact .inl assembled
  split
  · exact .inl (clean.steady (Peer.clean_markFailed _ env .exchangeFailed))
  split
  · rename_i seed finished
    let q : Peer X := { complete with initiator := none }
    have ready : q.phase = .kex := phase.trans running
    obtain ⟨held, key, unconfirmed, phase, dirty⟩ :=
      Held.installKey .initiator ready (fun _ => rfl) after.queued seed
    exact .inr ⟨rfl, clean.keyless, seed, { held with }, key, unconfirmed, phase, dirty⟩
  · exact .inl (clean.steady (Peer.clean_markFailed _ env .exchangeFailed))

theorem Held.onConfirm (env : Env) (body : Bytes) : Confirms role p (p.onConfirm env body) body := by
  simp only [Peer.onConfirm]
  split
  · rename_i abort
    split
    · rename_i running
      exact .aborted abort running (p.failed_failWith env .exchangeFailed)
    · exact .ignored ⟨held, .refl p⟩
  rename_i notAbort
  split
  · exact .ignored ⟨held, .refl p⟩
  rename_i awaited
  simp only [not_or, Bool.not_eq_true, Option.isNone_eq_false_iff] at awaited
  obtain ⟨-, keyed, unconfirmed⟩ := awaited
  split
  · rename_i tag
    have running : p.phase = .kex := by
      cases held.running keyed with
      | inl kex => exact kex
      | inr active =>
        rw [(held.active active).2] at unconfirmed
        cases unconfirmed
    rw [if_pos running]
    refine .matched tag.symm keyed ⟨held.tags, fun _ => .inr rfl, fun _ => rfl,
      fun _ => ⟨keyed, rfl⟩, held.unstarted, fun out inside kind => ?_⟩ rfl rfl rfl
    cases held.queued out inside kind with
    | inl abort => exact .inl abort
    | inr tag => exact .inr ⟨tag.1, tag.2.1, fun _ => rfl⟩
  · rename_i other
    exact .mismatched (other ·.symm) keyed notAbort unconfirmed
      (p.failed_markFailed env .confirmMismatch)

end

end Peer

end Miasma.Chat.Pq
