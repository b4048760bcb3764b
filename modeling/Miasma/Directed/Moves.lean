import Miasma.Data.Outcome
import Miasma.Directed.Recipient

namespace Miasma.Directed

open Data DirectedInbox Option World

/-! Everything a step can do to the files of one envelope id. -/

namespace DirectedInbox

variable {inbox : DirectedInbox} {envelope held : DirectedEnvelope} {id other : B32}

theorem slot_persist (envelope : DirectedEnvelope) (found : (inbox.slot id).envelope = some held)
    (same : envelope.envelopeId = id) (done : Bool) (failure : String)
    (response : DirectedResponse) (other : B32) :
    (inbox.persist id envelope done failure response).2.slot other = if other = id then
        ⟨some envelope, if done then none else (inbox.slot id).code, (inbox.slot id).peer⟩
      else inbox.slot other := by
  subst same
  obtain ⟨saved, ok⟩ := save_of_held envelope found
  have slots := slot_of_save ok other
  simp only [persist, ok]
  cases done <;> by_cases here : other = envelope.envelopeId <;> simp_all

/-- What `let _ = save` leaves: the envelope is stored, unless none was there and the
inbox is full. -/
theorem slot_trySave (inbox : DirectedInbox) (envelope : DirectedEnvelope) (here : envelope.envelopeId = id) :
    ∃ after, (after = some envelope ∨ (inbox.slot id).envelope = none ∧ after = none) ∧
      ∀ other, (inbox.trySave envelope).slot other =
        if other = id then { inbox.slot other with envelope := after } else inbox.slot other := by
  subst here
  cases ok : inbox.saveIncoming envelope with
  | ok =>
    refine ⟨_, .inl rfl, fun other => ?_⟩
    simpa only [trySave, ok] using slot_of_save ok other
  | error =>
    have absent : (inbox.slot envelope.envelopeId).envelope = none := by
      cases found : (inbox.slot envelope.envelopeId).envelope with
      | none => rfl
      | some held =>
        obtain ⟨saved, saves⟩ := save_of_held envelope found
        simp [saves] at ok
    refine ⟨none, .inr ⟨absent, rfl⟩, fun other => ?_⟩
    simp only [trySave, ok]
    split
    · next here => rw [here, ← absent]
    · rfl

theorem slot_trySave_of_held (envelope : DirectedEnvelope) (here : envelope.envelopeId = id)
    (found : (inbox.slot id).envelope = some held) (other : B32) :
    (inbox.trySave envelope).slot other = if other = id then { inbox.slot other with envelope := some envelope }
      else inbox.slot other := by
  obtain ⟨after, saved | ⟨absent, -⟩, slots⟩ := slot_trySave inbox envelope here
  · rw [slots, saved]
  · simp [found] at absent

end DirectedInbox

/-! ## Invites -/

/-- What an invite does: it is answered, or its sender is bound to the id and the
envelope, with its retention normalized, offered to the queue. -/
inductive Invited (node : Node) (inbox : DirectedInbox) (peer : PeerId)
    (envelope : DirectedEnvelope) (now : Nat) : DirectedInbox → Option DirectedEnvelope → Prop
  | answered : Invited node inbox peer envelope now inbox none
  | bound {saved : DirectedInbox} {normal : DirectedEnvelope} (event : Option DirectedEnvelope)
      (normalized : envelope.normalizeReceivedRetention now = .ok normal)
      (absent : (inbox.slot envelope.envelopeId).envelope = none)
      (ok : inbox.bindIncomingPeerId envelope.envelopeId peer = .ok saved)
      (offered : event = none ∨ event = some normal) :
      Invited node inbox peer envelope now saved event

theorem invited (node : Node) (inbox : DirectedInbox) (peer : PeerId)
    (envelope : DirectedEnvelope) (now : Nat) (queued : Except String Unit) :
    Invited node inbox peer envelope now (invite node inbox peer envelope now queued).2.1
      (invite node inbox peer envelope now queued).2.2 := by
  generalize result : invite node inbox peer envelope now queued = answer
  unfold invite at result
  simp only at result
  split at result
  · cases result; exact .answered
  split at result
  · cases result; exact .answered
  split at result
  · cases result; exact .answered
  split at result
  · cases result; exact .answered
  next normal normalized =>
  split at result
  · cases result; exact .answered
  split at result
  · split at result <;> (cases result; exact .answered)
  next absent =>
  have absent : (inbox.slot envelope.envelopeId).envelope = none := not_isSome_iff_eq_none.mp absent
  split at result
  · cases result; exact .answered
  split at result
  · cases result; exact .answered
  next saved ok =>
  split at result
  · cases result; exact .bound _ normalized absent ok (.inr rfl)
  · cases result; exact .bound _ normalized absent ok (.inl rfl)

/-! ## Confirmations -/

/-- A peer asks about an open challenge that is bound to it. -/
structure Challenged (inbox : DirectedInbox) (peer : PeerId) (id : B32)
    (envelope : DirectedEnvelope) : Prop where
  bound : (inbox.slot id).peer = some peer
  stored : (inbox.slot id).envelope = some envelope
  issued : envelope.state = .challengeIssued

structure Compared (T : Texts) (inbox : DirectedInbox) (peer : PeerId) (id : B32)
    (code : List Char) (now : Nat) (envelope : DirectedEnvelope) (right : Bool) : Prop
    extends Challenged inbox peer id envelope where
  left : 0 < envelope.challengeAttemptsRemaining
  inTime : now ≤ envelope.challengeExpiresAt
  compared : ∃ hash, envelope.challengeHash = some hash ∧ T.verifyChallenge code hash = some right

inductive Judged (T : Texts) (inbox : DirectedInbox) (peer : PeerId) (id : B32)
    (code : List Char) (now : Nat) : Option Judgement → Prop
  | panics : Judged T inbox peer id code now none
  | refused (reason : String) : Judged T inbox peer id code now (some (.refused reason))
  | exhausted {envelope} (challenged : Challenged inbox peer id envelope) :
      Judged T inbox peer id code now (some (.exhausted envelope))
  | late {envelope} (challenged : Challenged inbox peer id envelope) :
      Judged T inbox peer id code now (some (.late envelope))
  | right {envelope} (compared : Compared T inbox peer id code now envelope true) :
      Judged T inbox peer id code now (some (.right envelope))
  | wrong {envelope} (compared : Compared T inbox peer id code now envelope false) :
      Judged T inbox peer id code now (some (.wrong envelope))

theorem judged (T : Texts) (inbox : DirectedInbox) (peer : PeerId) (id : B32) (code : List Char) (now : Nat) :
    Judged T inbox peer id code now (judge T inbox peer id code now) := by
  unfold judge
  split
  · exact .refused _
  next bound =>
    have bound := incomingPeerIsBound_iff.mp (Decidable.of_not_not bound)
    split
    · exact .refused _
    next envelope stored =>
      split
      · exact .refused _
      next issued =>
        have challenged : Challenged inbox peer id envelope := ⟨bound, stored, Decidable.of_not_not issued⟩
        split
        · exact .exhausted challenged
        next left =>
          split
          · exact .late challenged
          next inTime =>
            have inTime := Nat.not_lt.mp (fun late => inTime (.inr late))
            split
            · exact .refused _
            next hash known =>
              cases verified : T.verifyChallenge code hash with
              | none => exact .panics
              | some right =>
                have compared : Compared T inbox peer id code now envelope right :=
                  ⟨challenged, Nat.pos_of_ne_zero left, inTime, hash, known, verified⟩
                cases right with
                | true => exact .right compared
                | false => exact .wrong compared

/-! ## Steps -/

/-- The envelope of a received invite once the code is issued. -/
def DirectedEnvelope.issue (T : Texts) (envelope : DirectedEnvelope) (draws : Draws) (now : Nat) : DirectedEnvelope :=
  { envelope with
    state := .challengeIssued
    challengeHash := some (generateChallenge T draws).2
    challengeAttemptsRemaining := challengeMaxAttempts
    passwordAttemptsRemaining := passwordMaxAttempts
    challengeExpiresAt := saturatingAdd now challengeTtlSecs }

namespace World

abbrev slot (w : World) (id : B32) : Slot := w.inbox.slot id

def wrongCodes (w : World) (id : B32) : Nat := w.trials.count (.code id false)

def wrongPasswords (w : World) (id : B32) : Nat := w.trials.count (.password id false)

end World

/-- What a step makes of the files of `id`, with the wrong codes and the wrong passwords
it tests against that share. -/
inductive Moves (R : Recipient) (w : World) (id : B32) : Event → Slot → Nat → Nat → Prop
  | kept (event : Event) : Moves R w id event (w.slot id) 0 0
  | bound (event : Event) (peer : PeerId) (free : (w.slot id).peer = none)
      (absent : (w.slot id).envelope = none) :
      Moves R w id event { w.slot id with peer := some peer } 0 0
  | received {peer : PeerId} {envelope : DirectedEnvelope} {draws : Draws} {now : Nat}
      (here : envelope.envelopeId = id) (absent : (w.slot id).envelope = none)
      (free : (w.slot id).peer = none ∨ (w.slot id).peer = some peer) :
      Moves R w id (.envelopeReceived peer envelope draws now)
        ⟨some (envelope.issue R.texts draws now), some (generateChallenge R.texts draws).1, some peer⟩ 0 0
  | collected {envelope : DirectedEnvelope} (here : envelope.envelopeId = id) :
      Moves R w id (.collect envelope) { w.slot id with envelope := some envelope } 0 0
  | right {peer : PeerId} {code : List Char} {now : Nat} {envelope : DirectedEnvelope}
      (compared : Compared R.texts w.inbox peer id code now envelope true) :
      Moves R w id (.confirm peer id code now) ⟨some (envelope.setState .confirmed), none, (w.slot id).peer⟩ 0 0
  | wrong {peer : PeerId} {code : List Char} {now : Nat} {envelope : DirectedEnvelope}
      (compared : Compared R.texts w.inbox peer id code now envelope false) :
      Moves R w id (.confirm peer id code now) ⟨some envelope.spendCode,
          if envelope.spendCode.challengeAttemptsRemaining = 0 then none else (w.slot id).code,
          (w.slot id).peer⟩ 1 0
  | ended (event : Event) {envelope : DirectedEnvelope} (state : EnvelopeState)
      (code : Option (List Char)) (stored : (w.slot id).envelope = some envelope)
      (live : envelope.state.isTerminal = false) (ends : state.isTerminal = true) :
      Moves R w id event ⟨some (envelope.setState state), code, (w.slot id).peer⟩ 0 0
  | tidied (event : Event) {envelope : DirectedEnvelope} (code : Option (List Char))
      (stored : (w.slot id).envelope = some envelope)
      (terminal : envelope.state.isTerminal = true) :
      Moves R w id event { w.slot id with code := code } 0 0
  | overridden {envelope : DirectedEnvelope} (stored : (w.slot id).envelope = some envelope) :
      Moves R w id (.revokeReceived id) { w.slot id with envelope := some (envelope.setState .senderRevoked) } 0 0
  | retrieved {n : Nat} {data : Bytes} {retrieval : Retrieval} {after : Option DirectedEnvelope}
      (waiting : w.retrievals[n]? = some retrieval) (here : retrieval.envelope.envelopeId = id)
      (opened : (retrieval.opens R.opening data).isSome)
      (saved : after = some (retrieval.envelope.setState .retrieved) ∨ (w.slot id).envelope = none ∧ after = none) :
      Moves R w id (.save n (.ok data)) ⟨after, none, (w.slot id).peer⟩ 0 0
  | failed {n : Nat} {data : Bytes} {retrieval : Retrieval} {after : Option DirectedEnvelope}
      {code : Option (List Char)}
      (waiting : w.retrievals[n]? = some retrieval) (here : retrieval.envelope.envelopeId = id)
      (closed : retrieval.opens R.opening data = none)
      (saved : after = some retrieval.envelope.spendPassword ∨ (w.slot id).envelope = none ∧ after = none) :
      Moves R w id (.save n (.ok data)) ⟨after, code, (w.slot id).peer⟩ 0 1
  | deleted : Moves R w id (.delete id) ⟨none, none, none⟩ 0 0

section Steps

variable {R : Recipient} {w next : World} {id : B32}

variable {event : Event}

theorem moves_bind {peer : PeerId} (absent : (w.slot bound).envelope = none)
    (ok : w.inbox.bindIncomingPeerId bound peer = .ok saved) : Moves R w id event (saved.slot id) 0 0 := by
  obtain ⟨free, slots⟩ := slot_of_bind ok
  rw [slots]
  split
  · next here =>
      subst here
      rcases free with free | free
      · exact .bound _ peer free absent
      rw [← free]
      exact .kept _
  · exact .kept _

theorem moves_invite (peer : PeerId) (envelope : DirectedEnvelope) (now : Nat) (queued : Except String Unit) :
    Moves R w id (.invite peer envelope now queued)
      ((invite R.node w.inbox peer envelope now queued).2.1.slot id) 0 0 := by
  have handled := invited R.node w.inbox peer envelope now queued
  generalize invite R.node w.inbox peer envelope now queued = answer at handled ⊢
  obtain ⟨_, inbox, event⟩ := answer
  cases handled with
  | answered => exact .kept _
  | bound event normalized absent ok => exact moves_bind absent ok

theorem moves_envelopeReceived (peer : PeerId) (envelope : DirectedEnvelope) (draws : Draws) (now : Nat) :
    Moves R w id (.envelopeReceived peer envelope draws now)
      ((envelopeReceived R.texts w.inbox peer envelope draws now).slot id) 0 0 := by
  unfold envelopeReceived
  simp only
  split
  · exact .kept _
  next absent =>
  have absent : (w.slot envelope.envelopeId).envelope = none := not_isSome_iff_eq_none.mp absent
  split
  · exact .kept _
  next bound ok =>
  split
  · exact moves_bind absent ok
  next saved stored =>
  obtain ⟨free, slots⟩ := slot_of_bind ok
  have files := slot_of_save stored
  generalize coded : saved.saveChallengeCode envelope.envelopeId (generateChallenge R.texts draws).1 = inbox
  have codes : ∀ other, inbox.slot other = if other = envelope.envelopeId then
        ⟨some envelope, some (generateChallenge R.texts draws).1, some peer⟩
      else w.slot other := by
    intro other
    rw [← coded, slot_saveChallengeCode]
    split
    · next here => simp [here, files, slots]
    · next here => simp [here, files, slots, World.slot]
  have held : inbox.loadIncoming envelope.envelopeId = some envelope := by
    rw [loadIncoming_eq, codes, if_pos rfl]
  rw [held]
  change Moves R w id _ ((inbox.trySave (envelope.issue R.texts draws now)).slot id) 0 0
  rw [slot_trySave_of_held (envelope.issue R.texts draws now) rfl held]
  split
  · next here =>
      have here : id = envelope.envelopeId := here
      subst here
      simp only [codes, if_true]
      exact .received rfl absent free
  · next elsewhere =>
      have elsewhere : ¬ id = envelope.envelopeId := elsewhere
      rw [codes, if_neg elsewhere]
      exact .kept _

theorem moves_revokeReceived :
    Moves R w id (.revokeReceived revoked) ((revokeReceived w.inbox revoked).slot id) 0 0 := by
  unfold revokeReceived updateIncomingState
  cases stored : w.inbox.loadIncoming revoked with
  | none => exact .kept _
  | some envelope =>
    have here := envelopeId_of_load stored
    subst here
    obtain ⟨saved, ok⟩ := save_of_held (envelope.setState .senderRevoked) stored
    simp only [ok, slot_of_save ok]
    split
    · next here =>
        subst here
        exact .overridden stored
    · exact .kept _

theorem moves_collect (envelope : DirectedEnvelope) : Moves R w id (.collect envelope)
      ((collectInvite R.sharingPubkey w.inbox envelope).1.slot id) 0 0 := by
  unfold collectInvite
  split
  · exact .kept _
  split
  · next saved ok =>
      simp only [slot_of_save ok]
      split
      · next here => exact .collected here.symm
      · exact .kept _
  · exact .kept _

variable {envelope : DirectedEnvelope} {inbox : DirectedInbox}

theorem moves_end (state : EnvelopeState) (code : Option (List Char))
    (stored : (w.slot ended).envelope = some envelope) (live : envelope.state.isTerminal = false)
    (ends : state.isTerminal = true) (slots : ∀ other, inbox.slot other =
      if other = ended then ⟨some (envelope.setState state), code, (w.slot ended).peer⟩
      else w.slot other) : Moves R w id event (inbox.slot id) 0 0 := by
  rw [slots id]
  split
  · next here =>
      subst here
      exact .ended _ state code stored live ends
  · exact .kept _

variable {state : EnvelopeState}

theorem moves_persist {failure : String} (stored : (w.slot ended).envelope = some envelope)
    (live : envelope.state.isTerminal = false) (ends : state.isTerminal = true) :
    Moves R w id event ((w.inbox.persist ended (envelope.setState state) true failure response).2.slot id) 0 0 := by
  have here : envelope.envelopeId = ended := envelopeId_of_load stored
  exact moves_end state _ stored live ends (slot_persist (envelope.setState state) stored here true failure response)

theorem moves_trySave (stored : (w.slot envelope.envelopeId).envelope = some envelope)
    (live : envelope.state.isTerminal = false) (ends : state.isTerminal = true) :
    Moves R w id event ((w.inbox.trySave (envelope.setState state)).slot id) 0 0 := by
  refine moves_end state (w.slot envelope.envelopeId).code stored live ends (fun other => ?_)
  rw [slot_trySave_of_held (envelope.setState state) rfl stored]
  by_cases here : other = envelope.envelopeId <;> simp [here, World.slot]

theorem moves_senderRevoke {peer : PeerId} : Moves R w id (.senderRevoke peer revoked)
      ((senderRevoke R.node w.inbox peer revoked).2.slot id) 0 0 := by
  unfold senderRevoke
  split
  · exact .kept _
  split
  · exact .kept _
  split
  · exact .kept _
  next envelope stored =>
  split
  · exact .kept _
  split
  · exact .kept _
  next live =>
  exact moves_persist stored (Bool.eq_false_of_not_eq_true live) rfl

theorem moves_revoke :
    Moves R w id (.revoke revoked) ((recipientRevoke R.sharingPubkey w.inbox revoked).2.slot id) 0 0 := by
  unfold recipientRevoke
  split
  · exact .kept _
  next envelope stored =>
  split
  · exact .kept _
  split
  · exact .kept _
  next live =>
  have here := envelopeId_of_load stored
  subst here
  split
  next saved ok =>
    refine moves_end .recipientDeleted none stored (Bool.eq_false_of_not_eq_true live) rfl (fun other => ?_)
    rw [slot_cleanupChallenge, slot_of_save ok]
    by_cases here : other = envelope.envelopeId <;> simp [here, World.slot]
  · exact .kept _

theorem moves_expireAll : Moves R w id (.expireAll now) ((w.inbox.expireAll now).slot id) 0 0 := by
  obtain ⟨envelopes, peers, codes⟩ := slot_expireAll w.inbox now id
  generalize (w.inbox.expireAll now).slot id = after at envelopes peers codes ⊢
  obtain ⟨stored, code, peer⟩ := after
  subst envelopes peers
  cases found : (w.inbox.slot id).envelope with
  | none =>
    simp only [found, map_none, any_none, forall_const] at codes ⊢
    subst codes
    rw [← found]
    exact .kept _
  | some envelope =>
    simp only [found, map_some, any_some] at codes ⊢
    by_cases ends : envelope.isExpired now ∧ ¬ envelope.state.isTerminal
    · have expired : expire now envelope = envelope.setState .expired := if_pos ends
      rw [expired]
      exact .ended _ .expired code found (Bool.eq_false_of_not_eq_true ends.2) rfl
    have same : expire now envelope = envelope := if_neg ends
    rw [same] at codes ⊢
    cases terminal : envelope.state.isTerminal with
    | false =>
      rw [codes terminal, ← found]
      exact .kept _
    | true =>
      rw [← found]
      exact .tidied _ code found terminal

theorem moves_load :
    Moves R w id (.load loaded password now)
      ((retrieveLoad R.opening w.inbox loaded password now).2.slot id) 0 0 := by
  unfold retrieveLoad
  split
  · exact .kept _
  next envelope stored =>
  have here := envelopeId_of_load stored
  subst here
  split
  · exact .kept _
  next retrievable =>
  have live : envelope.state.isTerminal = false := by
    have confirmed : envelope.state = .confirmed := by
      simpa [EnvelopeState.isRetrievable] using retrievable
    rw [confirmed]
    rfl
  split
  · exact moves_trySave stored live rfl
  split
  · exact moves_trySave stored live rfl
  · exact .kept _

theorem moves_confirm {peer : PeerId} (judges : Judged R.texts w.inbox peer asked code now (some judgement)) :
    Moves R w id (.confirm peer asked code now) ((confirmed w.inbox asked judgement).2.slot id)
      ((judgedTrials asked (some judgement)).count (.code id false)) 0 := by
  cases judges with
  | refused => exact .kept _
  | @exhausted envelope challenged | @late envelope challenged =>
    exact moves_persist challenged.stored (challenged.issued ▸ rfl) rfl
  | @right envelope compared =>
    have here : envelope.envelopeId = asked := envelopeId_of_load compared.stored
    simp only [confirmed, slot_persist (envelope.setState .confirmed) compared.stored here]
    split
    · next same =>
        subst same
        simpa [judgedTrials] using Moves.right compared
    · simpa [judgedTrials] using Moves.kept _
  | @wrong envelope compared =>
    have here : envelope.envelopeId = asked := envelopeId_of_load compared.stored
    simp only [confirmed, slot_persist envelope.spendCode compared.stored here]
    split
    · next same =>
        subst same
        simpa [judgedTrials] using Moves.wrong compared
    · next other =>
        simpa [judgedTrials, List.count_cons, Ne.symm other] using Moves.kept _

variable {retrieval : Retrieval}

theorem moves_save (waiting : w.retrievals[n]? = some retrieval) :
    Moves R w id (.save n answer) ((retrieveSave R.opening w.inbox retrieval answer).2.slot id) 0
      ((savedTrials R.opening retrieval answer).count (.password id false)) := by
  cases answer with
  | error => exact .kept _
  | ok data =>
    obtain ⟨saves, here⟩ : ∃ saves, retrieval.envelope.envelopeId = saves := ⟨_, rfl⟩
    cases opened : retrieval.opens R.opening data with
    | some plaintext =>
      have untried : (savedTrials R.opening retrieval (.ok data)).count (.password id false) = 0 := by
        simp [savedTrials, opened]
      obtain ⟨after, saved, slots⟩ := slot_trySave w.inbox (retrieval.envelope.setState .retrieved) here
      rw [untried]
      simp only [retrieveSave, opened, slot_cleanupChallenge, slots, here]
      split
      · next same =>
          subst same
          exact .retrieved waiting here (by simp [opened]) saved
      · exact .kept _
    | none =>
      have tried : (savedTrials R.opening retrieval (.ok data)).count (.password id false) =
          if saves = id then 1 else 0 := by
        simp [savedTrials, opened, List.count_cons, here]
      simp only [tried, retrieveSave, opened, here]
      generalize cleaned : (if retrieval.envelope.spendPassword.passwordAttemptsRemaining = 0 then
        w.inbox.cleanupChallenge saves else w.inbox) = inbox
      -- the code goes with the last try
      have codes : ∃ code, inbox.slot saves = { w.slot saves with code := code } ∧
          ∀ other, other ≠ saves → inbox.slot other = w.slot other := by
        subst cleaned
        split
        · exact ⟨none, by simp, fun other elsewhere => by simp [elsewhere]⟩
        · exact ⟨(w.slot saves).code, rfl, fun _ _ => rfl⟩
      obtain ⟨code, slot, others⟩ := codes
      obtain ⟨after, saved, slots⟩ := slot_trySave inbox retrieval.envelope.spendPassword here
      rw [slots]
      by_cases same : id = saves
      · subst same
        rw [slot] at saved
        simp only [if_true, slot]
        exact .failed waiting here opened saved
      · rw [if_neg same, if_neg (Ne.symm same), others id same]
        exact .kept _

theorem moves_delete : Moves R w id (.delete deleted) ((w.inbox.deleteIncoming deleted).slot id) 0 0 := by
  rw [slot_deleteIncoming]
  split
  · next here =>
      subst here
      exact .deleted
  · exact .kept _

/-- Every step moves the files of every id as `Moves` says, and counts the guesses. -/
theorem moves_of_step (stepped : w.step R event = some next) (id : B32) :
    ∃ codes passwords, Moves R w id event (next.slot id) codes passwords ∧
      next.wrongCodes id = w.wrongCodes id + codes ∧
      next.wrongPasswords id = w.wrongPasswords id + passwords := by
  have quiet {inbox : DirectedInbox} (moves : Moves R w id event (inbox.slot id) 0 0)
      (same : next = { w with inbox := inbox }) :
      ∃ codes passwords, Moves R w id event (next.slot id) codes passwords ∧
        next.wrongCodes id = w.wrongCodes id + codes ∧
        next.wrongPasswords id = w.wrongPasswords id + passwords := by
    subst same
    exact ⟨0, 0, moves, rfl, rfl⟩
  cases event with
  | invite peer envelope now queued =>
    exact quiet (moves_invite peer envelope now queued) (some.inj stepped).symm
  | envelopeReceived peer envelope draws now =>
    exact quiet (moves_envelopeReceived peer envelope draws now) (some.inj stepped).symm
  | revokeReceived revoked =>
    exact quiet moves_revokeReceived (some.inj stepped).symm
  | collect envelope => exact quiet (moves_collect envelope) (some.inj stepped).symm
  | confirm peer asked code now =>
    simp only [step, confirm] at stepped
    by_cases persistent : R.node.dataDir
    · have judges := judged R.texts w.inbox peer asked code now
      generalize judge R.texts w.inbox peer asked code now = judgement at judges stepped
      cases judgement with
      | none =>
        simp only [persistent, not_true_eq_false, if_false, map_none, some.injEq] at stepped
        exact quiet (.kept _) stepped.symm
      | some judgement =>
        simp only [persistent, not_true_eq_false, if_false, if_true, map_some, some.injEq] at stepped
        subst stepped
        refine ⟨_, 0, moves_confirm judges, ?_, ?_⟩
        · simp [wrongCodes, List.count_append]
        · cases judgement <;> simp [wrongPasswords, List.count_append, judgedTrials]
    · simp only [persistent, not_false_eq_true, if_true, Bool.false_eq_true, if_false,
        List.append_nil, some.injEq] at stepped
      exact quiet (.kept _) stepped.symm
  | senderRevoke peer revoked =>
    exact quiet moves_senderRevoke (some.inj stepped).symm
  | load loaded password now =>
    simp only [step] at stepped
    have moves : Moves R w id (.load loaded password now)
      ((retrieveLoad R.opening w.inbox loaded password now).2.slot id) 0 0 := moves_load
    generalize retrieveLoad R.opening w.inbox loaded password now = result at moves stepped
    obtain ⟨answer, inbox⟩ := result
    cases answer with
    | ok =>
      cases stepped
      exact ⟨0, 0, moves, rfl, rfl⟩
    | error => exact quiet moves (some.inj stepped).symm
  | save n answer =>
    simp only [step] at stepped
    cases waiting : w.retrievals[n]? with
    | none => simp [waiting] at stepped
    | some retrieval =>
      simp only [waiting, some.injEq] at stepped
      subst stepped
      refine ⟨0, _, moves_save waiting, ?_, ?_⟩
      · cases answer <;> simp [wrongCodes, List.count_append, savedTrials]
      · simp [wrongPasswords, List.count_append]
  | revoke revoked => exact quiet moves_revoke (some.inj stepped).symm
  | delete deleted => exact quiet moves_delete (some.inj stepped).symm
  | expireAll now => exact quiet moves_expireAll (some.inj stepped).symm

/-! ## Retrieve commands under way -/

theorem retrieveLoad_ok (ok : (retrieveLoad O inbox id password now).1 = .ok retrieval) :
    (inbox.slot id).envelope = some retrieval.envelope ∧ retrieval.envelope.state = .confirmed ∧
      0 < retrieval.envelope.passwordAttemptsRemaining := by
  unfold retrieveLoad at ok
  split at ok
  · cases ok
  next envelope stored =>
  split at ok
  · cases ok
  next retrievable =>
  split at ok
  · cases ok
  split at ok
  · cases ok
  next left =>
  obtain ⟨payload, -, ok⟩ := bind_ok_iff.mp ok
  obtain ⟨key, -, ok⟩ := bind_ok_iff.mp ok
  obtain ⟨mid, -, ok⟩ := bind_ok_iff.mp ok
  cases ok
  exact ⟨stored, by simpa [EnvelopeState.isRetrievable] using retrievable, Nat.pos_of_ne_zero left⟩

theorem retrievals_of_step (stepped : w.step R event = some next) :
    ∀ retrieval ∈ next.retrievals, retrieval ∈ w.retrievals ∨ retrieval.envelope.state = .confirmed ∧
        0 < retrieval.envelope.passwordAttemptsRemaining := by
  intro retrieval member
  cases event with
  | load id password now =>
    simp only [step] at stepped
    cases loaded : retrieveLoad R.opening w.inbox id password now with
    | mk answer =>
      cases answer with
      | error =>
        simp only [loaded, some.injEq] at stepped
        subst stepped
        exact .inl member
      | ok =>
        simp only [loaded, some.injEq] at stepped
        subst stepped
        rcases mem_snoc.mp member with old | rfl
        · exact .inl old
        · exact .inr (retrieveLoad_ok (congrArg Prod.fst loaded)).2
  | save =>
    simp only [step] at stepped
    split at stepped
    · cases stepped
    cases stepped
    exact .inl (List.mem_of_mem_eraseIdx member)
  | confirm =>
    simp only [step] at stepped
    split at stepped <;> (cases stepped; exact .inl member)
  | _ =>
    cases stepped
    exact .inl member

end Steps

end Miasma.Directed
