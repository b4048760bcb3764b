import Miasma.Directed.Confirmation
import Miasma.Directed.V2.Record

namespace Miasma.Directed.V2

open Data IncomingLocal IncomingRecord Option World Shares

/-! A version-2 share over restarts of the node.

The deadline of a challenge is a reading of the monotonic clock of the process that issued it. -/

/-! ## What a step does -/

inductive Stepped (T : Texts) (fields : IncomingLocal) (now : Now) :
    IncomingEvent → IncomingLocal → Except Illegal Effects → Prop
  | refused (event : IncomingEvent) : Stepped T fields now event fields (.error .illegal)
  | replayed (closed : fields.state = .senderRevoked) :
      Stepped T fields now .senderRevoke fields (.ok { noWrite := true })
  | accepted {code : List Char} {challenge : ChallengeLocal}
      (issued : fields.state = .challengeIssued) (known : fields.challenge = some challenge)
      (inTime : challenge.expires.isExpired now.monoMs = false)
      (right : T.verifyChallenge code challenge.hash = some true) :
      Stepped T fields now (.confirm code) { fields with state := .confirmed, challenge := none }
        (.ok { clearChallenge := true })
  | wrong {code : List Char} {challenge : ChallengeLocal}
      (issued : fields.state = .challengeIssued) (known : fields.challenge = some challenge)
      (inTime : challenge.expires.isExpired now.monoMs = false)
      (wrong : T.verifyChallenge code challenge.hash = some false)
      (more : 1 < challenge.attemptsRemaining) :
      Stepped T fields now (.confirm code) { fields with challenge := some { challenge with
          attemptsRemaining := challenge.attemptsRemaining - 1 } } (.ok {})
  | lastWrong {code : List Char} {challenge : ChallengeLocal}
      (issued : fields.state = .challengeIssued) (known : fields.challenge = some challenge)
      (inTime : challenge.expires.isExpired now.monoMs = false)
      (wrong : T.verifyChallenge code challenge.hash = some false)
      (last : challenge.attemptsRemaining ≤ 1) :
      Stepped T fields now (.confirm code) fields.failChallenge.1 fields.failChallenge.2
  | late {code : List Char} {challenge : ChallengeLocal}
      (issued : fields.state = .challengeIssued) (known : fields.challenge = some challenge)
      (expired : challenge.expires.isExpired now.monoMs = true) :
      Stepped T fields now (.confirm code) fields.failChallenge.1 fields.failChallenge.2
  | timedOut (issued : fields.state = .challengeIssued) :
      Stepped T fields now .challengeTimeout fields.failChallenge.1 fields.failChallenge.2
  | started (confirmed : fields.state = .confirmed)
      (left : 0 < fields.passwordAttemptsRemaining) :
      Stepped T fields now .passwordAttemptStart { fields with
          passwordAttemptsRemaining := fields.passwordAttemptsRemaining - 1
          passwordAttemptPending := true } (.ok {})
  | retrieved (confirmed : fields.state = .confirmed) :
      Stepped T fields now .retrievedOk { fields.giveBack with state := .retrieved, rEphSecret := none }
        (.ok { clearREph := true, reachedTerminal := true })
  | failed (confirmed : fields.state = .confirmed)
      (last : fields.passwordAttemptsRemaining = 0) :
      Stepped T fields now .passwordWrong { fields with
          passwordAttemptPending := false
          state := .passwordFailed
          rEphSecret := none } (.ok { clearREph := true, reachedTerminal := true })
  | mistaken (confirmed : fields.state = .confirmed) :
      Stepped T fields now .passwordWrong { fields with passwordAttemptPending := false } (.ok {})
  | returned (confirmed : fields.state = .confirmed) :
      Stepped T fields now .retrievalNetworkFailure fields.giveBack (.ok {})
  | finished {event : IncomingEvent} {state : EnvelopeState}
      (live : fields.state.isTerminal = false) (ends : state.isTerminal = true)
      (kind : event = .senderRevoke ∨ event = .recipientDelete ∨ event = .expiryTick) :
      Stepped T fields now event (fields.finish state).1 (fields.finish state).2

variable {answer : Except Illegal Effects} {fields after : IncomingLocal} {code : List Char} {T : Texts}

theorem stepped_confirm (issued : fields.state = .challengeIssued)
    (result : fields.confirm T code now = some (after, answer)) :
    Stepped T fields now (.confirm code) after answer := by
  unfold IncomingLocal.confirm at result
  split at result
  · cases result
    exact .refused _
  next challenge known =>
  split at result
  next expired =>
    cases result
    exact .late issued known expired
  next inTime =>
  have inTime := Bool.eq_false_of_not_eq_true inTime
  split at result
  · cases result
  next right =>
    cases result
    exact .accepted issued known inTime right
  next wrong =>
    split at result
    next more =>
      cases result
      exact .wrong issued known inTime wrong more
    next last =>
      cases result
      exact .lastWrong issued known inTime wrong (Nat.le_of_not_lt last)

variable {event : IncomingEvent}

theorem stepped (result : fields.step T event now = some (after, answer)) :
    Stepped T fields now event after answer := by
  unfold IncomingLocal.step at result
  split at result
  · split at result
    next replay =>
      cases result
      obtain ⟨rfl, closed⟩ := replay
      exact .replayed closed
    · cases result
      exact .refused _
  next live =>
  have live := Bool.eq_false_of_not_eq_true live
  split at result
  next issued => exact stepped_confirm issued result
  next issued =>
    cases result
    exact .timedOut issued
  next confirmed =>
    split at result
    · cases result
      exact .refused _
    next left =>
      cases result
      exact .started confirmed (Nat.pos_of_ne_zero left)
  next confirmed =>
    cases result
    exact .retrieved confirmed
  next confirmed =>
    split at result
    next last =>
      cases result
      exact .failed confirmed last
    · cases result
      exact .mistaken confirmed
  next confirmed =>
    cases result
    exact .returned confirmed
  · cases result
    exact .finished live rfl (.inl rfl)
  · cases result
    exact .finished live rfl (.inl rfl)
  · cases result
    exact .finished live rfl (.inr (.inl rfl))
  · cases result
    exact .finished live rfl (.inr (.inl rfl))
  · split at result
    · cases result
      exact .refused _
    · cases result
      exact .finished live rfl (.inr (.inr rfl))
  · split at result
    · cases result
      exact .refused _
    · cases result
      exact .finished live rfl (.inr (.inr rfl))
  · cases result
    exact .refused _

/-! ## Runs -/

structure Guesses where
  /-- When a code was accepted. -/
  accepted : Option Nat
  wrongCodes : Nat
  /-- Answers "wrong" to an attempt that was started. -/
  wrongPasswords : Nat
  /-- Attempts started and not answered yet, also those of an earlier process. -/
  outstanding : Nat

def compared (T : Texts) (file : Option IncomingRecord) (event : IncomingEvent) (now : Now) : Option Bool :=
  match event, file.bind localFields with
  | .confirm code, some fields =>
    if fields.state = .challengeIssued then
      fields.challenge.bind (fun challenge =>
        if challenge.expires.isExpired now.monoMs then none
        else T.verifyChallenge code challenge.hash)
    else none
  | _, _ => none

namespace Guesses

variable (guesses : Guesses)

def noteCode (real : Nat) : Option Bool → Guesses
  | some true => { guesses with accepted := some real }
  | some false => { guesses with wrongCodes := guesses.wrongCodes + 1 }
  | none => guesses

def noteAnswer : IncomingEvent → Guesses
  | .passwordAttemptStart => { guesses with outstanding := guesses.outstanding + 1 }
  | .passwordWrong =>
    { guesses with
      wrongPasswords := if 0 < guesses.outstanding then guesses.wrongPasswords + 1
        else guesses.wrongPasswords
      outstanding := guesses.outstanding - 1 }
  | .retrievedOk | .retrievalNetworkFailure =>
    { guesses with outstanding := guesses.outstanding - 1 }
  | _ => guesses

end Guesses

/-- The file of one share, the clocks in milliseconds, and the guesses. -/
structure World where
  file : Option IncomingRecord
  real : Nat
  /-- When the process was started; the monotonic clock counts from here. -/
  base : Nat
  /-- When the challenge was issued. -/
  issued : Nat
  guesses : Guesses

inductive Event where
  | elapse (ms : Nat)
  | restart
  | step (event : IncomingEvent) (wallSecs : Nat)

namespace World

/-- `directed_v2_now`. -/
def now (w : World) (wallSecs : Nat) : Now := ⟨wallSecs, w.real - w.base⟩

/-- The share as the intake of an invite leaves it, in a process that is up for `uptime`. -/
def start (wire : DirectedEnvelope) (sender : PeerId) (hash secret transcript : B32)
    (base uptime wallSecs : Nat) : World :=
  let now : Now := ⟨wallSecs, uptime⟩
  let record := newIncoming wire none sender .v2 (freshChallenge hash now) passwordMaxAttempts (some secret) now
  let pinned := { record with localFields := record.localFields.map (fun fields =>
    { fields with transcriptHash := some transcript }) }
  ⟨some pinned, base + uptime, base, base + uptime, ⟨none, 0, 0, 0⟩⟩

def step (T : Texts) (w : World) : Event → Option World
  | .elapse ms => some { w with real := w.real + ms }
  | .restart => some { w with base := w.real }
  | .step event wallSecs =>
    match stepIncomingV2 T w.file event (w.now wallSecs) with
    | none => some w
    | some (file, answer) =>
      let guesses := w.guesses.noteCode w.real (compared T w.file event (w.now wallSecs))
      some { w with
        file := file
        guesses := match answer with
          | .ok _ => guesses.noteAnswer event
          | .error _ => guesses }

end World

open World

variable {record : IncomingRecord} {challenge : ChallengeLocal}

section Steps

variable {T : Texts} {w next : World} {event : IncomingEvent} {now : Now}

theorem IncomingLocal.step_confirm (issued : fields.state = .challengeIssued) :
    fields.step T (.confirm code) now = fields.confirm T code now := by
  simp [step, issued, EnvelopeState.isTerminal]

theorem compared_of_refused (found : record.localFields = some fields)
    (result : fields.step T event now = some (after, .error .illegal)) :
    compared T (some record) event now = none := by
  cases event with
  | confirm code =>
    simp only [compared, bind_some, found]
    split
    next issued =>
      rw [IncomingLocal.step_confirm issued, IncomingLocal.confirm] at result
      cases known : fields.challenge with
      | none => rfl
      | some challenge =>
        simp only [known] at result
        split at result
        · cases result
        next inTime =>
          simp only [bind_some, inTime, Bool.false_eq_true, if_false]
          cases verified : T.verifyChallenge code challenge.hash with
          | none => rfl
          | some right =>
            cases right <;> simp only [verified] at result
            · split at result <;> cases result
            · cases result
    · rfl
  | _ => rfl

theorem compared_eq (stored : w.file = some record)
    (found : record.localFields = some fields) (issued : fields.state = .challengeIssued)
    (known : fields.challenge = some challenge)
    (inTime : challenge.expires.isExpired now.monoMs = false) :
    compared T w.file (.confirm code) now = T.verifyChallenge code challenge.hash := by
  simp [compared, stored, found, issued, known, inTime]

theorem compared_late (stored : w.file = some record)
    (found : record.localFields = some fields) (issued : fields.state = .challengeIssued)
    (known : fields.challenge = some challenge)
    (expired : challenge.expires.isExpired now.monoMs = true) :
    compared T w.file (.confirm code) now = none := by
  simp [compared, stored, found, issued, known, expired]

end Steps

/-- What a step of the inbox does to the file and to the guesses. -/
inductive Moved (T : Texts) (w : World) (event : IncomingEvent) (wallSecs : Nat) : World → Prop
  | kept : Moved T w event wallSecs w
  | removed {record : IncomingRecord} {fields after : IncomingLocal} {fx : Effects}
      (stored : w.file = some record) (found : record.localFields = some fields)
      (stepped : Stepped T fields (w.now wallSecs) event after (.ok fx)) (gone : fx.deleteFile) :
      Moved T w event wallSecs { w with
        file := none
        guesses := (w.guesses.noteCode w.real (compared T w.file event (w.now wallSecs))).noteAnswer event }
  | written {record : IncomingRecord} {fields after : IncomingLocal} {fx : Effects}
      (stored : w.file = some record) (found : record.localFields = some fields)
      (stepped : Stepped T fields (w.now wallSecs) event after (.ok fx))
      (writes : fx.noWrite = false) (stays : fx.deleteFile = false) :
      Moved T w event wallSecs { w with
        file := some { record with localFields := some after }
        guesses := (w.guesses.noteCode w.real (compared T w.file event (w.now wallSecs))).noteAnswer event }

variable {wallSecs : Nat}

theorem moved (stepped : w.step T (.step event wallSecs) = some next) : Moved T w event wallSecs next := by
  obtain ⟨file, real, base, issued, guesses⟩ := w
  simp only [World.step] at stepped
  cases file with
  | none =>
    have quiet : compared T none event = fun _ => none := by cases event <;> rfl
    simp only [stepIncomingV2, quiet, Guesses.noteCode, some.injEq] at stepped
    cases stepped
    exact .kept
  | some record =>
    cases found : record.localFields with
    | none =>
      have quiet : compared T (some record) event = fun _ => none := by
        funext now
        cases event <;> simp [compared, found]
      simp only [stepIncomingV2, IncomingRecord.step, found, Option.map_some, quiet,
        Guesses.noteCode, some.injEq] at stepped
      cases stepped
      exact .kept
    | some fields =>
      cases result : fields.step T event (now ⟨some record, real, base, issued, guesses⟩ wallSecs) with
      | none =>
        simp only [stepIncomingV2, IncomingRecord.step, found, result, map_none, some.injEq] at stepped
        exact stepped ▸ .kept
      | some pair =>
        obtain ⟨after, answer⟩ := pair
        simp only [stepIncomingV2, IncomingRecord.step, found, result, Option.map_some] at stepped
        cases answer with
        | error reason =>
          simp only [compared_of_refused found result, Guesses.noteCode, some.injEq] at stepped
          cases stepped
          exact .kept
        | ok fx =>
          have does := V2.stepped result
          by_cases quiet : fx.noWrite
          · simp only [quiet, if_true, Option.some.injEq] at stepped
            cases stepped
            cases does with
            | replayed => exact .kept
            | _ => cases quiet
          · simp only [quiet, Bool.false_eq_true, if_false] at stepped
            by_cases gone : fx.deleteFile
            · simp only [gone, if_true, some.injEq] at stepped
              cases stepped
              exact .removed rfl found does gone
            · simp only [gone, Bool.false_eq_true, if_false, some.injEq] at stepped
              cases stepped
              exact .written rfl found does (Bool.eq_false_of_not_eq_true quiet)
                (Bool.eq_false_of_not_eq_true gone)

/-! ## The counters -/

/-- The tries spent on an attempt that is not decided. -/
def IncomingLocal.pendingAttempts (fields : IncomingLocal) : Nat := if fields.passwordAttemptPending then 1 else 0

/-- What holds of the fields of the recipient, given the guesses so far. -/
structure Fits (guesses : Guesses) (fields : IncomingLocal) : Prop where
  challenge : ∀ challenge, fields.challenge = some challenge →
    guesses.wrongCodes + challenge.attemptsRemaining = challengeMaxAttempts ∧ 0 < challenge.attemptsRemaining
  budget : guesses.wrongPasswords + fields.passwordAttemptsRemaining + guesses.outstanding ≤ passwordMaxAttempts
  pending : fields.pendingAttempts ≤ guesses.outstanding
  secret : fields.state.isTerminal = true → fields.rEphSecret = none

structure Counted (w : World) : Prop where
  codes : w.guesses.wrongCodes ≤ challengeMaxAttempts
  passwords : w.guesses.wrongPasswords ≤ passwordMaxAttempts
  fits : ∀ record fields, w.file = some record → record.localFields = some fields → Fits w.guesses fields

section Counters

variable {T : Texts} {w next : World} {guesses : Guesses} {fields after : IncomingLocal}

section

variable (fits : Fits guesses fields)
include fits

theorem Fits.giveBack : Fits { guesses with outstanding := guesses.outstanding - 1 } fields.giveBack := by
  obtain ⟨challenge, budget, pending, secret⟩ := fits
  unfold IncomingLocal.giveBack
  cases attempt : fields.passwordAttemptPending with
  | true =>
    simp only [pendingAttempts, attempt, if_true] at pending
    refine ⟨challenge, ?_, Nat.zero_le _, secret⟩
    simp only [if_true]
    omega
  | false =>
    refine ⟨challenge, ?_, ?_, secret⟩
    · simp only [Bool.false_eq_true, if_false]
      omega
    · simp [pendingAttempts, attempt]

theorem Fits.mistake : Fits (guesses.noteAnswer .passwordWrong) { fields with passwordAttemptPending := false } := by
  obtain ⟨challenge, budget, pending, secret⟩ := fits
  refine ⟨challenge, ?_, Nat.zero_le _, secret⟩
  simp only [Guesses.noteAnswer]
  rcases Nat.eq_zero_or_pos guesses.outstanding with idle | busy
  · simp only [idle, Nat.lt_irrefl, if_false]
    omega
  · simp only [busy, if_true]
    omega

theorem Fits.end {state : EnvelopeState} {challenge : Option ChallengeLocal}
    (kept : challenge = none ∨ challenge = fields.challenge) :
    Fits guesses { fields with state := state, challenge := challenge, rEphSecret := none } := by
  refine ⟨?_, fits.budget, fits.pending, fun _ => rfl⟩
  rcases kept with rfl | rfl
  · intro challenge there
    cases there
  · exact fits.challenge

theorem Fits.passwords_le : guesses.wrongPasswords ≤ passwordMaxAttempts := by
  have := fits.budget
  omega

end

theorem Counted.written (codes : guesses.wrongCodes ≤ challengeMaxAttempts) (fits : Fits guesses after) :
    Counted { w with file := some { record with localFields := some after }, guesses := guesses } := by
  refine ⟨codes, fits.passwords_le, fun stored fields there found => ?_⟩
  cases there
  cases found
  exact fits

theorem Counted.removed (codes : guesses.wrongCodes ≤ challengeMaxAttempts)
    (passwords : guesses.wrongPasswords ≤ passwordMaxAttempts) :
    Counted { w with file := none, guesses := guesses } := by
  refine ⟨codes, passwords, fun _ _ there => ?_⟩
  cases there

theorem Counted.move (counted : Counted w) (moved : Moved T w event wallSecs next) : Counted next := by
  cases moved with
  | kept => exact counted
  | @removed record fields after fx stored found stepped gone =>
    have fits := counted.fits record fields stored found
    cases stepped with
    | @lastWrong code challenge issued known inTime wrong =>
      obtain ⟨sum, left⟩ := fits.challenge challenge known
      rw [compared_eq stored found issued known inTime, wrong]
      refine .removed ?_ counted.passwords
      change w.guesses.wrongCodes + 1 ≤ challengeMaxAttempts
      omega
    | late issued known expired =>
      rw [compared_late stored found issued known expired]
      exact .removed counted.codes counted.passwords
    | timedOut => exact .removed counted.codes counted.passwords
    | _ => cases gone
  | @written record fields after fx stored found stepped writes stays =>
    have fits := counted.fits record fields stored found
    cases stepped with
    | replayed => cases writes
    | lastWrong | late | timedOut => cases stays
    | accepted issued known inTime right =>
      rw [compared_eq stored found issued known inTime, right]
      refine .written counted.codes ⟨fun _ there => ?_, fits.budget, fits.pending, fun terminal => ?_⟩
      · cases there
      · cases terminal
    | @wrong code held issued known inTime wrong =>
      obtain ⟨sum, left⟩ := fits.challenge held known
      rw [compared_eq stored found issued known inTime, wrong]
      refine .written (?_ : w.guesses.wrongCodes + 1 ≤ _) ⟨fun _ there => ?_, fits.budget, fits.pending, fits.secret⟩
      · omega
      cases there
      change w.guesses.wrongCodes + 1 + (held.attemptsRemaining - 1) = _ ∧ 0 < held.attemptsRemaining - 1
      omega
    | started =>
      have budget := fits.budget
      refine .written counted.codes ⟨fits.challenge, ?_, ?_, fits.secret⟩
      · simp only [compared, Guesses.noteCode, Guesses.noteAnswer]
        omega
      · exact Nat.succ_le_succ (Nat.zero_le _)
    | retrieved =>
      exact .written counted.codes (fits.giveBack.end (.inr rfl))
    | failed =>
      exact .written counted.codes (fits.mistake.end (.inr rfl))
    | mistaken => exact .written counted.codes fits.mistake
    | returned => exact .written counted.codes fits.giveBack
    | @finished event state live ends kind =>
      have quiet : (w.guesses.noteCode w.real (compared T w.file event (w.now wallSecs))).noteAnswer
          event = w.guesses := by
        rcases kind with rfl | rfl | rfl <;> rfl
      rw [quiet]
      exact .written counted.codes (fits.end (.inl rfl))

theorem Counted.step {event : Event} (counted : Counted w) (stepped : w.step T event = some next) : Counted next := by
  cases event with
  | elapse | restart =>
    cases stepped
    exact ⟨counted.codes, counted.passwords, counted.fits⟩
  | step => exact counted.move (moved stepped)

end Counters

/-! ## The lifetime of the challenge -/

/-- While the challenge is open, its deadline reads on the clock of this process. -/
structure Dated (w : World) (fields : IncomingLocal) : Prop where
  base : w.base ≤ w.issued
  issued : w.issued ≤ w.real
  deadline : ∀ challenge, fields.challenge = some challenge →
    w.base + challenge.expires.issuedMonoMs = w.issued ∧ challenge.expires.ttlMs = challengeTtlMs

structure InTime (w : World) : Prop where
  dated : ∀ record fields, w.file = some record → record.localFields = some fields →
    fields.state = .challengeIssued → Dated w fields
  accepted : ∀ at_, w.guesses.accepted = some at_ → at_ < w.issued + challengeTtlMs

/-- No restart finds the challenge open. -/
def Steady (w : World) : Event → Prop
  | .restart => ∀ record ∈ w.file, ∀ fields ∈ record.localFields, fields.state ≠ .challengeIssued
  | _ => True

instance (w : World) : (event : Event) → Decidable (Steady w event)
  | .restart => inferInstanceAs (Decidable (∀ _ ∈ _, ∀ _ ∈ _, _))
  | .elapse _ | .step _ _ => .isTrue trivial

section Lifetime

variable {T : Texts} {w next : World} {fields : IncomingLocal}

theorem Dated.lt_deadline (dated : Dated w fields) (known : fields.challenge = some challenge)
    (open_ : challenge.expires.isExpired (w.now wallSecs).monoMs = false) :
    w.real < w.issued + challengeTtlMs := by
  obtain ⟨base, issued, deadline⟩ := dated
  obtain ⟨reads, lasts⟩ := deadline challenge known
  rw [← Bool.not_eq_true, MonoDeadline.isExpired_iff] at open_
  simp only [now] at open_
  omega

theorem InTime.settled {guesses : Guesses} (inTime : InTime w)
    (state : fields.state ≠ .challengeIssued) (same : guesses.accepted = w.guesses.accepted) :
    InTime { w with file := some { record with localFields := some fields }, guesses := guesses } := by
  refine ⟨fun stored fields there found issued => ?_, fun at_ there => ?_⟩
  · cases there
    cases found
    exact absurd issued state
  · exact inTime.accepted at_ (same ▸ there)

theorem InTime.removed {guesses : Guesses} (inTime : InTime w) (same : guesses.accepted = w.guesses.accepted) :
    InTime { w with file := none, guesses := guesses } := by
  refine ⟨fun _ _ there => ?_, fun at_ there => inTime.accepted at_ (same ▸ there)⟩
  cases there

@[simp] theorem IncomingLocal.giveBack_state : fields.giveBack.state = fields.state := by
  unfold IncomingLocal.giveBack
  split <;> rfl

theorem InTime.move (inTime : InTime w) (moved : Moved T w event wallSecs next) : InTime next := by
  cases moved with
  | kept => exact inTime
  | @removed record fields after fx stored found stepped gone =>
    refine inTime.removed ?_
    cases stepped with
    | lastWrong issued known open_ wrong =>
      rw [compared_eq stored found issued known open_, wrong]
      rfl
    | late issued known expired =>
      rw [compared_late stored found issued known expired]
      rfl
    | timedOut => rfl
    | _ => cases gone
  | @written record fields after fx stored found stepped writes stays =>
    cases stepped with
    | replayed => cases writes
    | lastWrong | late | timedOut => cases stays
    | accepted issued known open_ right =>
      have soon := (inTime.dated record fields stored found issued).lt_deadline known open_
      rw [compared_eq stored found issued known open_, right]
      refine ⟨fun _ _ there found issued => ?_, fun at_ there => ?_⟩
      · cases there
        cases found
        cases issued
      · cases there
        exact soon
    | @wrong code challenge issued known open_ wrong =>
      obtain ⟨base, before, deadline⟩ := inTime.dated record fields stored found issued
      rw [compared_eq stored found issued known open_, wrong]
      refine ⟨fun _ _ there found issued => ⟨base, before, fun held here => ?_⟩, inTime.accepted⟩
      cases there
      cases found
      cases here
      exact deadline challenge known
    | started confirmed => exact inTime.settled (by simp [confirmed]) rfl
    | retrieved | failed => exact inTime.settled (by simp) rfl
    | mistaken confirmed | returned confirmed => exact inTime.settled (by simp [confirmed]) rfl
    | @finished event state live ends kind =>
      refine inTime.settled ?_ ?_
      · rintro rfl
        cases ends
      · rcases kind with rfl | rfl | rfl <;> rfl

theorem InTime.step {event : Event} (inTime : InTime w) (steady : Steady w event)
    (stepped : w.step T event = some next) : InTime next := by
  cases event with
  | elapse =>
    cases stepped
    refine ⟨fun record fields stored found issued => ?_, inTime.accepted⟩
    obtain ⟨base, before, deadline⟩ := inTime.dated record fields stored found issued
    exact ⟨base, Nat.le_add_right_of_le before, deadline⟩
  | restart =>
    cases stepped
    refine ⟨fun record fields stored found issued => ?_, inTime.accepted⟩
    exact absurd issued (steady record stored fields found)
  | step => exact inTime.move (moved stepped)

end Lifetime

/-! ## Every run -/

/-- A record in a terminal state stays as it is, and so does one that refuses an event. -/
def Final (T : Texts) (w : World) : Event → Prop
  | .step event wallSecs => ∀ record fields after answer, w.file = some record →
      record.localFields = some fields →
      record.step T event (w.now wallSecs) = some (after, answer) →
      fields.state.isTerminal = true ∨ answer = .error .illegal →
      after = record ∧ ∃ said, stepIncomingV2 T w.file event (w.now wallSecs) = some (w.file, said)
  | _ => True

section Runs

variable {T : Texts} {w next : World}

theorem Stepped.fixed {now : Now} (stepped : Stepped T fields now event after answer)
    (closed : fields.state.isTerminal = true ∨ answer = .error .illegal) :
    after = fields ∧ (answer = .error .illegal ∨ answer = .ok { noWrite := true }) := by
  rcases closed with closed | rfl
  · cases stepped with
    | refused => exact ⟨rfl, .inl rfl⟩
    | replayed => exact ⟨rfl, .inr rfl⟩
    | accepted issued | wrong issued | lastWrong issued | late issued | timedOut issued =>
      rw [issued] at closed
      cases closed
    | started confirmed | retrieved confirmed | failed confirmed | mistaken confirmed
    | returned confirmed =>
      rw [confirmed] at closed
      cases closed
    | finished live => cases live.symm.trans closed
  · cases stepped with
    | refused => exact ⟨rfl, .inl rfl⟩

theorem final (T : Texts) (w : World) (event : Event) : Final T w event := by
  cases event with
  | elapse | restart => trivial
  | step =>
    intro record fields after answer stored found result closed
    have rewritten : ({ record with localFields := some fields } : IncomingRecord) = record := by
      rw [← found]
    simp only [IncomingRecord.step, found, Option.map_eq_some_iff] at result
    obtain ⟨⟨changed, said⟩, stepped, same⟩ := result
    cases same
    obtain ⟨rfl, quiet⟩ := (V2.stepped stepped).fixed closed
    refine ⟨rewritten, ?_⟩
    rcases quiet with rfl | rfl
    · exact ⟨.error .illegal, by simp [stepIncomingV2, IncomingRecord.step, stored, found, stepped]⟩
    · exact ⟨.ok { noWrite := true }, by simp [stepIncomingV2, IncomingRecord.step, stored, found, stepped]⟩

theorem issued_step {event : Event} (stepped : w.step T event = some next) : next.issued = w.issued := by
  cases event with
  | elapse | restart =>
    cases stepped
    rfl
  | step => cases moved stepped <;> rfl

theorem issued_run (ran : run (World.step T) w events = some next) : next.issued = w.issued := by
  induction events generalizing w with
  | nil =>
    cases ran
    rfl
  | cons event events ih =>
    obtain ⟨between, stepped, ran⟩ := bind_eq_some_iff.mp ran
    exact (ih ran).trans (issued_step stepped)

variable (wire : DirectedEnvelope) (sender : PeerId) (hash secret transcript : B32)
  (base uptime wallSecs : Nat)

theorem counted_start : Counted (start wire sender hash secret transcript base uptime wallSecs) := by
  refine ⟨Nat.zero_le _, Nat.zero_le _, fun record fields stored found => ?_⟩
  cases stored
  cases found
  refine ⟨fun challenge known => ?_, Nat.le_refl _, Nat.le_refl _, fun terminal => ?_⟩
  · cases known
    exact ⟨rfl, Nat.succ_pos _⟩
  · cases terminal

theorem inTime_start : InTime (start wire sender hash secret transcript base uptime wallSecs) := by
  refine ⟨fun record fields stored found _ => ?_, fun _ there => by cases there⟩
  cases stored
  cases found
  refine ⟨Nat.le_add_right _ _, Nat.le_refl _, fun challenge known => ?_⟩
  cases known
  exact ⟨rfl, rfl⟩

end Runs

/-- Over every run from the intake of an invite, restarts included: the wrong codes and
passwords stay within their budgets, a record that ended has no secret and stays as it is,
as does one that refuses an event.  If no restart finds the challenge open, a code is
accepted within its lifetime. -/
theorem share_within_limits_of_run (T : Texts) (wire : DirectedEnvelope) (sender : PeerId)
    (hash secret transcript : B32) (base uptime wallSecs : Nat) (events : List Event)
    {last : World}
    (ran : run (World.step T)
      (start wire sender hash secret transcript base uptime wallSecs) events = some last) :
    (last.guesses.wrongCodes ≤ challengeMaxAttempts ∧ last.guesses.wrongPasswords ≤ passwordMaxAttempts ∧
      ∀ record fields, last.file = some record → record.localFields = some fields →
        fields.passwordAttemptsRemaining + fields.pendingAttempts ≤ passwordMaxAttempts ∧
        (fields.state.isTerminal = true → fields.rEphSecret = none)) ∧
    Along (World.step T) (Final T) (start wire sender hash secret transcript base uptime wallSecs) events ∧
    (Along (World.step T) Steady (start wire sender hash secret transcript base uptime wallSecs) events →
      ∀ accepted, last.guesses.accepted = some accepted → accepted < base + uptime + challengeTtlMs) := by
  have counted : Counted last := invariant_of_run (fun counted _ stepped => counted.step stepped)
      (counted_start wire sender hash secret transcript base uptime wallSecs)
      (along_of_forall (fun _ _ _ => trivial) _) ran
  refine ⟨⟨counted.codes, counted.passwords, fun record fields stored found => ?_⟩,
    along_of_forall (fun event _ s => final T s event) _, fun steady accepted there => ?_⟩
  · have fits := counted.fits record fields stored found
    refine ⟨?_, fits.secret⟩
    have budget := fits.budget
    have pending := fits.pending
    omega
  · have inTime : InTime last := invariant_of_run (fun inTime met stepped => inTime.step met stepped)
        (inTime_start wire sender hash secret transcript base uptime wallSecs) steady ran
    have issued : last.issued = base + uptime := issued_run ran
    exact issued ▸ inTime.accepted accepted there

/-! ## On a concrete share -/

namespace Restarted

/-- A share that is taken in when the process is up for a thousand seconds. -/
def start : World := .start envelope sender (packed "2222-2222".toList) (.fill 32 4) (.fill 32 5)
    0 1000000 1000

/-- A wrong code, the right one, a restart, and a wrong password before the right one. -/
def steady : List Event :=
  [.elapse 1000, .step (.confirm "3333-3333".toList) 1001, .step (.confirm "2222-2222".toList) 1001,
    .restart, .step .passwordAttemptStart 1002, .step .passwordWrong 1002,
    .step .passwordAttemptStart 1003, .step .retrievedOk 1003]

/-- The node is restarted while the code is read out. -/
def restarted : List Event := [.restart, .elapse 400000, .step (.confirm "2222-2222".toList) 1400]

end Restarted

open Restarted in
theorem share_within_limits_of_steady : ∃ last, run (World.step recipient.texts) start steady = some last ∧
      last.guesses.wrongCodes = 1 ∧ last.guesses.wrongPasswords = 1 ∧
      ∃ accepted, last.guesses.accepted = some accepted ∧ accepted < 1000000 + challengeTtlMs := by
  have observed : (run (World.step recipient.texts) start steady).any (fun last =>
      last.guesses.wrongCodes = 1 ∧ last.guesses.wrongPasswords = 1 ∧
        last.guesses.accepted = some 1001000) = true := by decide +kernel
  have met : Along (World.step recipient.texts) Steady start steady := by decide +kernel
  obtain ⟨last, ran, codes, passwords, accepted⟩ := exists_of_any observed
  have limits := share_within_limits_of_run recipient.texts _ _ _ _ _ 0 1000000 1000 steady ran
  exact ⟨last, ran, codes, passwords, 1001000, accepted, by
    simpa using limits.2.2 met 1001000 accepted⟩

open Restarted in
/-- The deadline of a process that was up for longer is ahead of the clock of the next
one: a code is accepted a hundred seconds after its lifetime. -/
theorem accepted_after_deadline : ∃ last, run (World.step recipient.texts) start restarted = some last ∧
      last.guesses.accepted = some (last.issued + 400000) ∧ challengeTtlMs < 400000 := by
  have observed : (run (World.step recipient.texts) start restarted).any (fun last =>
      last.guesses.accepted = some (last.issued + 400000)) = true := by decide +kernel
  obtain ⟨last, ran, late⟩ := exists_of_any observed
  exact ⟨last, ran, late, by decide⟩

end Miasma.Directed.V2
