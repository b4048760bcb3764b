import Miasma.Directed.Confirmation

namespace Miasma.Directed

open Data Shares World

/-! The guesses a share allows: three wrong codes and three wrong passwords, as long as no step
writes an envelope with other counters. -/

/-- The guesses tested against a share, and that the last one locks it. -/
structure Budgeted (w : World) (id : B32) : Prop where
  codes : w.wrongCodes id ≤ challengeMaxAttempts
  passwords : w.wrongPasswords id ≤ passwordMaxAttempts
  codesLock : w.wrongCodes id = challengeMaxAttempts → w.state? id = some .challengeFailed
  passwordsLock : w.wrongPasswords id = passwordMaxAttempts → w.state? id = some .passwordFailed

/-- An envelope from the mailbox is neither open nor confirmed and does not replace a locked
share, and a retrieve command saves over the envelope that it loaded.  A share is not deleted
in between. -/
def Serial (w : World) : Event → Prop
  | .collect envelope =>
    envelope.state ≠ .challengeIssued ∧ envelope.state ≠ .confirmed ∧ ∀ held ∈ (w.slot envelope.envelopeId).envelope,
        held.state ≠ .challengeFailed ∧ held.state ≠ .passwordFailed
  | .save n (.ok _) =>
    ∀ retrieval ∈ w.retrievals[n]?, (w.slot retrieval.envelope.envelopeId).envelope = some retrieval.envelope
  | .delete _ | .revokeReceived _ => False
  | _ => True

instance (w : World) : (event : Event) → Decidable (Serial w event)
  | .collect _ => inferInstanceAs (Decidable (_ ∧ _))
  | .save _ (.ok _) => inferInstanceAs (Decidable (∀ _ ∈ _, _))
  | .delete _ | .revokeReceived _ => .isFalse id
  | .save _ (.error _) | .invite .. | .envelopeReceived .. | .confirm .. | .senderRevoke ..
  | .load .. | .revoke _ | .expireAll _ => .isTrue trivial

/-- What the stored envelope says about the guesses so far. -/
def Tally (stored : Option DirectedEnvelope) (codes passwords : Nat) : Prop := match stored with
  | none => codes = 0 ∧ passwords = 0
  | some held =>
    match held.state with
    | .challengeIssued => passwords = 0 ∧ held.passwordAttemptsRemaining = passwordMaxAttempts ∧
        codes + held.challengeAttemptsRemaining = challengeMaxAttempts ∧
        0 < held.challengeAttemptsRemaining
    | .confirmed => codes < challengeMaxAttempts ∧ 0 < held.passwordAttemptsRemaining ∧
        passwords + held.passwordAttemptsRemaining = passwordMaxAttempts
    | .challengeFailed => codes ≤ challengeMaxAttempts ∧ passwords < passwordMaxAttempts
    | .passwordFailed => codes < challengeMaxAttempts ∧ passwords ≤ passwordMaxAttempts
    | _ => codes < challengeMaxAttempts ∧ passwords < passwordMaxAttempts

namespace Tally

variable {stored : Option DirectedEnvelope} {held : DirectedEnvelope} {codes passwords : Nat}

theorem left (tally : Tally stored codes passwords)
    (unlocked : ∀ held ∈ stored, held.state ≠ .challengeFailed ∧ held.state ≠ .passwordFailed) :
    codes < challengeMaxAttempts ∧ passwords < passwordMaxAttempts := by
  cases stored with
  | none =>
    obtain ⟨rfl, rfl⟩ := tally
    decide
  | some held =>
    obtain ⟨notCode, notPassword⟩ := unlocked held rfl
    cases state : held.state <;> simp only [Tally, state] at tally
    case challengeFailed => exact absurd state notCode
    case passwordFailed => exact absurd state notPassword
    case challengeIssued =>
      simp only [challengeMaxAttempts, passwordMaxAttempts] at tally ⊢
      omega
    case confirmed =>
      omega
    all_goals exact tally

theorem settled (left : codes < challengeMaxAttempts ∧ passwords < passwordMaxAttempts)
    (closed : held.state ≠ .challengeIssued) (unconfirmed : held.state ≠ .confirmed) :
    Tally (some held) codes passwords := by
  obtain ⟨codesLeft, passwordsLeft⟩ := left
  cases state : held.state <;> simp only [Tally, state]
  case challengeIssued => exact absurd state closed
  case confirmed => exact absurd state unconfirmed
  case challengeFailed => exact ⟨codesLeft.le, passwordsLeft⟩
  case passwordFailed => exact ⟨codesLeft, passwordsLeft.le⟩
  all_goals exact ⟨codesLeft, passwordsLeft⟩

section

variable (tally : Tally (some held) codes passwords)
include tally

theorem issued (state : held.state = .challengeIssued) :
    passwords = 0 ∧ held.passwordAttemptsRemaining = passwordMaxAttempts ∧
      codes + held.challengeAttemptsRemaining = challengeMaxAttempts ∧
      0 < held.challengeAttemptsRemaining := by
  simpa only [Tally, state] using tally

theorem confirmed (state : held.state = .confirmed) :
    codes < challengeMaxAttempts ∧ 0 < held.passwordAttemptsRemaining ∧
      passwords + held.passwordAttemptsRemaining = passwordMaxAttempts := by
  simpa only [Tally, state] using tally

theorem spendCode (state : held.state = .challengeIssued) : Tally (some held.spendCode) (codes + 1) passwords := by
  obtain ⟨untried, passwordsLeft, sum, left⟩ := tally.issued state
  have remaining : held.spendCode.challengeAttemptsRemaining = held.challengeAttemptsRemaining - 1 := rfl
  have kept : held.spendCode.passwordAttemptsRemaining = held.passwordAttemptsRemaining := rfl
  rcases held.spendCode_state with ⟨spent, -⟩ | ⟨same, more⟩
  · simp only [Tally, spent]
    simp only [challengeMaxAttempts, passwordMaxAttempts] at *
    omega
  · simp only [Tally, same, state]
    omega

theorem spendPassword (state : held.state = .confirmed) : Tally (some held.spendPassword) codes (passwords + 1) := by
  obtain ⟨codesLeft, left, sum⟩ := tally.confirmed state
  have remaining : held.spendPassword.passwordAttemptsRemaining = held.passwordAttemptsRemaining - 1 := rfl
  rcases held.spendPassword_state with ⟨spent, -⟩ | ⟨same, more⟩
  · simp only [Tally, spent]
    omega
  · simp only [Tally, same, state]
    omega

theorem bounds : codes ≤ challengeMaxAttempts ∧ passwords ≤ passwordMaxAttempts ∧
      (codes = challengeMaxAttempts → held.state = .challengeFailed) ∧
      (passwords = passwordMaxAttempts → held.state = .passwordFailed) := by
  by_cases code : held.state = .challengeFailed
  · simp only [Tally, code] at tally
    exact ⟨tally.1, tally.2.le, fun _ => code, fun used => by omega⟩
  by_cases password : held.state = .passwordFailed
  · simp only [Tally, password] at tally
    exact ⟨tally.1.le, tally.2, fun used => by omega, fun _ => password⟩
  obtain ⟨codesLeft, passwordsLeft⟩ := tally.left (fun _ there => by
    cases there
    exact ⟨code, password⟩)
  exact ⟨codesLeft.le, passwordsLeft.le, fun used => by omega, fun used => by omega⟩

end

end Tally

/-- The counters of every stored envelope account for the guesses. -/
structure Tallied (w : World) : Prop where
  tally : ∀ id, Tally (w.slot id).envelope (w.wrongCodes id) (w.wrongPasswords id)
  waiting : ∀ retrieval ∈ w.retrievals, retrieval.envelope.state = .confirmed

section Budgets

variable {R : Recipient} {w next : World} {event : Event}

theorem Tallied.step (tallied : Tallied w) (serial : Serial w event)
    (stepped : w.step R event = some next) : Tallied next := by
  refine ⟨fun id => ?_, fun retrieval member => ?_⟩
  · obtain ⟨codes, passwords, moves, codesCount, passwordsCount⟩ := moves_of_step stepped id
    rw [codesCount, passwordsCount]
    have tally := tallied.tally id
    generalize next.slot id = slot at moves
    cases moves with
    | kept | bound => exact tally
    | received _ absent =>
      rw [absent] at tally
      obtain ⟨noCodes, noPasswords⟩ := tally
      rw [noCodes, noPasswords]
      simp only [Tally, DirectedEnvelope.issue]
      decide
    | collected here =>
      subst here
      exact .settled (tally.left serial.2.2) serial.1 serial.2.1
    | @right _ _ _ envelope compared =>
      rw [compared.stored] at tally
      obtain ⟨untried, passwordsLeft, sum, left⟩ := tally.issued compared.issued
      have kept : (envelope.setState .confirmed).passwordAttemptsRemaining = envelope.passwordAttemptsRemaining := rfl
      simp only [Tally, DirectedEnvelope.setState_state, kept]
      simp only [challengeMaxAttempts, passwordMaxAttempts] at *
      omega
    | wrong compared =>
      rw [compared.stored] at tally
      exact tally.spendCode compared.issued
    | ended _ state _ stored live =>
      have left := tally.left (fun held there => by
        rw [stored] at there
        cases there
        constructor <;> (intro spent; simp [spent, EnvelopeState.isTerminal] at live))
      exact .settled left (fun same => by simp_all [EnvelopeState.isTerminal])
        (fun same => by simp_all [EnvelopeState.isTerminal])
    | tidied => exact tally
    | overridden => exact serial.elim
    | @retrieved _ _ retrieval _ waiting here _ saved =>
      subst here
      have stored := serial retrieval waiting
      have confirmed := tallied.waiting retrieval (List.mem_of_getElem? waiting)
      rcases saved with saved | ⟨absent, -⟩
      · rw [stored] at tally
        obtain ⟨codesLeft, left, sum⟩ := tally.confirmed confirmed
        subst saved
        exact .settled ⟨codesLeft, by omega⟩ (by simp) (by simp)
      · simp [stored] at absent
    | @failed _ _ retrieval _ _ waiting here _ saved =>
      subst here
      have stored := serial retrieval waiting
      have confirmed := tallied.waiting retrieval (List.mem_of_getElem? waiting)
      rcases saved with saved | ⟨absent, -⟩
      · rw [stored] at tally
        subst saved
        exact tally.spendPassword confirmed
      · simp [stored] at absent
    | deleted => exact serial.elim
  · rcases retrievals_of_step stepped retrieval member with old | ⟨confirmed, -⟩
    · exact tallied.waiting retrieval old
    · exact confirmed

theorem Tallied.budgeted (tallied : Tallied w) {id : B32} : Budgeted w id := by
  have tally := tallied.tally id
  cases stored : (w.slot id).envelope with
  | none =>
    rw [stored] at tally
    obtain ⟨noCodes, noPasswords⟩ := tally
    constructor <;> simp [noCodes, noPasswords, challengeMaxAttempts, passwordMaxAttempts]
  | some held =>
    rw [stored] at tally
    have found : w.state? id = some held.state := by simp [state?, stored]
    obtain ⟨codes, passwords, codesLock, passwordsLock⟩ := tally.bounds
    exact ⟨codes, passwords, fun used => found.trans (congrArg some (codesLock used)),
      fun used => found.trans (congrArg some (passwordsLock used))⟩

end Budgets

/-- In every run of serial steps, from an empty inbox, no share is guessed at more often
than its budgets allow. -/
theorem guesses_within_budget_of_serial (R : Recipient) (events : List Event) (last : World)
    (serial : Along (step R) Serial .empty events)
    (ran : run (step R) .empty events = some last) (id : B32) : Budgeted last id := by
  have start : Tallied .empty := ⟨fun _ => ⟨rfl, rfl⟩, fun _ member => by simp [empty] at member⟩
  exact (invariant_of_run Tallied.step start serial ran).budgeted

open Shares in
theorem guesses_within_budget_of_calm : ∃ last, run (step recipient) .empty calm = some last ∧
      last.wrongPasswords id = 1 ∧ Budgeted last id := by
  have serial : Along (step recipient) Serial .empty calm := by decide +kernel
  have observed : (run (step recipient) .empty calm).any
      (·.wrongPasswords id = 1) = true := by decide +kernel
  obtain ⟨last, ran, one⟩ := exists_of_any observed
  exact ⟨last, ran, one, guesses_within_budget_of_serial recipient calm last serial ran id⟩

namespace Shares

/-- Four wrong passwords, each loaded before the first is counted. -/
def overlapping : List Event := accepted ++ List.replicate 4 (.load id "wrong".toList 1200) ++
    List.replicate 4 (.save 0 content)

/-- One wrong password after the other, with the same invite collected again after two. -/
def renewed : List Event :=
  let guess : List Event := [.load id "wrong".toList 1200, .save 0 content]
  accepted ++ guess ++ guess ++ [.collect forged] ++ guess ++ guess

end Shares

open Shares in
/-- Four wrong passwords are tested and the share is still open. -/
theorem fourth_password_tested : (∃ last, run (step recipient) .empty overlapping = some last ∧
      last.wrongPasswords id = 4 ∧ last.state? id = some .confirmed ∧
      ¬ Budgeted last id) ∧
    (∃ last, run (step recipient) .empty renewed = some last ∧
      last.wrongPasswords id = 4 ∧ last.state? id = some .confirmed ∧
      ¬ Budgeted last id) := by
  have beyond {events : List Event} (observed : (run (step recipient) .empty events).any
      (fun last => last.wrongPasswords id = 4 ∧ last.state? id = some .confirmed) = true) :
      ∃ last, run (step recipient) .empty events = some last ∧
        last.wrongPasswords id = 4 ∧ last.state? id = some .confirmed ∧
        ¬ Budgeted last id := by
    obtain ⟨last, ran, four, confirmed⟩ := exists_of_any observed
    refine ⟨last, ran, four, confirmed, fun budgeted => ?_⟩
    have bound := budgeted.passwords
    rw [four] at bound
    exact absurd bound (by decide)
  exact ⟨beyond (by decide +kernel), beyond (by decide +kernel)⟩

end Miasma.Directed
