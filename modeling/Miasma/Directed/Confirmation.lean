import Miasma.Directed.Moves

namespace Miasma.Directed

open Data World

/-! The states of a received share.

It is confirmed with the code of the recipient and stays over, unless an envelope is stored as
the sender wrote it or a retrieve command saves what it loaded before. -/

namespace World

def state? (w : World) (id : B32) : Option EnvelopeState := (w.slot id).envelope.map DirectedEnvelope.state

theorem state?_eq_some {w : World} {id : B32} : w.state? id = some state ↔
      ∃ held, (w.slot id).envelope = some held ∧ held.state = state :=
  Option.map_eq_some_iff

end World

/-- The step is a confirmation with the code that the recipient holds, by the peer the
share is bound to, before the challenge expires. -/
def Confirms (R : Recipient) (w : World) (id : B32) (event : Event) : Prop :=
  ∃ peer code now held issued, event = .confirm peer id code now ∧
    (w.slot id).envelope = some held ∧ held.state = .challengeIssued ∧
    (w.slot id).peer = some peer ∧ (w.slot id).code = some issued ∧
    R.texts.verifyChallenge code (R.texts.hash issued) = some true ∧
    held.isChallengeExpired now = false

/-- What a step may do to the state of a share. -/
structure Lawful (R : Recipient) (w : World) (event : Event) : Prop where
  confirms : ∀ next, w.step R event = some next → ∀ id, next.state? id = some .confirmed →
    w.state? id ≠ some .confirmed → Confirms R w id event
  final : ∀ next, w.step R event = some next → ∀ id before after, w.state? id = some before →
    before.isTerminal = true → next.state? id = some after → after.isTerminal = true

/-- An envelope from the mailbox brings neither an open challenge nor a confirmation and does
not reopen a share, a retrieve command with a wrong password and tries left finds the share
still confirmed, and no confirmation comes in the second in which the challenge expires. -/
def Orderly (R : Recipient) (w : World) : Event → Prop
  | .collect envelope =>
    envelope.state ≠ .challengeIssued ∧ envelope.state ≠ .confirmed ∧ ∀ held ∈ (w.slot envelope.envelopeId).envelope,
        held.state.isTerminal = true → envelope.state.isTerminal = true
  | .save n (.ok data) =>
    ∀ retrieval ∈ w.retrievals[n]?, retrieval.opens R.opening data = none →
      1 < retrieval.envelope.passwordAttemptsRemaining →
      w.state? retrieval.envelope.envelopeId = some .confirmed
  | .confirm _ id _ now =>
    ∀ held ∈ (w.slot id).envelope, now ≠ held.challengeExpiresAt
  | _ => True

instance (R : Recipient) (w : World) : (event : Event) → Decidable (Orderly R w event)
  | .collect _ => inferInstanceAs (Decidable (_ ∧ _))
  | .save _ (.ok _) | .confirm .. => inferInstanceAs (Decidable (∀ _ ∈ _, _))
  | .save _ (.error _) | .invite .. | .envelopeReceived .. | .revokeReceived _
  | .senderRevoke .. | .load .. | .revoke _ | .delete _ | .expireAll _ => .isTrue trivial

/-- An open challenge is the one whose code the recipient holds, and a retrieve command
waits with an envelope that was confirmed. -/
structure Coded (R : Recipient) (w : World) : Prop where
  challenges : ∀ id held, (w.slot id).envelope = some held → held.state = .challengeIssued →
    ∃ code, (w.slot id).code = some code ∧ held.challengeHash = some (R.texts.hash code)
  waiting : ∀ retrieval ∈ w.retrievals, retrieval.envelope.state = .confirmed

theorem DirectedEnvelope.spendPassword_state (envelope : DirectedEnvelope) :
    envelope.spendPassword.state = .passwordFailed ∧ envelope.spendPassword.passwordAttemptsRemaining = 0 ∨
      envelope.spendPassword.state = envelope.state ∧ 1 < envelope.passwordAttemptsRemaining := by
  by_cases last : envelope.passwordAttemptsRemaining - 1 = 0
  · exact .inl ⟨if_pos last, last⟩
  · exact .inr ⟨if_neg last, by omega⟩

theorem DirectedEnvelope.spendCode_state (envelope : DirectedEnvelope) : envelope.spendCode.state = .challengeFailed ∧
        envelope.spendCode.challengeAttemptsRemaining = 0 ∨
      envelope.spendCode.state = envelope.state ∧ envelope.spendCode.challengeAttemptsRemaining ≠ 0 := by
  by_cases last : envelope.challengeAttemptsRemaining - 1 = 0
  · exact .inl ⟨if_pos last, last⟩
  · exact .inr ⟨if_neg last, last⟩

section Laws

variable {R : Recipient} {w next : World} {event : Event}

theorem Coded.step (coded : Coded R w) (orderly : Orderly R w event)
    (stepped : w.step R event = some next) : Coded R next := by
  refine ⟨fun id held stored issued => ?_, fun retrieval member => ?_⟩
  · obtain ⟨_, _, moves, -, -⟩ := moves_of_step stepped id
    generalize next.slot id = slot at moves stored ⊢
    cases moves with
    | kept => exact coded.challenges id held stored issued
    | bound _ _ _ absent => simp [absent] at stored
    | received =>
      cases stored
      exact ⟨_, rfl, rfl⟩
    | collected =>
      cases stored
      exact absurd issued orderly.1
    | right => cases stored; cases issued
    | @wrong _ _ _ envelope compared =>
      cases stored
      obtain ⟨code, known, hashed⟩ := coded.challenges id envelope compared.stored compared.issued
      rcases envelope.spendCode_state with ⟨spent, -⟩ | ⟨-, left⟩
      · simp [spent] at issued
      · exact ⟨code, by simpa [left] using known, hashed⟩
    | ended _ state _ _ _ ends =>
      cases stored
      have state : state = .challengeIssued := issued
      simp [state, EnvelopeState.isTerminal] at ends
    | tidied _ _ found terminal =>
      rw [found] at stored
      cases stored
      simp [issued, EnvelopeState.isTerminal] at terminal
    | overridden => cases stored; cases issued
    | retrieved _ _ _ saved =>
      rcases saved with saved | ⟨-, absent⟩
      · cases stored.symm.trans saved
        cases issued
      · simp [absent] at stored
    | @failed _ _ retrieval _ _ waiting _ _ saved =>
      rcases saved with saved | ⟨-, absent⟩
      · cases stored.symm.trans saved
        have confirmed := coded.waiting retrieval (List.mem_of_getElem? waiting)
        rcases retrieval.envelope.spendPassword_state with ⟨spent, -⟩ | ⟨same, -⟩
        · simp [spent] at issued
        · simp [same, confirmed] at issued
      · simp [absent] at stored
    | deleted => simp at stored
  · rcases retrievals_of_step stepped retrieval member with old | ⟨confirmed, -⟩
    · exact coded.waiting retrieval old
    · exact confirmed

theorem Coded.confirms (coded : Coded R w) (orderly : Orderly R w event)
    (stepped : w.step R event = some next) {id : B32}
    (after : next.state? id = some .confirmed) (before : w.state? id ≠ some .confirmed) :
    Confirms R w id event := by
  obtain ⟨held, stored, confirmed⟩ := state?_eq_some.mp after
  obtain ⟨_, _, moves, -, -⟩ := moves_of_step stepped id
  generalize next.slot id = slot at moves stored
  have fresh : ∀ held, (w.slot id).envelope = some held → held.state ≠ .confirmed :=
    fun held found same => before (state?_eq_some.mpr ⟨held, found, same⟩)
  cases moves with
  | kept => exact absurd confirmed (fresh held stored)
  | bound _ _ _ absent => simp [absent] at stored
  | received => cases stored; cases confirmed
  | collected =>
    cases stored
    exact absurd confirmed orderly.2.1
  | @right peer code now envelope compared =>
    obtain ⟨issued, known, hashed⟩ := coded.challenges id envelope compared.stored compared.issued
    obtain ⟨hash, same, verified⟩ := compared.compared
    rw [hashed] at same
    cases same
    have different := orderly envelope compared.stored
    have inTime := compared.inTime
    refine ⟨peer, code, now, envelope, issued, rfl, compared.stored, compared.issued,
      compared.bound, known, verified, ?_⟩
    simp only [DirectedEnvelope.isChallengeExpired, Bool.and_eq_false_iff, decide_eq_false_iff_not]
    exact .inr (by omega)
  | @wrong _ _ _ envelope compared =>
    cases stored
    rcases envelope.spendCode_state with ⟨spent, -⟩ | ⟨same, -⟩
    · simp [spent] at confirmed
    · simp [same, compared.issued] at confirmed
  | ended _ state _ _ _ ends =>
    cases stored
    have state : state = .confirmed := confirmed
    simp [state, EnvelopeState.isTerminal] at ends
  | tidied => exact absurd confirmed (fresh held stored)
  | overridden => cases stored; cases confirmed
  | retrieved _ _ _ saved =>
    rcases saved with saved | ⟨-, absent⟩
    · cases stored.symm.trans saved
      cases confirmed
    · simp [absent] at stored
  | @failed _ _ retrieval _ _ waiting here closed saved =>
    rcases saved with saved | ⟨-, absent⟩
    · cases stored.symm.trans saved
      rcases retrieval.envelope.spendPassword_state with ⟨spent, -⟩ | ⟨-, left⟩
      · simp [spent] at confirmed
      · exact absurd (here ▸ orderly retrieval waiting closed left) before
    · simp [absent] at stored
  | deleted => simp at stored

theorem Orderly.final (orderly : Orderly R w event) (stepped : w.step R event = some next) {id : B32}
    (earlier : w.state? id = some before) (spent : before.isTerminal = true)
    (later : next.state? id = some after) : after.isTerminal = true := by
  obtain ⟨old, found, rfl⟩ := state?_eq_some.mp earlier
  obtain ⟨held, stored, rfl⟩ := state?_eq_some.mp later
  obtain ⟨_, _, moves, -, -⟩ := moves_of_step stepped id
  generalize next.slot id = slot at moves stored
  have live {held : DirectedEnvelope} (there : (w.slot id).envelope = some held)
      (open' : held.state.isTerminal = false) : False := by
    cases found.symm.trans there
    simp [open'] at spent
  cases moves with
  | kept => cases found.symm.trans stored; exact spent
  | bound _ _ _ absent | received _ absent => simp [absent] at found
  | collected here =>
    cases stored
    exact orderly.2.2 old (here ▸ found) spent
  | right compared | wrong compared => exact (live compared.stored (compared.issued ▸ rfl)).elim
  | ended _ _ _ there open' => exact (live there open').elim
  | tidied => cases found.symm.trans stored; exact spent
  | overridden => cases stored; rfl
  | retrieved _ _ _ saved =>
    rcases saved with saved | ⟨absent, -⟩
    · cases stored.symm.trans saved
      rfl
    · simp [absent] at found
  | @failed _ _ retrieval _ _ waiting here closed saved =>
    rcases saved with saved | ⟨absent, -⟩
    · cases stored.symm.trans saved
      rcases retrieval.envelope.spendPassword_state with ⟨ended, -⟩ | ⟨-, left⟩
      · rw [ended]
        rfl
      · obtain ⟨held, there, confirmed⟩ := state?_eq_some.mp (here ▸ orderly retrieval waiting closed left)
        exact (live there (confirmed ▸ rfl)).elim
    · simp [absent] at found
  | deleted => simp at stored

theorem Coded.lawful (coded : Coded R w) (orderly : Orderly R w event) : Lawful R w event :=
  ⟨fun _ stepped _ after before => coded.confirms orderly stepped after before,
    fun _ stepped _ _ _ earlier spent later => orderly.final stepped earlier spent later⟩

theorem coded_empty : Coded R .empty :=
  ⟨fun _ _ stored => by simp [slot, empty, DirectedInbox.empty, DirectedInbox.slot] at stored,
    fun _ member => by simp [empty] at member⟩

end Laws

/-- Every step of a run of orderly steps, from an empty inbox, is lawful. -/
theorem recipient_lawful_of_orderly (R : Recipient) (events : List Event)
    (orderly : Along (step R) (Orderly R) .empty events) :
    Along (step R) (Lawful R) .empty events :=
  along_of_invariant (fun coded met stepped => coded.step met stepped)
    (fun coded met => coded.lawful met) coded_empty orderly

/-! ## On concrete shares -/

namespace Shares

/-- The libraries as simple functions: the hash packs the characters, a password is the
key of the content that begins with it. -/
def packed (text : List Char) : B32 :=
  ⟨toBE 32 (text.foldl (fun sum c => (sum * 257 + c.toNat) % 2 ^ 61) 0), length_toBE 32 _⟩

def recipient : Recipient where
  node := ⟨some (.fill 32 2), true, true⟩
  sharingPubkey := .fill 32 2
  texts := ⟨id, List.map Char.toUpper, Char.isAlphanum, packed⟩
  opening := {
    decryptEnvelopePayload := fun _ => .ok ⟨[], 10, 20, .fill 24 0, none, 1⟩
    deriveContentKey := fun _ password => .ok (packed password)
    contentId := fun _ => .ok (.fill 32 9)
    decryptDirectedContent := fun key _ data => if data = key.toList then some [1] else none }

def id : B32 := .fill 32 7

def sender : PeerId := ⟨[1]⟩

def envelope : DirectedEnvelope where
  envelopeId := id
  version := 1
  senderPubkey := .fill 32 1
  recipientPubkey := .fill 32 2
  ephemeralPubkey := .fill 32 3
  encryptedPayload := []
  payloadNonce := .fill 24 0
  passwordSalt := .fill 32 0
  expiresAt := 5000
  createdAt := 1000
  state := .pending
  challengeHash := none
  passwordAttemptsRemaining := 3
  challengeAttemptsRemaining := 3
  challengeExpiresAt := 0
  retentionSecs := 4000

def draws : Draws := Code.draws

def content : Except String Bytes := .ok (packed "right".toList).toList

def accepted : List Event := [.invite sender envelope 1000 (.ok ()), .envelopeReceived sender envelope draws 1001,
    .confirm sender id "2222-2222".toList 1100]

/-- A wrong password, then the right one, then a late revocation. -/
def calm : List Event := accepted ++ [.load id "wrong".toList 1200, .save 0 content, .load id "right".toList 1201,
    .save 0 content, .senderRevoke sender id]

/-- The sender revokes while a wrong password waits for the content. -/
def raced : List Event := accepted ++ [.load id "wrong".toList 1200, .senderRevoke sender id]

/-- The right code when the challenge has expired. -/
def lastSecond : Event := .confirm sender id "2222-2222".toList 1301

/-- The envelope with the state its sender would like. -/
def forged : DirectedEnvelope := { envelope with state := .confirmed }

end Shares

open Shares

open Shares in
theorem recipient_lawful_of_calm : ∃ last, run (step recipient) .empty calm = some last ∧
      last.state? id = some .retrieved ∧
      Along (step recipient) (Lawful recipient) .empty calm := by
  have orderly : Along (step recipient) (Orderly recipient) .empty calm := by decide +kernel
  have observed : (run (step recipient) .empty calm).any
      (·.state? id = some .retrieved) = true := by decide +kernel
  obtain ⟨last, ran, retrieved⟩ := exists_of_any observed
  exact ⟨last, ran, retrieved, recipient_lawful_of_orderly recipient calm orderly⟩

open Shares in
/-- An invite from the mailbox is stored as confirmed, a revoked share is confirmed again by the
save of a command under way, and a code is accepted in the second in which the challenge has
expired. -/
theorem confirmed_without_code : (∃ next, empty.step recipient (.collect forged) = some next ∧
      next.state? id = some .confirmed ∧ ¬ Lawful recipient .empty (.collect forged)) ∧
    (∃ before after, run (step recipient) .empty raced = some before ∧
      before.step recipient (.save 0 content) = some after ∧
      before.state? id = some .senderRevoked ∧
      after.state? id = some .confirmed ∧
      ¬ Lawful recipient before (.save 0 content)) ∧
    (∃ before after, run (step recipient) .empty (accepted.take 2) = some before ∧
      before.step recipient lastSecond = some after ∧
      (before.slot id).envelope.any (·.isChallengeExpired 1301) ∧
      after.state? id = some .confirmed ∧ ¬ Lawful recipient before lastSecond) := by
  refine ⟨?_, ?_, ?_⟩
  · have stored : (empty.step recipient (.collect forged)).any
        (·.state? id = some .confirmed) = true := by decide +kernel
    obtain ⟨next, stepped, confirmed⟩ := (Option.any_eq_true _ _).mp stored
    refine ⟨next, stepped, of_decide_eq_true confirmed, fun lawful => ?_⟩
    obtain ⟨_, _, _, _, _, event, _⟩ :=
      lawful.confirms next stepped id (of_decide_eq_true confirmed) (by decide +kernel)
    cases event
  · have observed : (run (step recipient) .empty raced).any (fun before =>
        before.state? id = some .senderRevoked ∧ (before.step recipient (.save 0 content)).any
            (·.state? id = some .confirmed)) = true := by decide +kernel
    obtain ⟨before, ran, both⟩ := (Option.any_eq_true _ _).mp observed
    obtain ⟨revoked, reopened⟩ := of_decide_eq_true both
    obtain ⟨after, stepped, confirmed⟩ := (Option.any_eq_true _ _).mp reopened
    have confirmed := of_decide_eq_true confirmed
    refine ⟨before, after, ran, stepped, revoked, confirmed, fun lawful => ?_⟩
    exact absurd (lawful.final after stepped id _ _ revoked rfl confirmed) (by decide)
  · have observed : (run (step recipient) .empty (accepted.take 2)).any (fun before =>
        (before.slot id).envelope.any (·.isChallengeExpired 1301) ∧
          before.state? id ≠ some .confirmed ∧
          (before.step recipient lastSecond).any
            (·.state? id = some .confirmed)) = true := by decide +kernel
    obtain ⟨before, ran, expired, fresh, accepts⟩ := exists_of_any observed
    obtain ⟨after, stepped, confirmed⟩ := (Option.any_eq_true _ _).mp accepts
    have confirmed := of_decide_eq_true confirmed
    refine ⟨before, after, ran, stepped, expired, confirmed, fun lawful => ?_⟩
    obtain ⟨_, _, now, held, _, event, stored, _, _, _, _, inTime⟩ :=
      lawful.confirms after stepped id confirmed fresh
    cases event
    simp [stored, inTime] at expired

end Miasma.Directed
