import Miasma.Transfer.Prepare

namespace Miasma.Transfer

open Data Dissolution Network

/-! Reading the signed record of a transfer from its endpoints (`transfer/direct.rs`,
`open_signed_record` in `transfer/manifest.rs`, `network/sybil.rs`). -/

structure SignedDhtRecord where
  key : Bytes
  value : Bytes
  signerPubkey : B32
  signature : Bytes

inductive DecodedManifest where
  | v3 (m : TransferManifest)
  | v4 (m : ManifestV4)

def DecodedManifest.publisher : DecodedManifest → B32
  | .v3 m => m.publisher
  | .v4 m => m.publisher

/-- A record that passed every check, with its manifest of either version. -/
structure FetchedRecord where
  record : DhtRecord
  manifest : Option DecodedManifest
  signer : B32

/-- What an envelope is opened with: `bincode`, `blake3`, `ed25519_dalek`, and the reader of
the value inside. -/
structure RecordFormat where
  deserialize : Bytes → Option SignedDhtRecord
  blake3 : Bytes → B32
  keyParses : B32 → Bool
  verify : B32 → B32 → ByteVec 64 → Bool
  decodeRecordValueAny : Bytes → Except String (DhtRecord × Option DecodedManifest)

inductive SignedRecordError where
  | malformed
  | badSignature
  | wrongSigner
  | invalidInner (reason : String)
  | innerMidMismatch
  | manifestPublisher

/-- The text of a record that does not validate, without its kind. -/
def innerMessage : MiasmaError → String
  | .invalidManifest reason => reason
  | _ => ""

def recordRefusal : SignedRecordError → MiasmaError
  | .wrongSigner => .shareMismatch ShareMismatch.wrongSigner.text
  | .invalidInner reason => .invalidManifest reason
  | .innerMidMismatch => .invalidMid "the endpoint answered with a record for a different MID"
  | .manifestPublisher =>
    .invalidManifest "the manifest names a different publisher than the one that signed the record"
  | .malformed | .badSignature => .network ("the endpoint answered with a record that is not validly " ++
      "signed (is it running the same Miasma version?)")

structure EndpointError where
  message : String
  permanent : Bool

abbrev RecordEndpoint := Nat → Except EndpointError (Option Bytes)

structure Round where
  allAnswered : Bool := true
  refused : Option MiasmaError := none
  lastTransient : Option EndpointError

def recordAttempts : Nat := 4

namespace RecordFormat

variable (F : RecordFormat) (mid : B32) (expectedSigner : Option B32)

def signingMessage (key value : Bytes) (signer : B32) : B32 :=
  F.blake3 (utf8 "miasma-v1-dht-record-sig" ++ key ++ value ++ signer.toList)

def verifySignature (signed : SignedDhtRecord) : Bool :=
  F.keyParses signed.signerPubkey && (ByteVec.ofList? 64 signed.signature).any
    (F.verify signed.signerPubkey (F.signingMessage signed.key signed.value signed.signerPubkey))

def openSignedRecord (envelope : Bytes) : Except SignedRecordError FetchedRecord :=
  match F.deserialize envelope with
  | none => .error .malformed
  | some signed =>
    -- `verify_for_key`, and `verify_for_key_and_signer` where a signer is expected.
    if signed.key ≠ mid.toList ∨ F.verifySignature signed = false then .error .badSignature
    else if expectedSigner.any (· ≠ signed.signerPubkey) then .error .wrongSigner
    else
      match F.decodeRecordValueAny signed.value with
      | .error reason => .error (.invalidInner reason)
      | .ok (record, decoded) =>
        if record.midDigest ≠ mid then .error .innerMidMismatch
        else
          match record.validate with
          | .error e => .error (.invalidInner (innerMessage e))
          | .ok () =>
            if decoded.any (·.publisher ≠ signed.signerPubkey) then .error .manifestPublisher
            else .ok ⟨record, decoded, signed.signerPubkey⟩

/-- One round: a result that ends the fetch, or what was seen. -/
def askEach (attempt : Nat) : List RecordEndpoint → Round → Except MiasmaError FetchedRecord ⊕ Round
  | [], round => .inr round
  | endpoint :: rest, round =>
    match endpoint attempt with
    | .ok (some envelope) =>
      match F.openSignedRecord mid expectedSigner envelope with
      | .ok found => .inl (.ok found)
      | .error e => askEach attempt rest { round with refused := round.refused.or (some (recordRefusal e)) }
    | .ok none => askEach attempt rest round
    | .error e =>
      if e.permanent then .inl (.error (.network e.message))
      else askEach attempt rest { round with allAnswered := false, lastTransient := some e }

/-- The rounds from `attempt` on, of which there are `left`. -/
def fetchRounds (endpoints : List RecordEndpoint) : Nat → Nat → Option EndpointError →
    Except MiasmaError FetchedRecord
  | 0, _, last => .error (last.elim (.network "no endpoint could be reached") fun e => .network e.message)
  | left + 1, attempt, last =>
    match F.askEach mid expectedSigner attempt endpoints { lastTransient := last } with
    | .inl result => result
    | .inr round =>
      if round.allAnswered then .error (round.refused.getD (.network ("the sender has no record for this ID; " ++
        "check the ID and that the sender's daemon is running with the file published")))
      else fetchRounds endpoints left (attempt + 1) round.lastTransient

def fetchVerifiedRecordVia (endpoints : List RecordEndpoint) : Except MiasmaError FetchedRecord :=
  F.fetchRounds mid expectedSigner endpoints recordAttempts 1 none

/-! ## Who decides the result -/

/-- An endpoint answers the attempt with a record that opens, and none before it fails for good. -/
def Reaches (attempt : Nat) (endpoints : List RecordEndpoint) (found : FetchedRecord) : Prop :=
  ∃ front endpoint back envelope, endpoints = front ++ endpoint :: back ∧ endpoint attempt = .ok (some envelope) ∧
    F.openSignedRecord mid expectedSigner envelope = .ok found ∧
    ∀ other ∈ front, ∀ e, other attempt = .error e → e.permanent = false

variable {F mid expectedSigner} {endpoints : List RecordEndpoint} {found : FetchedRecord}

theorem Reaches.cons {endpoint : RecordEndpoint} (reaches : F.Reaches mid expectedSigner attempt endpoints found)
    (passes : ∀ e, endpoint attempt = .error e → e.permanent = false) :
    F.Reaches mid expectedSigner attempt (endpoint :: endpoints) found := by
  obtain ⟨front, first, back, envelope, rfl, answers, opens, passing⟩ := reaches
  exact ⟨endpoint :: front, first, back, envelope, rfl, answers, opens, List.forall_mem_cons.mpr ⟨passes, passing⟩⟩

theorem askEach_reaches {round : Round}
    (done : F.askEach mid expectedSigner attempt endpoints round = .inl (.ok found)) :
    F.Reaches mid expectedSigner attempt endpoints found := by
  induction endpoints generalizing round with
  | nil => cases done
  | cons endpoint rest ih =>
    simp only [askEach] at done
    split at done
    · rename_i envelope answer
      split at done
      · rename_i opened
        cases done
        exact ⟨[], endpoint, rest, envelope, rfl, answer, opened, by simp⟩
      · exact (ih done).cons (by simp [answer])
    · rename_i answer
      exact (ih done).cons (by simp [answer])
    rename_i e failed
    split at done
    · cases done
    · rename_i passes
      exact (ih done).cons (by simpa [failed] using passes)

theorem fetchRounds_reaches
    (done : F.fetchRounds mid expectedSigner endpoints left attempt last = .ok found) :
    ∃ attempt, F.Reaches mid expectedSigner attempt endpoints found := by
  induction left generalizing attempt last with
  | zero => cases done
  | succ left ih =>
    simp only [fetchRounds] at done
    split at done
    · rename_i asked
      rw [done] at asked
      exact ⟨attempt, askEach_reaches asked⟩
    · split at done
      · cases done
      · exact ih done

theorem Reaches.askEach (reaches : F.Reaches mid expectedSigner attempt endpoints found) (round : Round) :
    ∃ first, F.askEach mid expectedSigner attempt endpoints round = .inl (.ok first) := by
  obtain ⟨front, endpoint, back, envelope, rfl, answers, opens, passing⟩ := reaches
  induction front generalizing round with
  | nil => exact ⟨found, by simp only [List.nil_append, RecordFormat.askEach, answers, opens]⟩
  | cons endpoint rest ih =>
    obtain ⟨first, others⟩ := List.forall_mem_cons.mp passing
    simp only [List.cons_append, RecordFormat.askEach]
    split
    · split
      · exact ⟨_, rfl⟩
      · exact ih _ others
    · exact ih round others
    rename_i e failed
    rw [if_neg (by simp [first e failed])]
    exact ih _ others

/-- A round is not passed over an endpoint whose record opens. -/
theorem askEach_ends {endpoint : RecordEndpoint} (there : endpoint ∈ endpoints)
    (answers : endpoint attempt = .ok (some envelope))
    (opens : F.openSignedRecord mid expectedSigner envelope = .ok found) (round : Round) :
    ∃ result, F.askEach mid expectedSigner attempt endpoints round = .inl result := by
  induction endpoints generalizing round with
  | nil => contradiction
  | cons other rest ih =>
    simp only [askEach]
    rcases List.mem_cons.mp there with rfl | later
    · rw [answers]
      exact ⟨.ok found, by simp only [opens]⟩
    split
    · split
      · exact ⟨_, rfl⟩
      · exact ih later _
    · exact ih later _
    split
    · exact ⟨_, rfl⟩
    · exact ih later _

theorem signed_of_opened (opened : F.openSignedRecord mid (some signer) envelope = .ok found) :
    found.signer = signer ∧ found.record.midDigest = mid ∧ ∃ value sig,
      F.verify signer (F.signingMessage mid.toList value signer) sig = true ∧
        F.decodeRecordValueAny value = .ok (found.record, found.manifest) := by
  simp only [openSignedRecord] at opened
  split at opened
  · cases opened
  rename_i signed _
  split at opened
  · cases opened
  rename_i verified
  split at opened
  · cases opened
  rename_i expected
  split at opened
  · cases opened
  rename_i record decoded read
  split at opened
  · cases opened
  rename_i same
  split at opened
  · cases opened
  split at opened
  · cases opened
  cases opened
  simp only [not_or, not_not, Bool.not_eq_false, verifySignature, Bool.and_eq_true, Option.any_eq_true] at verified
  obtain ⟨key, -, sig, -, verified⟩ := verified
  obtain rfl : signer = signed.signerPubkey := by simpa using expected
  exact ⟨rfl, not_not.mp same, signed.value, sig, key ▸ verified, read⟩

variable (F mid) in
/-- An endpoint that always answers with a record that opens for the signer. -/
def Honest (signer : B32) (endpoint : RecordEndpoint) : Prop := ∀ attempt, ∃ envelope found,
  endpoint attempt = .ok (some envelope) ∧ F.openSignedRecord mid (some signer) envelope = .ok found

/-- Where one endpoint is honest, the fetch succeeds exactly if its first round reaches a record. -/
theorem one_honest_endpoint_is_enough (F : RecordFormat) (mid signer : B32)
    (Signed : B32 → B32 → Prop)
    (ideal : ∀ key digest sig, F.verify key digest sig = true → Signed key digest) (endpoints : List RecordEndpoint) :
    (∀ honest ∈ endpoints, F.Honest mid signer honest →
      ((∃ found, F.fetchVerifiedRecordVia mid (some signer) endpoints = .ok found) ↔
        ∃ found, F.Reaches mid (some signer) 1 endpoints found)) ∧
    ∀ found, F.fetchVerifiedRecordVia mid (some signer) endpoints = .ok found →
      found.signer = signer ∧ found.record.midDigest = mid ∧ ∃ value,
        Signed signer (F.signingMessage mid.toList value signer) ∧
          F.decodeRecordValueAny value = .ok (found.record, found.manifest) := by
  constructor
  · intro honest there always
    obtain ⟨envelope, found, answers, opens⟩ := always 1
    obtain ⟨result, asked⟩ := askEach_ends there answers opens { lastTransient := none }
    rw [fetchVerifiedRecordVia, recordAttempts, fetchRounds, asked]
    constructor
    · rintro ⟨found, rfl⟩
      exact ⟨found, askEach_reaches asked⟩
    · rintro ⟨found, reaches⟩
      obtain ⟨first, same⟩ := reaches.askEach { lastTransient := none }
      exact ⟨first, Sum.inl.inj (asked.symm.trans same)⟩
  · intro found done
    obtain ⟨attempt, -, endpoint, -, envelope, -, -, opened, -⟩ := fetchRounds_reaches done
    obtain ⟨signedBy, same, value, sig, verified, read⟩ := signed_of_opened opened
    exact ⟨signedBy, same, value, ideal _ _ _ verified, read⟩

end RecordFormat

namespace Fetching

def key : B32 := .fill 32 5

def record : DhtRecord := ⟨.fill 32 1, 1, 1, 1, [], 0⟩

/-- One envelope is known, and every signature verifies. -/
def format : RecordFormat where
  deserialize bytes := if bytes = [1] then some ⟨(ByteVec.fill 32 1).toList, [7], key, List.replicate 64 0⟩ else none
  blake3 := Primitives.checksum.deriveKey "blake3"
  keyParses _ := true
  verify _ _ _ := true
  decodeRecordValueAny _ := .ok (record, none)

def honest : RecordEndpoint := fun _ => .ok (some [1])

def unreachable : RecordEndpoint := fun _ => .error ⟨"cannot reach the endpoint", false⟩

def refused : RecordEndpoint := fun _ => .error ⟨"the server's TLS certificate was not accepted", true⟩

theorem honest_opens : format.Honest (.fill 32 1) key honest := fun _ => ⟨[1], ⟨record, none, key⟩, rfl, rfl⟩

end Fetching

open Fetching in
theorem one_honest_endpoint_is_enough_behind_unreachable :
    ∃ found, format.fetchVerifiedRecordVia (.fill 32 1) (some key) [unreachable, honest] = .ok found :=
  ((RecordFormat.one_honest_endpoint_is_enough format (.fill 32 1) key (fun _ _ => True) (fun _ _ _ _ => trivial) _).1
    honest (by simp) honest_opens).mpr ⟨_, [unreachable], honest, [], [1], rfl, rfl, rfl, by simp [unreachable]⟩

open Fetching in
theorem refused_certificate_hides_honest_endpoint : format.Honest (.fill 32 1) key honest ∧
    format.fetchVerifiedRecordVia (.fill 32 1) (some key) [refused, honest] =
      .error (.network "the server's TLS certificate was not accepted") :=
  ⟨honest_opens, rfl⟩

end Miasma.Transfer
