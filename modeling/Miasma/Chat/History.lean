import Miasma.Chat.Proto

namespace Miasma.Chat.History

open Data Reader

/-! The records of a conversation's history (`StoredMessage` in `chat/store.rs`). -/

inductive MsgState where
  | queued
  | sending
  | delivered
  | failed
  | received
  | read

def MsgState.code : MsgState → UInt8
  | queued => 0
  | sending => 1
  | delivered | read => 2
  | failed => 3
  | received => 4

def MsgState.fromCode : UInt8 → Option MsgState
  | 0 => some queued
  | 1 => some sending
  | 2 => some delivered
  | 3 => some failed
  | 4 => some received
  | _ => none

/-- A saved message is never stored as read. -/
def MsgState.stored : MsgState → MsgState
  | read => delivered
  | state => state

theorem MsgState.fromCode_code (state : MsgState) : fromCode state.code = some state.stored := by
  cases state <;> rfl

structure StoredMessage where
  ord : UInt64
  outgoing : Bool
  id : B16
  seq : UInt64
  sentMs : UInt64
  atMs : UInt64
  state : MsgState
  reason : Option String
  triedMs : UInt64
  text : String

namespace StoredMessage

variable (m : StoredMessage)

/-- The bytes of the reason that are written; the cut is at a byte. -/
def cutReason : Bytes := (utf8 (m.reason.getD "")).take 255

def encode : Bytes := putU8 1 ++ putU64 m.ord ++ putU8 m.outgoing.toUInt8 ++ m.id.toList ++ putU64 m.seq ++
    putU64 m.sentMs ++ putU64 m.atMs ++ putU8 m.state.code ++ putU8 (UInt8.ofNat m.cutReason.length) ++
    m.cutReason ++ putText16 m.text

def readReason : Reader (Option String) := do
  let length ← u8
  if length = 0 then return none
  return some (← Reader.text length.toNat)

def decode (bytes : Bytes) : Option StoredMessage := complete (do
    let version ← u8
    check (version = 1)
    let ord ← u64
    let outgoing ← u8
    let id ← arr 16
    let seq ← u64
    let sentMs ← u64
    let atMs ← u64
    let code ← u8
    let state ← lift (MsgState.fromCode code)
    let reason ← readReason
    let text ← text16 0 maxTextBytes
    return ⟨ord, outgoing != 0, id, seq, sentMs, atMs, state, reason, 0, text⟩) bytes

variable {m : StoredMessage}

theorem length_cutReason : (UInt8.ofNat m.cutReason.length).toNat = m.cutReason.length :=
  Nat.mod_eq_of_lt (Nat.lt_succ_of_le (List.length_take_le 255 _))

theorem reads_reason (cut : utf8 short = m.cutReason) : Reads readReason
    (putU8 (UInt8.ofNat m.cutReason.length) ++ m.cutReason) (if short = "" then none else some short) := by
  have length := m.length_cutReason
  rw [← cut] at length ⊢
  refine (reads_u8 _).bind ?_
  by_cases empty : short = ""
  · subst empty
    exact Reads.pure
  have nonzero : UInt8.ofNat (utf8 short).length ≠ 0 := by
    intro zero
    rw [zero, length_utf8] at length
    exact empty (String.utf8ByteSize_eq_zero_iff.mp length.symm)
  rw [if_neg nonzero, if_neg empty, length]
  exact reads_text.map some

theorem fails_reason (broken : ofUtf8? m.cutReason = none) :
    Fails readReason (putU8 (UInt8.ofNat m.cutReason.length) ++ m.cutReason) := by
  have length := m.length_cutReason
  have nonzero : UInt8.ofNat m.cutReason.length ≠ 0 := by
    intro zero
    rw [zero] at length
    rw [List.length_eq_zero_iff.mp length.symm] at broken
    exact absurd broken (by decide)
  refine (reads_u8 _).bindFails ?_
  rw [if_neg nonzero, length]
  exact (fails_text broken).bind

theorem decode_broken (broken : ofUtf8? m.cutReason = none) : decode m.encode = none := by
  refine Fails.complete ?_
  simp only [encode, List.append_assoc]
  refine (reads_u8 1).bindFails (.check rfl (reads_u64.bindFails ((reads_u8 _).bindFails (reads_arr.bindFails ?_))))
  refine reads_u64.bindFails (reads_u64.bindFails (reads_u64.bindFails ((reads_u8 _).bindFails ?_)))
  exact (Reads.lift m.state.fromCode_code).bindFails (fails_reason broken).bind.append

/-- A message can be read back exactly if its reason is cut between two characters;
then only the state read, the reason and the time tried are not as they were. -/
theorem decode_encode_iff_cut (m : StoredMessage) (fits : m.text.utf8ByteSize ≤ maxTextBytes) :
    ((decode m.encode).isSome ↔ ∃ short, utf8 short = m.cutReason) ∧
      ∀ short, utf8 short = m.cutReason → decode m.encode = some { m with
        state := m.state.stored
        reason := if short = "" then none else some short
        triedMs := 0 } := by
  have outgoing : (m.outgoing.toUInt8 != 0) = m.outgoing := by cases m.outgoing <;> rfl
  have whole short (cut : utf8 short = m.cutReason) : decode m.encode = some { m with
      state := m.state.stored
      reason := if short = "" then none else some short
      triedMs := 0 } := by
    refine Reads.complete ?_
    simp only [encode, List.append_assoc]
    refine (reads_u8 1).bind (.check rfl (reads_u64.bind ((reads_u8 _).bind (reads_arr.bind ?_))))
    refine reads_u64.bind (reads_u64.bind (reads_u64.bind ((reads_u8 _).bind ?_)))
    refine (Reads.lift m.state.fromCode_code).bind ((reads_reason cut).bind ?_)
    rw [outgoing]
    exact (reads_text16 (Nat.zero_le _) fits (by decide)).map _
  refine ⟨⟨fun read => ?_, fun ⟨short, cut⟩ => by rw [whole short cut]; rfl⟩, whole⟩
  cases text : ofUtf8? m.cutReason with
  | some short => exact ⟨short, utf8_of_ofUtf8? _ text⟩
  | none =>
    rw [decode_broken text] at read
    contradiction

def failed (reason : String) : StoredMessage :=
  ⟨1, true, ByteVec.fill 16 7, 1, 10, 20, .failed, some reason, 15, "hello"⟩

theorem decode_encode_iff_cut_expired : decode (failed "expired").encode =
    some { failed "expired" with triedMs := 0 } :=
  (decode_encode_iff_cut (failed "expired") (by decide)).2 "expired" (by decide +kernel)

/-- The last of these characters takes the bytes 255 and 256. -/
theorem decode_encode_inside_letter :
    decode (failed (String.ofList (List.replicate 254 'a' ++ ['é']))).encode = none := by
  decide +kernel

end StoredMessage

end Miasma.Chat.History
