import Miasma.State.Agreement

namespace Miasma.State

open Data List

/-! Logs whose bodies are sealed by a writer, each under its own number. -/

/-- What is sealed has the length of the plaintext and opens under the same key, nonce and
associated data. -/
def Ciphers.Faithful (C : Ciphers) : Prop :=
  ∀ key nonce aad plain ciphertext tag, C.sealDetached key nonce aad plain = some (ciphertext, tag) →
    ciphertext.length = plain.length ∧ C.openDetached key nonce aad ciphertext tag.toList = some plain

def recordNonce (random : B16) (seq : Nat) : ByteVec nonceLen :=
  ⟨random.toList ++ toBE 8 seq, by simp [random.length_toList, nonceLen]⟩

namespace Core

def Seals (C : Ciphers) (core : Core) (seq : Nat) (plain body : Bytes) : Prop :=
  ∃ random ciphertext tag, plain.length ≤ core.label.maxRecordBytes ∧
    C.sealDetached core.key (recordNonce random seq) (core.aad seq) plain = some (ciphertext, tag) ∧
    body = (recordNonce random seq).toList ++ ciphertext ++ tag.toList

/-- The bodies records were sealed to, one after the other. -/
inductive Sealed (C : Ciphers) (core : Core) : Nat → List Bytes → List Bytes → Prop where
  | nil {seq} : Sealed C core seq [] []
  | cons {seq plain body plains bodies} (first : core.Seals C seq plain body)
      (rest : Sealed C core (seq + 1) plains bodies) : Sealed C core seq (plain :: plains) (body :: bodies)

end Core

variable {C : Ciphers} {core : Core} {seq : Nat} {plain body tail : Bytes} {plains bodies : List Bytes}

section

variable (faithful : C.Faithful) (seals : core.Seals C seq plain body)
include faithful seals

theorem Core.Seals.length : body.length = minBody + plain.length := by
  obtain ⟨random, ciphertext, tag, _, sealed, rfl⟩ := seals
  have same := (faithful _ _ _ _ _ _ sealed).1
  simp only [length_append, (recordNonce random seq).length_toList, same, tag.length_toList, minBody]
  omega

theorem Core.Seals.within : core.lengths.Within body := by
  have size := seals.length faithful
  obtain ⟨_, _, _, fits, _⟩ := seals
  simp only [Lengths.Within, Core.lengths, Core.maxBody, minBody] at size ⊢
  omega

theorem Core.Seals.opens : core.openBody C seq body = some plain := by
  obtain ⟨random, ciphertext, tag, _, sealed, rfl⟩ := seals
  obtain ⟨same, opened⟩ := faithful _ _ _ _ _ _ sealed
  have nonce := (recordNonce random seq).length_toList
  have taken : ((recordNonce random seq).toList ++ ciphertext ++ tag.toList).take nonceLen =
      (recordNonce random seq).toList := by
    rw [append_assoc, take_left' nonce]
  have length : ((recordNonce random seq).toList ++ ciphertext ++ tag.toList).length - tagLen =
      ((recordNonce random seq).toList ++ ciphertext).length := by
    simp only [length_append, tag.length_toList]
    omega
  have number : (recordNonce random seq).toList.drop 16 = toBE 8 seq := drop_left' random.length_toList
  simp only [openBody, taken, ByteVec.ofList?_toList, number, if_true, length, take_left' rfl,
    drop_left' rfl, drop_left' nonce]
  exact opened

end

namespace Core.Sealed

theorem within (faithful : C.Faithful) (sealed : core.Sealed C seq plains bodies) :
    ∀ body ∈ bodies, core.lengths.Within body := by
  induction sealed with
  | nil => simp
  | cons first rest ih =>
    intro body member
    rcases mem_cons.mp member with rfl | later
    · exact first.within faithful
    · exact ih body later

section

variable (sealed : core.Sealed C seq plains bodies)
include sealed

theorem length : bodies.length = plains.length := by
  induction sealed with
  | nil => rfl
  | cons first rest ih => simp [ih]

theorem concat (next : core.Seals C (seq + plains.length) plain body) :
    core.Sealed C seq (plains ++ [plain]) (bodies ++ [body]) := by
  induction sealed with
  | nil => exact .cons next .nil
  | cons first rest ih =>
    refine .cons first (ih ?_)
    rwa [length_cons, Nat.add_comm _ 1, ← Nat.add_assoc] at next

theorem take (count : Nat) : core.Sealed C seq (plains.take count) (bodies.take count) := by
  induction sealed generalizing count with
  | nil => simpa using .nil
  | cons first rest ih =>
    cases count with
    | zero => exact .nil
    | succ count => exact .cons first (ih count)

end

theorem last (sealed : core.Sealed C seq (plains ++ [plain]) (bodies ++ [body])) :
    core.Sealed C seq plains bodies ∧ core.Seals C (seq + plains.length) plain body := by
  induction plains generalizing seq bodies with
  | nil =>
    cases bodies with
    | nil =>
      cases sealed with
      | cons first rest => exact ⟨.nil, first⟩
    | cons other bodies =>
      have size := sealed.length
      simp at size
  | cons other plains ih =>
    cases bodies with
    | nil =>
      have size := sealed.length
      simp at size
    | cons first bodies =>
      cases sealed with
      | cons first rest =>
        obtain ⟨more, ends⟩ := ih rest
        refine ⟨.cons first more, ?_⟩
        rwa [length_cons, Nat.add_comm _ 1, ← Nat.add_assoc]

theorem readBodies_append (faithful : C.Faithful) (sealed : core.Sealed C seq plains bodies)
    (tail : Bytes) (offset : Nat) (rest : List Bytes) :
    core.readBodies C tail seq offset (bodies ++ rest) =
      (core.readBodies C tail (seq + plains.length) (offset + (frames bodies).length) rest).map
        fun read => { read with records := plains ++ read.records } := by
  induction sealed generalizing offset with
  | nil =>
    simp only [nil_append, length_nil, Nat.add_zero, frames_nil]
    cases core.readBodies C tail _ offset rest <;> rfl
  | @cons seq plain body plains bodies first more ih =>
    simp only [cons_append, readBodies, first.opens faithful, ih, frames_cons, length_append,
      length_frame, length_cons]
    rw [Nat.add_comm plains.length, ← Nat.add_assoc seq, ← Nat.add_assoc offset, ← Nat.add_assoc offset]
    cases core.readBodies C tail (seq + 1 + plains.length) _ rest <;> rfl

end Core.Sealed

/-! ## Headers and records -/

theorem parseHeader_header (core : Core) : parseHeader core.header core.label = .ok core.salt := by
  have magic : core.header.take 4 = logMagic := by
    rw [Core.header, append_assoc, take_left' (show logMagic.length = 4 from rfl)]
  have behind : core.header.drop 4 = logVersion :: core.label.id :: core.salt.toList := by
    rfl
  simp [parseHeader, magic, behind]

/-- The core of a log is derived from the keys and the salt in its header. -/
def Core.Of (C : Ciphers) (keys : StateKeys) (label : Label) (core : Core) : Prop :=
  core.label = label ∧ Core.new C keys label core.salt = .ok core

variable {keys : StateKeys} {label : Label}

theorem Core.of_new {salt : B16} (derived : Core.new C keys label salt = .ok core) : core.Of C keys label := by
  have whole := derived
  obtain ⟨docKey, _, same⟩ := bind_ok_iff.mp derived
  cases same
  exact ⟨rfl, whole⟩

theorem fullRead_header (of : core.Of C keys label) (laid : core.lengths.Laid bytes bodies tail) :
    fullRead C keys label (core.header ++ bytes) = core.readBodies C tail 0 logHeaderLen bodies := by
  obtain ⟨rfl, derived⟩ := of
  refine fullRead_eq (by rwa [drop_left' (length_header core)]) (by simp) ?_ derived
  rw [take_left' (length_header core), parseHeader_header]

theorem fullRead_written (faithful : C.Faithful) (of : core.Of C keys label)
    (sealed : core.Sealed C 0 plains bodies) :
    fullRead C keys label (core.header ++ frames bodies) =
      .ok ⟨plains, logHeaderLen + (frames bodies).length, false⟩ := by
  have laid : core.lengths.Laid (frames bodies ++ []) bodies [] :=
    Lengths.laid_frames (sealed.within faithful) (by simp [Lengths.head])
  rw [append_nil] at laid
  have read := sealed.readBodies_append faithful [] logHeaderLen []
  rw [append_nil] at read
  rw [fullRead_header of laid, read]
  simp [Core.readBodies, Lengths.head, Except.map]

theorem append_ok {writer next : LogWriter} (faithful : C.Faithful)
    (done : writer.append C random plain file = .ok (left, next)) :
    ∃ body, writer.core.Seals C writer.seq plain body ∧ left = file ++ frame body ∧
      next = { writer with seq := writer.seq + 1, last := writer.last + (frame body).length } := by
  obtain ⟨bytes, made, same⟩ := bind_ok_iff.mp done
  cases same
  simp only [LogWriter.record, ite_ok_iff] at made
  obtain ⟨fits, made⟩ := made
  cases sealed : C.sealDetached writer.core.key (recordNonce random writer.seq)
      (writer.core.aad writer.seq) plain with
  | none =>
    simp only [recordNonce] at sealed
    rw [sealed] at made
    cases made
  | some pair =>
    obtain ⟨ciphertext, tag⟩ := pair
    have seals : writer.core.Seals C writer.seq plain
        ((recordNonce random writer.seq).toList ++ ciphertext ++ tag.toList) :=
      ⟨random, ciphertext, tag, Nat.not_lt.mp fits, sealed, rfl⟩
    have size := seals.length faithful
    simp only [recordNonce] at sealed
    rw [sealed] at made
    cases made
    have whole : toLE 4 (nonceLen + plain.length + tagLen) ++ (recordNonce random writer.seq).toList ++
        ciphertext ++ tag.toList =
        frame ((recordNonce random writer.seq).toList ++ ciphertext ++ tag.toList) := by
      rw [frame, size, show minBody + plain.length = nonceLen + plain.length + tagLen by
        simp only [minBody]; omega]
      simp only [append_assoc]
    exact ⟨_, seals, by rw [← whole]; rfl, by rw [← whole]; rfl⟩

end Miasma.State
