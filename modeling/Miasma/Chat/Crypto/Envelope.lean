import Miasma.Chat.Crypto

namespace Miasma.Chat

open Data List

/-! Envelopes read back.

What `seal_with` makes fits the limits of `decode`, so `decode` gives the envelope
back from its own bytes. -/

namespace Envelope

variable {α β : Type} {result : Except CryptoError (β × Bytes)}

variable {bytes rest : Bytes} {next : α → StateT Bytes (Except CryptoError) β}

theorem bind_ok (done : first bytes = .ok (value, rest)) (later : next value rest = result) :
    (first >>= next) bytes = result := by
  simpa only [bind, StateT.bind, done, Except.bind] using later

theorem need_reads {read : Reader α} (reads : Reads read bytes value) (later : next value rest = result) :
    (need read >>= next) (bytes ++ rest) = result :=
  bind_ok (by simp only [need, reads rest]) later

theorem unless_refuse [Decidable wrong] {next : Unit → StateT Bytes (Except CryptoError) β}
    (right : ¬ wrong) (later : next () bytes = result) :
    (if wrong then refuse e >>= next else next ()) bytes = result := by
  rw [if_neg right]
  exact later

/-- The end of the header: the first-flight key, if there is one. -/
def putEk : Option B32 → Bytes
  | some ek => putU8 1 ++ ek.toList
  | none => putU8 0

theorem ek_reads {next : Option B32 → StateT Bytes (Except CryptoError) β}
    (later : next ek rest = result) :
    (need Reader.u8 >>= fun flag =>
      if flag = 0 then pure none >>= next
      else if flag = 1 then some <$> need (Reader.arr 32) >>= next
      else refuse (.malformed "init flag") >>= next) (putEk ek ++ rest) = result := by
  cases ek with
  | none => exact need_reads (reads_u8 0) (bind_ok rfl later)
  | some ek =>
    rw [putEk, append_assoc]
    refine need_reads (reads_u8 1) (bind_ok ?_ later)
    have key : need (Reader.arr 32) (ek.toList ++ rest) = .ok (ek, rest) := by
      simp only [need, reads_arr rest]
    simp [Functor.map, StateT.map, key, bind, Except.bind, pure, Except.pure]

/-- The length bounds that `decode` checks. -/
def Fits (env : Envelope) : Prop := tagLen ≤ env.ciphertext.length ∧ env.ciphertext.length ≤ maxCiphertext

theorem length_encode (env : Envelope) :
    env.encode.length = 19 + env.headerBytes.length + 4 + env.ciphertext.length := by
  simp only [encode, length_append, putU8, putU32, length_toBE, ByteVec.length_toList]

theorem length_headerBytes (env : Envelope) : env.headerBytes.length ≤ 73 := by
  unfold headerBytes
  cases env.header.initEk <;> simp only [length_append, putU8, putU32, length_toBE, ByteVec.length_toList] <;> omega

theorem decode_encode (fits : env.Fits) : decode env.encode = .ok env := by
  obtain ⟨least, most⟩ := fits
  have small : env.ciphertext.length < 2 ^ 32 := Nat.lt_of_le_of_lt most (by decide)
  have count : (UInt32.ofNat env.ciphertext.length).toNat = env.ciphertext.length := Nat.mod_eq_of_lt small
  have inside : ¬ ((UInt32.ofNat env.ciphertext.length).toNat < tagLen ∨
      maxCiphertext < (UInt32.ofNat env.ciphertext.length).toNat) := by
    omega
  have header : ¬ env.encode.length - (putU32 (UInt32.ofNat env.ciphertext.length) ++
      env.ciphertext).length > maxHeaderBytes := by
    have total := env.length_encode
    have front := env.length_headerBytes
    simp only [length_append, putU32, length_toBE, maxHeaderBytes]
    omega
  have body : Reads (Reader.bytes (UInt32.ofNat env.ciphertext.length).toNat) env.ciphertext
      env.ciphertext := reads_bytes_of_length count.symm
  have parts : env.encode = putU8 envelopeVersion ++ (putU8 suiteRatchet ++ (putU8 kindPair ++
      (env.id.toList ++ (env.header.dhPub.toList ++ (putU32 env.header.pn ++ (putU32 env.header.n ++
        (putEk env.header.initEk ++ (putU32 (UInt32.ofNat env.ciphertext.length) ++
          (env.ciphertext ++ []))))))))) := by
    unfold encode headerBytes putEk
    cases env.header.initEk <;> simp only [append_assoc, append_nil]
  have whole : decode.read env.encode env.encode = .ok (env, []) := by
    refine (congrArg (decode.read env.encode) parts).trans ?_
    refine need_reads (reads_u8 _) (unless_refuse (by simp) ?_)
    refine need_reads (reads_u8 _) (need_reads (reads_u8 _) (unless_refuse (by simp) ?_))
    refine need_reads reads_arr (need_reads reads_arr ?_)
    refine need_reads reads_u32 (need_reads reads_u32 ?_)
    refine ek_reads ?_
    refine bind_ok rfl ?_
    refine unless_refuse (by simpa using header) ?_
    refine need_reads reads_u32 (unless_refuse inside ?_)
    exact need_reads body (bind_ok rfl (unless_refuse (by simp) rfl))
  unfold decode
  rw [whole]
  rfl

end Envelope

/-! Sealed envelopes. -/

/-- The cipher adds a tag of 16 bytes, as ChaCha20-Poly1305 does. -/
def Suite.Tagged (S : Suite) : Prop :=
  ∀ key nonce aad plain, (S.aeadSeal key nonce aad plain).length = plain.length + tagLen

theorem pad_ok (fits : pad data = .ok padded) : ∃ zeros,
    padded = data ++ [0x80] ++ replicate zeros 0 ∧ padded.length ∈ padBuckets := by
  unfold pad at fits
  split at fits
  · cases fits
  rename_i bucket found
  cases fits
  have room : data.length + 1 ≤ bucket := by simpa using find?_some found
  have length : (data ++ [0x80] ++ replicate (bucket - (data.length + 1)) 0).length = bucket := by
    simp only [length_append, length_singleton, length_replicate]
    omega
  exact ⟨_, rfl, length.symm ▸ mem_of_find?_eq_some found⟩

namespace Session

variable {S : Suite} {s next : Session S} {id : B16} {plain : Bytes}
  {layer : Option S.Key} {env : Envelope} {result : Except CryptoError Envelope}

theorem sealWith_ok (sealed : s.sealWith id plain layer = (next, .ok env)) :
    env.header.dhPub = s.dhsPub ∧ env.header.n = s.ns ∧ next.dhsPub = s.dhsPub ∧
      s.ns ≠ 0xffffffff ∧ next.ns = s.ns + 1 ∧
      ∃ key nonce aad padded, pad plain = .ok padded ∧ env.ciphertext = S.aeadSeal key nonce aad padded := by
  unfold sealWith at sealed
  split at sealed
  · cases sealed
  rename_i padded fits
  split at sealed
  · cases sealed
  dsimp only at sealed
  split at sealed
  · cases sealed
  rename_i below
  cases sealed
  exact ⟨rfl, rfl, rfl, below, rfl, _, _, _, padded, fits, rfl⟩

theorem sealWith_error (refused : s.sealWith id plain layer = (next, .error e)) :
    next.dhsPub = s.dhsPub ∧ next.ns = s.ns := by
  unfold sealWith at refused
  split at refused
  · cases refused
    exact ⟨rfl, rfl⟩
  split at refused
  · cases refused
    exact ⟨rfl, rfl⟩
  dsimp only at refused
  split at refused
  · cases refused
    exact ⟨rfl, rfl⟩
  · cases refused

theorem sealWith_fits (tagged : S.Tagged) (sealed : s.sealWith id plain layer = (next, .ok env)) : env.Fits := by
  obtain ⟨-, -, -, -, -, key, nonce, aad, padded, fits, text⟩ := sealWith_ok sealed
  obtain ⟨-, -, bucket⟩ := pad_ok fits
  have most : padded.length ≤ maxPadded := by
    revert bucket
    simp only [padBuckets, maxPadded, mem_cons, not_mem_nil, or_false]
    omega
  simp only [Envelope.Fits, text, tagged key nonce aad padded, maxCiphertext]
  omega

end Session

end Miasma.Chat
