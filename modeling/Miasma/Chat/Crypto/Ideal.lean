import Miasma.Chat.Crypto

namespace Miasma.Chat

open Data List

/-! Ideal primitives: `Suite.Ideal` is what the session proofs assume, and `Symbolic.suite` meets it. -/

structure Suite.Ideal (S : Suite) : Prop where
  publicKey_injective : Function.Injective S.publicKey
  diffieHellman_symm : ∀ left right,
    S.diffieHellman left (S.publicKey right) = S.diffieHellman right (S.publicKey left)
  diffieHellman_contributes : ∀ left right, ∃ shared, S.diffieHellman left (S.publicKey right) = some shared
  diffieHellman_distinct : ∀ {left right left' right'},
    S.diffieHellman left (S.publicKey right) = S.diffieHellman left' (S.publicKey right') →
      (left = left' ∧ right = right') ∨ (left = right' ∧ right = left')
  kdfRoot_distinct : ∀ {root shared root' shared'},
    (S.kdfRoot root shared).2 = (S.kdfRoot root' shared').2 → root = root' ∧ shared = shared'
  kdfChain_next_injective : Function.Injective (fun chain => (S.kdfChain chain).next)
  kdfChain_key_injective : Function.Injective (fun chain => (S.kdfChain chain).key)
  layerKey_distinct : ∀ {key pq dh n key' pq' dh' n'},
    S.layerKey key pq dh n = S.layerKey key' pq' dh' n' → key = key' ∧ pq = pq'
  layerKey_ne_key : ∀ key pq dh n chain, S.layerKey key pq dh n ≠ (S.kdfChain chain).key
  aeadOpen_iff : ∀ {key nonce aad ct pt}, S.aeadOpen key nonce aad ct = some pt ↔ ct = S.aeadSeal key nonce aad pt
  aeadSeal_distinct : ∀ {key nonce aad pt key' nonce' aad' pt'},
    S.aeadSeal key nonce aad pt = S.aeadSeal key' nonce' aad' pt' →
      key = key' ∧ nonce = nonce' ∧ aad = aad' ∧ pt = pt'

namespace Symbolic

abbrev Shared := B32 × B32

/-- A key is the term that derives it. -/
inductive Key where
  | firstFlight (dh1 dh2 : Shared) (initiator responder ek : B32)
  | root (before : Key) (shared : Shared)
  | chain (before : Key) (shared : Shared)
  | next (before : Key)
  | message (before : Key)
  | layer (key pq : Key) (dh : B32) (n : UInt32)

def sharedCode (shared : Shared) : Bytes := shared.1.toList ++ shared.2.toList

/-- A self-delimiting encoding of terms. -/
def Key.code : Key → Bytes
  | .firstFlight dh1 dh2 initiator responder ek =>
    0 :: (sharedCode dh1 ++ (sharedCode dh2 ++ (initiator.toList ++ (responder.toList ++ ek.toList))))
  | .root before shared => 1 :: (sharedCode shared ++ before.code)
  | .chain before shared => 2 :: (sharedCode shared ++ before.code)
  | .next before => 3 :: before.code
  | .message before => 4 :: before.code
  | .layer key pq dh n => 5 :: (dh.toList ++ (putU32 n ++ (key.code ++ pq.code)))

/-- A byte list after its length in unary. -/
def frame (bytes : Bytes) : Bytes := replicate bytes.length 1 ++ 0 :: bytes

def sealedHead (key nonce : Key) (aad : Bytes) : Bytes := key.code ++ (nonce.code ++ frame aad)

def suite : Suite where
  Secret := B32
  Shared := Shared
  Key := Key
  Nonce := Key
  montgomery id := some id
  publicKey secret := secret
  diffieHellman secret key := some (min secret key, max secret key)
  kdfFirstFlight := Key.firstFlight
  kdfRoot root shared := (.root root shared, .chain root shared)
  kdfChain chain := ⟨.next chain, .message chain, chain⟩
  layerKey := Key.layer
  aeadSeal key nonce aad pt := sealedHead key nonce aad ++ pt
  aeadOpen key nonce aad ct := if (sealedHead key nonce aad).isPrefixOf ct then
      some (ct.drop (sealedHead key nonce aad).length)
    else none

instance : DecidableEq suite.Secret := inferInstanceAs (DecidableEq B32)

variable {rest rest' : Bytes}

theorem byteVec_append {left right : ByteVec n} (same : left.toList ++ rest = right.toList ++ rest') :
    left = right ∧ rest = rest' := by
  have lengths : left.toList.length = right.toList.length := by
    rw [left.length_toList, right.length_toList]
  obtain ⟨heads, tails⟩ := append_inj same lengths
  exact ⟨ByteVec.ext_toList heads, tails⟩

theorem putU32_append (same : putU32 left ++ rest = putU32 right ++ rest') : left = right ∧ rest = rest' := by
  obtain ⟨heads, tails⟩ := append_inj same (by simp [putU32])
  have values := congrArg ofBE heads
  rw [putU32, putU32, ofBE_toBE_of_lt left.toNat_lt, ofBE_toBE_of_lt right.toNat_lt] at values
  exact ⟨UInt32.toNat_inj.mp values, tails⟩

theorem sharedCode_append (same : sharedCode left ++ rest = sharedCode right ++ rest') :
    left = right ∧ rest = rest' := by
  simp only [sharedCode, append_assoc] at same
  obtain ⟨first, same⟩ := byteVec_append same
  obtain ⟨second, same⟩ := byteVec_append same
  exact ⟨Prod.ext first second, same⟩

theorem code_append {left right : Key}
    (same : left.code ++ rest = right.code ++ rest') : left = right ∧ rest = rest' := by
  induction left generalizing right rest rest' with
  | firstFlight =>
    cases right <;> simp [Key.code] at same
    obtain ⟨firstSame, same⟩ := sharedCode_append same
    obtain ⟨secondSame, same⟩ := sharedCode_append same
    obtain ⟨initiatorSame, same⟩ := byteVec_append same
    obtain ⟨responderSame, same⟩ := byteVec_append same
    obtain ⟨ekSame, same⟩ := byteVec_append same
    exact ⟨by rw [firstSame, secondSame, initiatorSame, responderSame, ekSame], same⟩
  | root before shared ih | chain before shared ih =>
    cases right <;> simp [Key.code] at same
    obtain ⟨sharedSame, same⟩ := sharedCode_append same
    obtain ⟨beforeSame, same⟩ := ih same
    exact ⟨by rw [sharedSame, beforeSame], same⟩
  | next before ih | message before ih =>
    cases right <;> simp [Key.code] at same
    obtain ⟨beforeSame, same⟩ := ih same
    exact ⟨by rw [beforeSame], same⟩
  | layer key pq dh n keyIh pqIh =>
    cases right <;> simp [Key.code] at same
    obtain ⟨dhSame, same⟩ := byteVec_append same
    obtain ⟨nSame, same⟩ := putU32_append same
    obtain ⟨keySame, same⟩ := keyIh same
    obtain ⟨pqSame, same⟩ := pqIh same
    exact ⟨by rw [dhSame, nSame, keySame, pqSame], same⟩

theorem unary_append (same : replicate left 1 ++ 0 :: rest = replicate right 1 ++ 0 :: rest') :
    left = right ∧ rest = rest' := by
  induction left generalizing right with
  | zero =>
    cases right with
    | zero => simpa using same
    | succ right => simp [replicate_succ] at same
  | succ left ih =>
    cases right with
    | zero => simp [replicate_succ] at same
    | succ right =>
      simp only [replicate_succ, cons_append, cons.injEq, true_and] at same
      obtain ⟨counts, rests⟩ := ih same
      exact ⟨by rw [counts], rests⟩

theorem frame_append (same : frame left ++ rest = frame right ++ rest') : left = right ∧ rest = rest' := by
  simp only [frame, append_assoc, cons_append] at same
  obtain ⟨lengths, same⟩ := unary_append same
  exact append_inj same lengths

theorem sealedHead_append (same : sealedHead key nonce aad ++ pt = sealedHead key' nonce' aad' ++ pt') :
    key = key' ∧ nonce = nonce' ∧ aad = aad' ∧ pt = pt' := by
  simp only [sealedHead, append_assoc] at same
  obtain ⟨keys, same⟩ := code_append same
  obtain ⟨nonces, same⟩ := code_append same
  obtain ⟨aads, same⟩ := frame_append same
  exact ⟨keys, nonces, aads, same⟩

theorem pair_symm (left right : B32) :
    some (min left right, max left right) = some (min right left, max right left) := by
  rw [min_comm, max_comm]

theorem pair_distinct {left right left' right' : B32}
    (same : (min left right, max left right) = (min left' right', max left' right')) :
    (left = left' ∧ right = right') ∨ (left = right' ∧ right = left') := by
  rcases le_total left right with order | order <;> rcases le_total left' right' with order' | order' <;> simp_all

theorem suite_ideal : suite.Ideal where
  publicKey_injective _ _ same := same
  diffieHellman_symm := pair_symm
  diffieHellman_contributes left right := ⟨_, rfl⟩
  diffieHellman_distinct same := pair_distinct (Option.some.inj same)
  kdfRoot_distinct same := by
    cases same
    exact ⟨rfl, rfl⟩
  kdfChain_next_injective _ _ same := by
    cases same
    rfl
  kdfChain_key_injective _ _ same := by
    cases same
    rfl
  layerKey_distinct same := by
    cases same
    exact ⟨rfl, rfl⟩
  layerKey_ne_key _ _ _ _ _ same := by cases same
  aeadOpen_iff {key nonce aad ct pt} := by
    simp only [suite]
    split
    · rename_i starts
      obtain ⟨rest, split⟩ := isPrefixOf_iff_prefix.mp starts
      subst split
      simp [eq_comm]
    · rename_i differs
      constructor
      · intro found
        cases found
      · intro spelled
        exact absurd ( isPrefixOf_iff_prefix.mpr ⟨pt, spelled.symm⟩) differs
  aeadSeal_distinct same := sealedHead_append same

def person (byte : UInt8) : Identity suite := ⟨.fill 32 byte, .fill 32 byte, .fill 32 byte, rfl, rfl⟩

end Symbolic

end Miasma.Chat
