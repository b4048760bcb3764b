import Miasma.Data.Bytes

namespace Miasma

open Data

/-- What the program takes from its libraries (`ed25519_dalek` and `blake3`).
Their code is not part of the repository; nothing below assumes more about them
than it states. -/
structure Primitives where
  /-- `VerifyingKey::from_bytes` accepts the key. -/
  keyParses : B32 → Bool
  /-- `VerifyingKey::is_weak`. -/
  keyIsWeak : B32 → Bool
  /-- `VerifyingKey::verify_strict` of a digest and a signature. -/
  verifyStrict : B32 → B32 → ByteVec 64 → Bool
  /-- `SigningKey::verifying_key` and `SigningKey::sign`. -/
  verifyingKey : B32 → B32
  sign : B32 → B32 → ByteVec 64
  /-- `blake3::Hasher::new_derive_key(label)` over the bytes. -/
  deriveKey : String → Bytes → B32

/-- A key that is usable as an identity. -/
def Primitives.validKey (P : Primitives) (id : B32) : Bool := P.keyParses id && !P.keyIsWeak id

/-- A computable instance, for runs of the model on concrete values: the hash is
a checksum, a key signs by putting itself in front of the digest. -/
def Primitives.checksum : Primitives where
  keyParses _ := true
  keyIsWeak _ := false
  verifyStrict key digest sig := sig.toList == key.toList ++ digest.toList
  verifyingKey key := key
  sign key digest := ⟨key.toList ++ digest.toList, by simp [key.length_toList, digest.length_toList]⟩
  deriveKey label bytes :=
    ⟨toBE 32 ((utf8 label ++ bytes).foldl (fun sum byte => (sum * 257 + byte.toNat + 1) % 2 ^ 61) 0),
      length_toBE 32 _⟩

end Miasma
