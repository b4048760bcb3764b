import Miasma.Data.Reader

namespace Miasma.Chat

open Data

/-! End-to-end encryption of one-to-one messages (`chat/crypto.rs`): the first
flight, the envelope and the Double Ratchet session. -/

def envelopeVersion : UInt8 := 1
def suiteRatchet : UInt8 := 2
def kindPair : UInt8 := 1

def maxSkip : UInt32 := 256
/-- Message keys kept for messages that have not arrived yet, per session. -/
def maxStoredSkipped : Nat := 1024

def padBuckets : List Nat := [512, 1024, 2048, 4096, 8192, 16384]
def maxPadded : Nat := 16384
def tagLen : Nat := 16
def maxCiphertext : Nat := maxPadded + tagLen
def maxHeaderBytes : Nat := 1024

inductive CryptoError where
  | badKey
  | nonContributory
  | version (found : UInt8)
  | unsupported
  | malformed (what : String)
  | tooLarge
  | authentication
  | replay
  | tooFarAhead
  | noSendChain
  | badState

/-- `kdf_chain`: the next chain key, the message key and the message nonce. -/
structure ChainStep (Key Nonce : Type) where
  next : Key
  key : Key
  nonce : Nonce

/-- What the program takes from its libraries (`x25519_dalek`, `ed25519_dalek`,
`hkdf`, `chacha20poly1305`), whose code is not part of the repository.  Root,
chain, message and hybrid keys share one type, as they do in the source. -/
structure Suite where
  Secret : Type
  Shared : Type
  Key : Type
  Nonce : Type
  /-- The X25519 key of an endpoint id; `none` for a key that does not parse or
  is weak. -/
  montgomery : B32 → Option B32
  publicKey : Secret → B32
  /-- `none` when the exchange was not contributory. -/
  diffieHellman : Secret → B32 → Option Shared
  kdfFirstFlight : Shared → Shared → B32 → B32 → B32 → Key
  /-- The next root key and a chain key. -/
  kdfRoot : Key → Shared → Key × Key
  kdfChain : Key → ChainStep Key Nonce
  layerKey : Key → Key → B32 → UInt32 → Key
  aeadSeal : Key → Nonce → Bytes → Bytes → Bytes
  aeadOpen : Key → Nonce → Bytes → Bytes → Option Bytes

/-- The Ed25519 endpoint id and the X25519 key that belongs to it, as
`Identity::from_seed` makes them. -/
structure Identity (S : Suite) where
  id : B32
  dhSecret : S.Secret
  dhPublic : B32
  own_key : dhPublic = S.publicKey dhSecret
  known_key : S.montgomery id = some dhPublic

def peerDhPublic (S : Suite) (endpointId : B32) : Except CryptoError B32 :=
  match S.montgomery endpointId with
  | some key => .ok key
  | none => .error .badKey

def dh (S : Suite) (secret : S.Secret) (key : B32) : Except CryptoError S.Shared :=
  match S.diffieHellman secret key with
  | some shared => .ok shared
  | none => .error .nonContributory

/-- The key one message is sealed with: its ratchet key, combined with the hybrid
key when there is one. -/
def sealingKey (S : Suite) (key : S.Key) (layer : Option S.Key) (dh : B32) (n : UInt32) : S.Key :=
  match layer with
  | some pq => S.layerKey key pq dh n
  | none => key

/-- With the hybrid layer first when the receiver holds a hybrid key; the plain
key is tried second. -/
def openMsg (S : Suite) (key : S.Key) (nonce : S.Nonce) (aad ct : Bytes)
    (layer : Option S.Key) (dh : B32) (n : UInt32) : Except CryptoError Bytes :=
  let plain : Except CryptoError Bytes := match S.aeadOpen key nonce aad ct with
    | some pt => .ok pt
    | none => .error .authentication
  match layer with
  | none => plain
  | some pq =>
    match S.aeadOpen (S.layerKey key pq dh n) nonce aad ct with
    | some pt => .ok pt
    | none => plain

/-! Padding. -/

def pad (data : Bytes) : Except CryptoError Bytes :=
  match padBuckets.find? (data.length + 1 ≤ ·) with
  | none => .error .tooLarge
  | some bucket => .ok (data ++ [0x80] ++ List.replicate (bucket - (data.length + 1)) 0)

/-- The loop of `unpad`, on the bytes from the last one back. -/
def stripPadding : Bytes → Option Bytes
  | [] => none
  | last :: rest =>
    if last = 0 then stripPadding rest
    else if last = 0x80 then some rest
    else none

def unpad (padded : Bytes) : Except CryptoError Bytes :=
  if !padBuckets.contains padded.length then .error (.malformed "padding length")
  else match stripPadding padded.reverse with
    | some rest => .ok rest.reverse
    | none => .error (.malformed "padding marker")

/-! Envelopes. -/

structure Header where
  /-- The sender's current ratchet public key. -/
  dhPub : B32
  /-- Messages in the sender's previous sending chain. -/
  pn : UInt32
  /-- Index of this message in the current sending chain. -/
  n : UInt32
  /-- The first-flight ephemeral key, until the sender has received something. -/
  initEk : Option B32
deriving DecidableEq

structure Envelope where
  id : B16
  header : Header
  ciphertext : Bytes
deriving DecidableEq

namespace Envelope

def headerBytes (env : Envelope) : Bytes :=
  env.header.dhPub.toList ++ putU32 env.header.pn ++ putU32 env.header.n ++ match env.header.initEk with
    | some ek => putU8 1 ++ ek.toList
    | none => putU8 0

def encode (env : Envelope) : Bytes :=
  putU8 envelopeVersion ++ putU8 suiteRatchet ++ putU8 kindPair ++ env.id.toList ++
    env.headerBytes ++ putU32 (UInt32.ofNat env.ciphertext.length) ++ env.ciphertext

def need (read : Reader α) : StateT Bytes (Except CryptoError) α := fun bytes =>
  match read bytes with
  | some found => .ok found
  | none => .error (.malformed "short")

def refuse (e : CryptoError) : StateT Bytes (Except CryptoError) α := fun _ => .error e

/-- Every length is checked before anything is sized; trailing bytes are an
error. -/
def decode (bytes : Bytes) : Except CryptoError Envelope := do
  let (env, _) ← read bytes
  return env
where
  read : StateT Bytes (Except CryptoError) Envelope := do
    let ver ← need Reader.u8
    if ver ≠ envelopeVersion then refuse (.version ver)
    let suite ← need Reader.u8
    let kind ← need Reader.u8
    if suite ≠ suiteRatchet ∨ kind ≠ kindPair then refuse .unsupported
    let id ← need (Reader.arr 16)
    let dhPub ← need (Reader.arr 32)
    let pn ← need Reader.u32
    let n ← need Reader.u32
    let flag ← need Reader.u8
    let initEk ← if flag = 0 then pure none
      else if flag = 1 then some <$> need (Reader.arr 32)
      else refuse (.malformed "init flag")
    let rest ← get
    if bytes.length - rest.length > maxHeaderBytes then refuse (.malformed "header")
    let ctLen ← need Reader.u32
    if ctLen.toNat < tagLen ∨ maxCiphertext < ctLen.toNat then
      refuse (.malformed "ciphertext length")
    let ciphertext ← need (Reader.bytes ctLen.toNat)
    let rest ← get
    if rest ≠ [] then refuse (.malformed "trailing bytes")
    return { id, header := { dhPub, pn, n, initEk }, ciphertext }

/-- What the cipher authenticates beside the text. -/
def aad (env : Envelope) (sender recipient : B32) : Bytes :=
  putU8 envelopeVersion ++ putU8 suiteRatchet ++ putU8 kindPair ++ env.id.toList ++
    env.headerBytes ++ sender.toList ++ recipient.toList

end Envelope

/-! Sessions. -/

structure Skipped (S : Suite) where
  dh : B32
  n : UInt32
  key : S.Key
  nonce : S.Nonce

structure Session (S : Suite) where
  ownId : B32
  peerId : B32
  root : S.Key
  dhs : S.Secret
  dhsPub : B32
  dhr : Option B32
  cks : Option S.Key
  ckr : Option S.Key
  ns : UInt32
  nr : UInt32
  pn : UInt32
  /-- Oldest first. -/
  skipped : List (Skipped S)
  /-- The first-flight key that created the session (ours as initiator, the
  peer's as responder). -/
  originEk : B32
  initiator : Bool
  /-- Nothing has been received yet, so every message still carries the
  first-flight key. -/
  pendingInit : Bool

def Header.position (header : Header) : B32 × UInt32 := (header.dhPub, header.n)

def Skipped.position {S : Suite} (kept : Skipped S) : B32 × UInt32 := (kept.dh, kept.n)

namespace Session

variable {S : Suite}

/-- `ek` and `ratchet` are the two secrets drawn. -/
def newInitiator (me : Identity S) (peerId : B32) (ek ratchet : S.Secret) :
    Except CryptoError (Session S) := do
  let peerDh ← peerDhPublic S peerId
  let ekPub := S.publicKey ek
  let dh1 ← dh S me.dhSecret peerDh
  let dh2 ← dh S ek peerDh
  let sk := S.kdfFirstFlight dh1 dh2 me.id peerId ekPub
  let shared ← dh S ratchet peerDh
  let (root, cks) := S.kdfRoot sk shared
  return {
    ownId := me.id
    peerId := peerId
    root := root
    dhs := ratchet
    dhsPub := S.publicKey ratchet
    dhr := some peerDh
    cks := some cks
    ckr := none
    ns := 0
    nr := 0
    pn := 0
    skipped := []
    originEk := ekPub
    initiator := true
    pendingInit := true }

/-- The state of a responder before it has opened the first message. -/
def newResponder (me : Identity S) (peerId peerEk : B32) : Except CryptoError (Session S) := do
  let peerDh ← peerDhPublic S peerId
  let dh1 ← dh S me.dhSecret peerDh
  let dh2 ← dh S me.dhSecret peerEk
  let sk := S.kdfFirstFlight dh1 dh2 peerId me.id peerEk
  return {
    ownId := me.id
    peerId := peerId
    root := sk
    dhs := me.dhSecret
    dhsPub := me.dhPublic
    dhr := none
    cks := none
    ckr := none
    ns := 0
    nr := 0
    pn := 0
    skipped := []
    originEk := peerEk
    initiator := false
    pendingInit := false }

variable (s : Session S)

/-- `id` is the random envelope id.  The chain key is replaced before the
counter is checked, so a full counter uses a key up without an envelope. -/
def sealWith (id : B16) (plaintext : Bytes) (layer : Option S.Key) :
    Session S × Except CryptoError Envelope :=
  match pad plaintext with
  | .error e => (s, .error e)
  | .ok padded =>
    match s.cks with
    | none => (s, .error .noSendChain)
    | some cks =>
      let step := S.kdfChain cks
      let env : Envelope := {
        id := id
        header := {
          dhPub := s.dhsPub
          pn := s.pn
          n := s.ns
          initEk := if s.pendingInit then some s.originEk else none }
        ciphertext := [] }
      let a := env.aad s.ownId s.peerId
      let key := sealingKey S step.key layer s.dhsPub s.ns
      let env := { env with ciphertext := S.aeadSeal key step.nonce a padded }
      let s := { s with cks := some step.next }
      if s.ns = 0xffffffff then (s, .error .badState)
      else ({ s with ns := s.ns + 1 }, .ok env)

/-- A key joins the table; the oldest one leaves it when the table is full. -/
def keepSkipped (skipped : List (Skipped S)) (kept : Skipped S) : List (Skipped S) :=
  (if skipped.length ≥ maxStoredSkipped then skipped.tail else skipped) ++ [kept]

/-- The loop of `skip_until`, for the `count` keys from `nr` on. -/
def skipKeys (dh : B32) : Nat → Session S → S.Key → Session S
  | 0, s, ck => { s with ckr := some ck }
  | count + 1, s, ck =>
    let step := S.kdfChain ck
    skipKeys dh count { s with
        skipped := keepSkipped s.skipped ⟨dh, s.nr, step.key, step.nonce⟩
        nr := s.nr + 1 } step.next

/-- Keep the message keys of the receiving chain up to (not including) `bound`. -/
def skipUntil (bound : UInt32) : Except CryptoError (Session S) := match s.ckr with
  | none => .ok s
  | some ck =>
    if bound ≤ s.nr then .ok s
    else if bound - s.nr > maxSkip then .error .tooFarAhead
    else match s.dhr with
      | none => .error .badState
      | some dh => .ok (skipKeys dh (bound - s.nr).toNat s ck)

/-- `fresh` is the next ratchet secret. -/
def dhRatchet (peerPub : B32) (fresh : S.Secret) : Except CryptoError (Session S) := do
  let shared ← dh S s.dhs peerPub
  let (root, ckr) := S.kdfRoot s.root shared
  let shared ← dh S fresh peerPub
  let (root, cks) := S.kdfRoot root shared
  return { s with
    pn := s.ns
    ns := 0
    nr := 0
    dhr := some peerPub
    root := root
    ckr := some ckr
    dhs := fresh
    dhsPub := S.publicKey fresh
    cks := some cks }

/-- The session the message of `header` is opened in: a new key of the peer
turns the ratchet, a known one must not be behind. -/
def turnTo (header : Header) (fresh : S.Secret) : Except CryptoError (Session S) :=
  if s.dhr ≠ some header.dhPub then do
    let next ← s.skipUntil header.pn
    next.dhRatchet header.dhPub fresh
  else if header.n < s.nr then .error .replay
  else .ok s

/-- The second half of `open_with`, on a copy of the session. -/
def openNext (env : Envelope) (layer : Option S.Key) (fresh : S.Secret) :
    Except CryptoError (Session S × Bytes) := do
  let next ← s.turnTo env.header fresh
  let next ← next.skipUntil env.header.n
  match next.ckr with
  | none => .error .authentication
  | some ckr =>
    let step := S.kdfChain ckr
    let padded ← openMsg S step.key step.nonce (env.aad s.peerId s.ownId) env.ciphertext layer
      env.header.dhPub env.header.n
    let pt ← unpad padded
    if next.nr = 0xffffffff then .error .badState
    else .ok ({ next with ckr := some step.next, nr := next.nr + 1, pendingInit := false }, pt)

def openWith (env : Envelope) (layer : Option S.Key) (fresh : S.Secret) :
    Session S × Except CryptoError Bytes :=
  match s.skipped.find? (·.position = env.header.position) with
  | some kept =>
    match openMsg S kept.key kept.nonce (env.aad s.peerId s.ownId) env.ciphertext layer kept.dh kept.n >>= unpad with
    | .error e => (s, .error e)
    | .ok pt =>
      ({ s with skipped := s.skipped.eraseP (·.position = env.header.position) }, .ok pt)
  | none =>
    match s.openNext env layer fresh with
    | .error e => (s, .error e)
    | .ok (next, pt) => (next, .ok pt)

/-- The responder session for a first-flight message exists only if the message
authenticates. -/
def accept (me : Identity S) (peerId : B32) (env : Envelope) (fresh : S.Secret) :
    Except CryptoError (Session S × Bytes) :=
  match env.header.initEk with
  | none => .error (.malformed "no first-flight key")
  | some ek => do
    let s ← newResponder me peerId ek
    match s.openWith env none fresh with
    | (_, .error e) => .error e
    | (s, .ok pt) => .ok (s, pt)

end Session

end Miasma.Chat
