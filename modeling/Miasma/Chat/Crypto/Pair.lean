import Miasma.Chat.Crypto.Open

namespace Miasma.Chat

open Data

/-! Two sessions and the network between them.  Envelopes stay on the network and are delivered
in any order, any number of times or never; the log keeps every delivery. -/

variable {S : Suite}

inductive Side where
  | initiator
  | responder
deriving DecidableEq

def Side.other : Side → Side
  | .initiator => .responder
  | .responder => .initiator

/-- The two people, and the secrets the initiator draws for its session. -/
structure Parties (S : Suite) where
  alice : Identity S
  bob : Identity S
  ek : S.Secret
  ratchet : S.Secret

def Parties.id (parties : Parties S) : Side → B32
  | .initiator => parties.alice.id
  | .responder => parties.bob.id

/-- An envelope on the network. -/
structure Posted (S : Suite) extends Sent S where
  sender : Side

structure Delivery (S : Suite) where
  index : Nat
  recipient : Side
  header : Header
  before : Option (Session S)
  after : Option (Session S)
  result : Except CryptoError Bytes

def Delivery.opened (d : Delivery S) : Bool := match d.result with
  | .ok _ => true
  | .error _ => false

/-- The recipient's table of skipped keys lost an entry to its bound. -/
def Delivery.Evicts (d : Delivery S) : Prop := d.opened ∧ d.before.any
    (fun s => maxStoredSkipped < s.skipped.length + s.keysAhead d.header)

instance (d : Delivery S) : Decidable d.Evicts := inferInstanceAs (Decidable (_ ∧ _))

structure Pair (S : Suite) where
  initiator : Session S
  responder : Option (Session S)
  posted : List (Posted S)
  log : List (Delivery S)

inductive Event (S : Suite) where
  | post (side : Side) (id : B16) (plaintext : Bytes) (layer : Option S.Key)
  /-- `fresh` is the secret the recipient draws if its ratchet turns. -/
  | deliver (index : Nat) (layer : Option S.Key) (fresh : S.Secret)

def Event.secret : Event S → Option S.Secret
  | .post .. => none
  | .deliver _ _ fresh => some fresh

namespace Pair

def session (p : Pair S) : Side → Option (Session S)
  | .initiator => some p.initiator
  | .responder => p.responder

def put (p : Pair S) (side : Side) (s : Session S) : Pair S := match side with
  | .initiator => { p with initiator := s }
  | .responder => { p with responder := some s }

def record (p : Pair S) (d : Delivery S) : Pair S := { p with log := p.log ++ [d] }

/-- The envelope `m` arrives.  Only the responder can be without a session. -/
def receive (parties : Parties S) (p : Pair S) (index : Nat) (m : Posted S)
    (layer : Option S.Key) (fresh : S.Secret) : Pair S :=
  let side := m.sender.other
  match p.session side with
  | some s =>
    let (next, result) := s.openWith m.env layer fresh
    (p.put side next).record ⟨index, side, m.env.header, some s, some next, result⟩
  | none =>
    match Session.accept parties.bob parties.alice.id m.env fresh with
    | .ok (s, pt) => (p.put side s).record ⟨index, side, m.env.header, none, some s, .ok pt⟩
    | .error e => p.record ⟨index, side, m.env.header, none, none, .error e⟩

def step (parties : Parties S) (p : Pair S) : Event S → Pair S
  | .post side id plaintext layer =>
    match p.session side with
    | none => p
    | some s =>
      let (next, result) := s.sealWith id plaintext layer
      match result with
      | .ok env =>
        let p := p.put side next
        { p with posted := p.posted ++ [⟨⟨env, plaintext, layer⟩, side⟩] }
      | .error _ => p.put side next
  | .deliver index layer fresh =>
    match p.posted[index]? with
    | none => p
    | some m => p.receive parties index m layer fresh

end Pair

/-- The initiator's session is made, then the events happen. -/
def Parties.run (parties : Parties S) (events : List (Event S)) : Except CryptoError (Pair S) := do
  let s ← Session.newInitiator parties.alice parties.bob.id parties.ek parties.ratchet
  return events.foldl (Pair.step parties) ⟨s, none, [], []⟩

end Miasma.Chat
