import Miasma.Protocol.Fragment

namespace Miasma.Protocol

open Data

/-! The hybrid key exchange (`protocol/hybrid.rs`), with the cryptography and the
negotiation of capabilities left abstract. -/

def suiteIdHybrid : UInt16 := 2

/-- `HEADER_LEN + EK_LEN`. -/
def maxMessageLen : Nat := 1222

structure KexConfig where
  strict : Bool
  ours : Bytes
  remote : Bytes
  initiatorId : Bytes
  responderId : Bytes

/-- The parts of the exchange that are not modelled.  A `Seed` is what `derive`
feeds to HKDF: the transcript and the shared secrets. -/
structure Exchange (Key : Type) where
  Seed : Type
  Init : Type
  Coins : Type
  /-- `Capabilities::current().encode()`. -/
  currentOffer : Bytes
  /-- `Capabilities::decode` accepts the offer. -/
  readableOffer : Bytes → Bool
  /-- `negotiate_offer` agrees on the hybrid suite and on fragments; the last
  argument says whether the hybrid suite is required. -/
  negotiate : Bytes → Option Bytes → Bool → Bool
  /-- `Initiator::start`: the state kept and the first message. -/
  start : KexConfig → Coins → Option (Init × Bytes)
  suiteId : Init → UInt16
  /-- `Initiator::finish`. -/
  finish : Init → Bytes → Option Seed
  /-- The first message fits the plan of the responder. -/
  readableMsg : KexConfig → Bytes → Bool
  /-- The hash the replay guard keeps. -/
  replayId : Bytes → B32
  /-- The rest of `Responder::accept`: the seed and the second message. -/
  answer : KexConfig → Bytes → Coins → Option (Seed × Bytes)
  sessionKey : Seed → Key
  confirmInitiator : Seed → B32
  confirmResponder : Seed → B32

/-- The outputs of HKDF under one label differ for different inputs. -/
structure Exchange.Ideal {Key : Type} (X : Exchange Key) : Prop where
  key_inj : Function.Injective X.sessionKey
  initiator_inj : Function.Injective X.confirmInitiator
  responder_inj : Function.Injective X.confirmResponder

/-- A computable instance: the coins are the seed and are sent as they are. -/
def Exchange.echo {Key : Type} (sessionKey : B32 → Key) : Exchange Key where
  Seed := B32
  Init := B32
  Coins := B32
  currentOffer := [1]
  readableOffer _ := true
  negotiate _ wire _ := wire.isSome
  start _ coins := some (coins, [1, 1, 0, 2] ++ coins.toList)
  suiteId _ := suiteIdHybrid
  finish _ msg2 := ByteVec.ofList? 32 (msg2.drop 4)
  readableMsg _ _ := true
  replayId msg1 := (ByteVec.ofList? 32 (msg1.drop 4)).getD default
  answer _ _ coins := some (coins, [2, 1, 0, 2] ++ coins.toList)
  sessionKey
  confirmInitiator := id
  confirmResponder := id

structure ReplayGuard where
  capacity : Nat
  order : List B32
  positive : 0 < capacity

namespace ReplayGuard

def new (capacity : Nat) : ReplayGuard := ⟨max capacity 1, [], by omega⟩

def contains (guard : ReplayGuard) (id : B32) : Bool := guard.order.contains id

def insert (guard : ReplayGuard) (id : B32) : ReplayGuard := if guard.contains id then guard
  else
    let order := guard.order ++ [id]
    { guard with order := order.drop (order.length - guard.capacity) }

end ReplayGuard

inductive AcceptError where
  | replay
  | refused

def respond {Key : Type} (X : Exchange Key) (cfg : KexConfig) (msg1 : Bytes)
    (guard : ReplayGuard) (coins : X.Coins) :
    ReplayGuard × Except AcceptError (X.Seed × Bytes) :=
  if !X.readableMsg cfg msg1 then (guard, .error .refused)
  else if guard.contains (X.replayId msg1) then (guard, .error .replay)
  else match X.answer cfg msg1 coins with
    | none => (guard, .error .refused)
    | some established => (guard.insert (X.replayId msg1), .ok established)

def fragmentMessage (handshakeId : UInt64) (suiteId : UInt16) (msg : Bytes)
    (maxPayload : Nat) : Except FragmentError (List Bytes) := do
  let fragments ← fragment handshakeId suiteId msg maxPayload
  return fragments.map HandshakeFragment.encode

structure Assembled where
  handshakeId : UInt64
  suiteId : UInt16
  data : Bytes

def messageReassembler : Reassembler := Reassembler.new ⟨maxMessageLen, 64, 8, 10000⟩

inductive FrameError where
  | fragment (e : FragmentError)
  | suiteMismatch

/-- Feeds one encoded frame.  The suite of the fragment header must be the one
inside the message. -/
def pushFrame (r : Reassembler) (frame : Bytes) (now : UInt64) :
    Reassembler × Except FrameError (Option Assembled) :=
  match HandshakeFragment.decode frame with
  | .error e => (r, .error (.fragment e))
  | .ok f =>
    match r.push f now with
    | (r, .error e) => (r, .error (.fragment e))
    | (r, .ok (.complete handshakeId suite data)) =>
      if data.length < 4 ∨ ofBE ((data.drop 2).take 2) ≠ suite.toNat then
        (r, .error .suiteMismatch)
      else (r, .ok (some ⟨handshakeId, suite, data⟩))
    | (r, .ok .pending) | (r, .ok .duplicate) => (r, .ok none)

end Miasma.Protocol
