import Miasma.Chat.Crypto
import Miasma.Data.Applied

namespace Miasma.Chat

open Data

/-! What is remembered about one contact besides the messages
(`PeerState` of `chat/store.rs`). -/

def maxAbove : Nat := 256
def maxSeenEks : Nat := 16
def maxRecentEnv : Nat := 64

structure PeerState (S : Suite) where
  peer : B32
  /-- Last sequence number given to a message for this contact. -/
  sendSeq : UInt64
  /-- Applied sequence numbers of the contact (`recv_floor`, `recv_above`). -/
  recv : Applied maxAbove
  /-- First-flight keys of sessions already used. -/
  seenEks : List B32
  /-- Envelope ids applied lately. -/
  recentEnv : List B16
  count : UInt64
  lastMs : UInt64
  session : Option (Session S)
  readUpTo : UInt64
  readReported : UInt64
  receiptsOff : Bool

namespace PeerState

variable {S : Suite}

def new (S : Suite) (peer : B32) : PeerState S where
  peer := peer
  sendSeq := 0
  recv := Applied.none maxAbove
  seenEks := []
  recentEnv := []
  count := 0
  lastMs := 0
  session := none
  readUpTo := 0
  readReported := 0
  receiptsOff := false

variable (st : PeerState S)

def nextSeq : PeerState S × UInt64 := ({ st with sendSeq := st.sendSeq + 1 }, st.sendSeq + 1)

def isNewSeq (seq : UInt64) : Bool := st.recv.isNew seq

def markSeq (seq : UInt64) : PeerState S := { st with recv := st.recv.mark seq }

/-- A bounded queue: the oldest entry leaves when it is full. -/
def remember (bound : Nat) (queue : List α) (entry : α) : List α :=
  (if queue.length ≥ bound then queue.tail else queue) ++ [entry]

def rememberEk (ek : B32) : PeerState S := if st.seenEks.contains ek then st
  else { st with seenEks := remember maxSeenEks st.seenEks ek }

def rememberEnvelope (id : B16) : PeerState S := { st with recentEnv := remember maxRecentEnv st.recentEnv id }

end PeerState

end Miasma.Chat
