import Miasma.Data.Bytes

namespace Miasma.Repair

open Data Option

/-! When a repair may be tried again (`repair/schedule.rs`).  The shift drops high bits, and the
jitter comes after the cap. -/

/-- The content, the segment and the slot. -/
abbrev PieceKey := B32 × UInt32 × UInt16

structure BackoffPolicy where
  baseSecs : Nat
  maxSecs : Nat
  successCooldownSecs : Nat
  jitterPercent : Nat

structure AttemptEntry where
  failures : Nat
  nextAllowed : Nat

inductive Attempt where
  | record (key : PieceKey) (now : Nat) (success : Bool)
  | prune (now : Nat)

variable (blake3 : Bytes → B32)

namespace BackoffPolicy

variable (p : BackoffPolicy)

def jitter : Nat := min p.jitterPercent 50

/-- The delay moved by up to `jitter` percent. -/
def spread (raw roll : Nat) : Nat :=
  let offsetPct : Int := (roll % (2 * p.jitter + 1) : Nat) - p.jitter
  (max 0 (min (raw + (raw * offsetPct).tdiv 100) (2 ^ 64 - 1))).toNat

def failureDelay (key : PieceKey) (failures : Nat) : Nat :=
  let raw := min (p.baseSecs * 2 ^ min (failures - 1) 32 % 2 ^ 64) p.maxSecs
  if p.jitter = 0 ∨ raw = 0 then raw
  else
    let digest := blake3 (key.1.toList ++ toLE 4 key.2.1.toNat ++ toLE 2 key.2.2.toNat ++ toLE 4 failures)
    p.spread raw (ofLE (digest.toList.take 2))

end BackoffPolicy

structure AttemptLedger where
  policy : BackoffPolicy
  entries : PieceKey → Option AttemptEntry

namespace AttemptLedger

variable (ledger : AttemptLedger) (key : PieceKey) (now : Nat)

def new (policy : BackoffPolicy) : AttemptLedger := ⟨policy, fun _ => none⟩

def allowed : Bool := (ledger.entries key).all (·.nextAllowed ≤ now)

def failures : Nat := (ledger.entries key).elim 0 (·.failures)

def record (success : Bool) : AttemptLedger :=
  let entry : AttemptEntry := if success then ⟨0, min (now + ledger.policy.successCooldownSecs) (2 ^ 64 - 1)⟩
    else
      let failures := min (ledger.failures key + 1) (2 ^ 32 - 1)
      ⟨failures, min (now + ledger.policy.failureDelay blake3 key failures) (2 ^ 64 - 1)⟩
  { ledger with entries := Function.update ledger.entries key entry }

def prune : AttemptLedger :=
  { ledger with entries := fun key => (ledger.entries key).filter fun e => 0 < e.failures || now < e.nextAllowed }

def step : Attempt → AttemptLedger
  | .record key now success => ledger.record blake3 key now success
  | .prune now => ledger.prune now

end AttemptLedger

namespace AttemptLedger

variable {blake3} {ledger : AttemptLedger} {key : PieceKey}

end AttemptLedger

end Miasma.Repair
