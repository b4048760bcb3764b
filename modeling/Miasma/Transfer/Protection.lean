import Miasma.Dissolution.Pipeline

namespace Miasma.Transfer

open Data Dissolution

/-! Password protection of a transfer (`transfer/protection.rs`). -/

def maxMKib : UInt32 := 128 * 1024
def maxTCost : UInt32 := 6
def maxPCost : UInt32 := 2
def minMKib : UInt32 := 8

structure PasswordProtection where
  mKib : UInt32
  tCost : UInt32
  pCost : UInt32
  salt : B16
  keyCheck : B16
deriving DecidableEq

inductive Protection where
  | unprotected
  | password (protection : PasswordProtection)
deriving DecidableEq

def Protection.isPassword : Protection → Bool
  | .unprotected => false
  | .password _ => true

/-- Argon2id of a password and a salt, with its memory, its passes and its lanes. -/
structure PasswordKdf where
  argon2id : String → B16 → UInt32 → UInt32 → UInt32 → Except MiasmaError B32

def validateCost (mKib tCost pCost : UInt32) : Except MiasmaError Unit := if pCost < 1 ∨ maxPCost < pCost then
    .error (.invalidManifest s!"argon2 p_cost {pCost} outside 1..={maxPCost}")
  else if tCost < 1 ∨ maxTCost < tCost then
    .error (.invalidManifest s!"argon2 t_cost {tCost} outside 1..={maxTCost}")
  else
    let minM := if minMKib ≤ 8 * pCost then 8 * pCost else minMKib
    if mKib < minM ∨ maxMKib < mKib then
      .error (.invalidManifest s!"argon2 m_kib {mKib} outside {minM}..={maxMKib}")
    else .ok ()

/-- `key_check_tag`: the first sixteen bytes of the expansion. -/
def keyCheckTag (L : Libraries) (pwKey : B32) : Except MiasmaError B16 := do
  let expanded ← (L.hkdf [] pwKey.toList (utf8 "miasma-pw-check-v1")).mapError .keyDerivation
  return ⟨expanded.toList.take 16, by simp [expanded.length_toList]⟩

namespace PasswordProtection

variable (protection : PasswordProtection)

def validate : Except MiasmaError Unit := validateCost protection.mKib protection.tCost protection.pCost

def unlock (L : Libraries) (K : PasswordKdf) (password : String) : Except MiasmaError UnlockedKey := do
  protection.validate
  let pwKey ← K.argon2id password protection.salt protection.mKib protection.tCost protection.pCost
  let tag ← keyCheckTag L pwKey
  if tag = protection.keyCheck then .ok ⟨pwKey⟩ else .error .wrongPassword

end PasswordProtection

end Miasma.Transfer
