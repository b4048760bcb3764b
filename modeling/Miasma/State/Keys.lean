import Miasma.Data.Bytes

namespace Miasma.State

open Data

/-! Classes of protected state, their keys and the errors of reading them (`state_crypto/mod.rs`). -/

inductive Label where
  | contacts
  | pushHistory
  | replicationWal
  | transferJournal
  | directedMeta
  | storeIndex
  | desktopPrefs
  | chatHistory
  | chatSessions
  | chatOutbox
  | chatGroups
  | chatGroupHistory
  | pushOutbox
  | chatAnchor
  | chatCustody
deriving DecidableEq

namespace Label

def id : Label → UInt8
  | contacts => 1
  | pushHistory => 2
  | replicationWal => 3
  | transferJournal => 4
  | directedMeta => 5
  | storeIndex => 6
  | desktopPrefs => 7
  | chatHistory => 8
  | chatSessions => 9
  | chatOutbox => 10
  | chatGroups => 11
  | chatGroupHistory => 12
  | pushOutbox => 13
  | chatAnchor => 14
  | chatCustody => 15

def name : Label → String
  | contacts => "contacts"
  | pushHistory => "push-history"
  | replicationWal => "replication-wal"
  | transferJournal => "transfer-journal"
  | directedMeta => "directed-meta"
  | storeIndex => "store-index"
  | desktopPrefs => "desktop-prefs"
  | chatHistory => "chat-history"
  | chatSessions => "chat-sessions"
  | chatOutbox => "chat-outbox"
  | chatGroups => "chat-groups"
  | chatGroupHistory => "chat-group-history"
  | pushOutbox => "push-outbox"
  | chatAnchor => "chat-anchor"
  | chatCustody => "chat-custody"

def maxRecordBytes : Label → Nat
  | replicationWal => 16 * 1024 * 1024
  | transferJournal => 1024 * 1024
  | _ => 64 * 1024

def maxDocumentBytes : Label → Nat
  | storeIndex => 256 * 1024 * 1024
  | _ => 16 * 1024 * 1024

theorem maxRecordBytes_le (label : Label) : label.maxRecordBytes ≤ 16 * 1024 * 1024 := by
  cases label <;> decide

end Label

inductive StateError where
  | keyMissing
  | keyInvalid (reason : String)
  | notProtected
  | unsupportedVersion (version : UInt8)
  | wrongLabel (expected found : UInt8)
  | authentication
  | truncated
  | corrupt (offset : Nat)
  | tooLarge (size limit : Nat)
  | migration (reason : String)
  | io (reason : String)
deriving DecidableEq

def nonceLen : Nat := 24
def tagLen : Nat := 16

/-- XChaCha20-Poly1305 and the key derivations below the state key, which come from
libraries. -/
structure Ciphers where
  /-- `encrypt_in_place_detached` under a key, a nonce and associated data. -/
  sealDetached : B32 → ByteVec nonceLen → Bytes → Bytes → Option (Bytes × ByteVec tagLen)
  /-- `decrypt_in_place_detached` of a ciphertext and a tag. -/
  openDetached : B32 → ByteVec nonceLen → Bytes → Bytes → Bytes → Option Bytes
  deriveStateDocKey : B32 → String → B32
  deriveStateLogKey : B32 → B16 → B32

/-- A computable instance, for runs of the model on concrete values: the ciphertext is the
plaintext and every tag is the same. -/
def Ciphers.plain : Ciphers where
  sealDetached _ _ _ plaintext := some (plaintext, .fill tagLen 1)
  openDetached _ _ _ ciphertext tag := if tag = List.replicate tagLen 1 then some ciphertext else none
  deriveStateDocKey key _ := key
  deriveStateLogKey key _ := key

structure StateKeys where
  cell : Option B32

def StateKeys.docKey (C : Ciphers) (keys : StateKeys) (label : Label) : Except StateError B32 :=
  match keys.cell with
  | none => .error (.keyInvalid "the state key was erased by a wipe")
  | some stateKey => .ok (C.deriveStateDocKey stateKey label.name)

end Miasma.State
