import Miasma.Data.Reader
import Miasma.Primitives

namespace Miasma.Chat.Group

open Data Reader ByteVec

/-! Signed group membership (`chat/group/membership.rs`).  Every change of the member list is a
signed descriptor that names the hash of the one before. -/

def descriptorVersion : UInt8 := 1
def maxMembers : Nat := 32
def maxNameBytes : Nat := 192
def maxHintBytes : Nat := 24
def maxChain : Nat := 8

def hashLabel : String := "miasma group v1 descriptor hash"
def signLabel : String := "miasma group v1 descriptor signature"

inductive Role where
  | member
  | admin
deriving DecidableEq

def Role.code : Role → UInt8
  | .member => 0
  | .admin => 1

def Role.fromCode (code : UInt8) : Option Role :=
  if code = 0 then some .member else if code = 1 then some .admin else none

structure Member where
  id : B32
  role : Role
  hint : String
deriving DecidableEq

inductive DescError where
  | malformed
  | badSignature
  | wrongGroup
  | badChain
  | notAuthorized
  | noAdmin
  | tooManyMembers
  | gap
deriving DecidableEq

structure Descriptor where
  gid : B16
  epoch : UInt32
  name : String
  createdMs : UInt64
  prevHash : B32
  members : List Member
  signer : B32
  sig : ByteVec 64
deriving DecidableEq

/-- `u32::saturating_add(1)`. -/
def saturatingSucc (value : UInt32) : UInt32 := if value = 0xffffffff then value else value + 1

theorem toNat_saturatingSucc : (saturatingSucc value).toNat = min (value.toNat + 1) 4294967295 := by
  unfold saturatingSucc
  have bound := value.toNat_lt
  split
  · rename_i top
    subst top
    rfl
  · rename_i below
    have different : value.toNat ≠ 4294967295 := fun same => below (UInt32.toNat_inj.mp same)
    rw [UInt32.toNat_add]
    simp only [UInt32.reduceToNat]
    omega

namespace Member

def encode (member : Member) : Bytes := member.id.toList ++ putU8 member.role.code ++ putText8 member.hint

def read : Reader Member := do
  let id ← arr 32
  let code ← u8
  let role ← lift (Role.fromCode code)
  let hint ← text8 maxHintBytes
  return { id, role, hint }

end Member

namespace Descriptor

variable (P : Primitives) (d : Descriptor)

/-- Everything the signature covers: the whole encoding up to and including
the signer. -/
def signedPart : Bytes := putU8 descriptorVersion ++ d.gid.toList ++ putU32 d.epoch ++ putU64 d.createdMs ++
    d.prevHash.toList ++ putText16 d.name ++ putList8 Member.encode d.members ++ d.signer.toList

def digestToSign : B32 := P.deriveKey signLabel d.signedPart

def encode : Bytes := d.signedPart ++ d.sig.toList

def hash : B32 := P.deriveKey hashLabel d.encode

/-- The loop of `check_shape`: the members before the current one are `earlier`. -/
def checkMembers : List Member → List Member → Except DescError Unit
  | _, [] => .ok ()
  | earlier, m :: rest =>
    if m.hint.utf8ByteSize > maxHintBytes || !P.validKey m.id then .error .malformed
    else if earlier.any (·.id == m.id) then .error .malformed
    else checkMembers (earlier ++ [m]) rest

def checkShape : Except DescError Unit :=
  if d.name.utf8ByteSize = 0 || d.name.utf8ByteSize > maxNameBytes then .error .malformed
  else if d.members.isEmpty then .error .malformed
  else if d.members.length > maxMembers then .error .tooManyMembers
  else do
    checkMembers P [] d.members
    if !d.members.any (·.role == .admin) then .error .noAdmin
    else .ok ()

def read : Reader Descriptor := do
  let version ← u8
  check (version = descriptorVersion)
  let gid ← arr 16
  let epoch ← u32
  let createdMs ← u64
  let prevHash ← arr 32
  let name ← text16 1 maxNameBytes
  let members ← list8 1 maxMembers Member.read
  let signer ← arr 32
  let sig ← arr 64
  return { gid, epoch, name, createdMs, prevHash, members, signer, sig }

/-- Shape only; no signature and no relation to other descriptors. -/
def decode (bytes : Bytes) : Except DescError Descriptor := match read.complete bytes with
  | none => .error .malformed
  | some d =>
    if d.epoch = 0 then .error .malformed
    else do
      d.checkShape P
      .ok d

/-- `key` becomes the signer. -/
def signed (key : B32) : Descriptor :=
  let d := { d with signer := P.verifyingKey key }
  { d with sig := P.sign key (d.digestToSign P) }

def verifySignature : Except DescError Unit :=
  if P.keyParses d.signer && P.verifyStrict d.signer (d.digestToSign P) d.sig then .ok ()
  else .error .badSignature

def member (id : B32) : Option Member := d.members.find? (·.id == id)

def isMember (id : B32) : Bool := (d.member id).isSome

def isAdmin (id : B32) : Bool := (d.member id).any (·.role == .admin)

/-- `new` is `d` with only `who` taken out (same order, same roles). -/
def isLeaveOf (d new : Descriptor) (who : B32) : Bool := if !d.isMember who || new.name != d.name then false
  else
    let expect := d.members.filter (·.id != who)
    expect.length == new.members.length && (expect.zip new.members).all (fun pair => pair.1 == pair.2)

/-- Whether `new` may follow `d`.  Does not check the signature. -/
def mayBeFollowedBy (d new : Descriptor) : Except DescError Unit :=
  if new.gid ≠ d.gid ∨ new.createdMs ≠ d.createdMs then .error .wrongGroup
  else if new.epoch ≠ saturatingSucc d.epoch ∨ new.prevHash ≠ d.hash P then .error .badChain
  else if d.isAdmin new.signer || d.isLeaveOf new new.signer then .ok ()
  else .error .notAuthorized

/-- The three checks both accepting branches of `push` make. -/
def accepts (d new : Descriptor) : Except DescError Unit := do
  new.checkShape P
  new.verifySignature P
  d.mayBeFollowedBy P new

end Descriptor

inductive Pushed where
  | advanced
  | known
  | replaced

/-- The newest descriptors of one group, oldest first.  A chain is never
empty. -/
structure Chain where
  items : List Descriptor
  nonempty : items ≠ []
deriving DecidableEq

namespace Chain

variable (P : Primitives)

def fromRoot (d : Descriptor) : Except DescError Chain := do
  d.checkShape P
  d.verifySignature P
  if !d.isAdmin d.signer then .error .notAuthorized
  else if d.epoch = 1 ∧ d.prevHash ≠ fill 32 0 then .error .badChain
  else .ok ⟨[d], by simp⟩

variable (chain : Chain)

def latest : Descriptor := chain.items.getLast chain.nonempty

def gid : B16 := chain.latest.gid

def epoch : UInt32 := chain.latest.epoch

def everMember (id : B32) : Bool := chain.items.any (·.isMember id)

/-- `items.push(d)` and the removal of the oldest item above the bound. -/
def append (d : Descriptor) : Chain := ⟨if (chain.items ++ [d]).length > maxChain then (chain.items ++ [d]).tail
    else chain.items ++ [d], by
    have some := List.length_pos_iff.mpr chain.nonempty
    intro empty
    have short := congrArg List.length empty
    split at short <;> simp only [List.length_tail, List.length_append, List.length_singleton,
        List.length_nil] at short <;> omega⟩

/-- `items[n - 1] = d`. -/
def replaceLatest (d : Descriptor) : Chain := ⟨chain.items.dropLast ++ [d], by simp⟩

/-- A refused descriptor leaves the chain as it was: every error is returned
before the first assignment. -/
def push (d : Descriptor) : Except DescError (Chain × Pushed) :=
  let latest := chain.latest
  if d.gid ≠ latest.gid then .error .wrongGroup
  else if d.epoch > saturatingSucc latest.epoch then .error .gap
  else if d.epoch ≤ latest.epoch then
    if d.epoch < latest.epoch ∨ d.hash P = latest.hash P then .ok (chain, .known)
    -- A competing change on the same predecessor replaces ours only with the
    -- smaller hash.
    else if d.prevHash ≠ latest.prevHash ∨ ¬ d.hash P < latest.hash P then .ok (chain, .known)
    else match chain.items.dropLast.getLast? with
      | none => .error .badChain
      | some before => do
        before.accepts P d
        .ok (chain.replaceLatest d, .replaced)
  else do
    latest.accepts P d
    .ok (chain.append d, .advanced)

/-- The chain after offering it `d`, whether `d` was accepted or refused. -/
def offer (d : Descriptor) : Chain := match chain.push P d with
  | .ok (next, _) => next
  | .error _ => chain

/-- The loop of `push_all`: stops at the first descriptor that cannot be
applied. -/
def pushEach (chain : Chain) : List Descriptor → Chain × Except DescError Unit
  | [] => (chain, .ok ())
  | d :: rest =>
    match chain.push P d with
    | .ok (next, _) => next.pushEach rest
    | .error e => (chain, .error e)

/-- Returns the chain and whether the newest descriptor changed. -/
def pushAll (ds : List Descriptor) : Chain × Except DescError Bool :=
  let (next, res) := chain.pushEach P ds
  let changed := next.latest.hash P != chain.latest.hash P
  match res with
  | .error e => if changed then (next, .ok changed) else (next, .error e)
  | .ok () => (next, .ok changed)

/-- Rebuild from stored descriptors: the oldest by the root rules, the others
one `push` each. -/
def fromItems (items : List Descriptor) : Except DescError Chain := match items with
  | [] => .error .malformed
  | first :: rest => do
    let chain ← fromRoot P first
    match chain.pushEach P rest with
    | (next, .ok ()) => .ok next
    | (_, .error e) => .error e

end Chain

/-! Concrete descriptors, for runs of the model on fixed values. -/

namespace Sample

def admin : B32 := fill 32 1

def guest : B32 := fill 32 2

def root : Descriptor := Descriptor.signed .checksum
    { gid := fill 16 9
      epoch := 1
      name := "team"
      createdMs := 1000
      prevHash := fill 32 0
      members := [⟨admin, .admin, ""⟩, ⟨guest, .member, ""⟩]
      signer := fill 32 0
      sig := fill 64 0 } admin

/-- The change of `before` to the given name and members, signed by `key`. -/
def change (before : Descriptor) (name : String) (members : List Member) (key : B32) : Descriptor :=
  Descriptor.signed .checksum { before with
      epoch := before.epoch + 1
      name := name
      prevHash := before.hash .checksum
      members := members } key

end Sample

end Miasma.Chat.Group
