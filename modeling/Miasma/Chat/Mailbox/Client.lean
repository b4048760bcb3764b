import Miasma.Data.Reader
import Miasma.Primitives
import Mathlib.Data.List.Dedup

namespace Miasma.Chat.Mailbox

open Data

/-! The side that uses holders (`chat/mailbox/client.rs`).  One collection asks every holder once,
so the answers of the `Transport` are functions. -/

/-- The short name of a recipient under which items for it are kept. -/
structure RecipientTag where
  bytes : B16
deriving DecidableEq

/-- One held item: the id of the sealed envelope in it. -/
structure ItemId where
  bytes : B16
deriving DecidableEq

namespace RecipientTag

def tagOf (P : Primitives) (context : String) (recipient : B32) : RecipientTag :=
  ⟨⟨(P.deriveKey context recipient.toList).toList.take 16, by
    simp [(P.deriveKey context recipient.toList).length_toList]⟩⟩

def forRecipient (P : Primitives) : B32 → RecipientTag := tagOf P "miasma chat custody recipient tag v1"

end RecipientTag

inductive DepositOutcome where
  | stored
  /-- Already held; nothing changed. -/
  | duplicate

inductive CustodyError where
  | disabled
  | notTrusted
  | tooBig
  | full
  | depositorBudget

inductive MailboxError where
  | unreachable
  | refused (e : CustodyError)

/-- One request and answer with a holder.  The answer to a removal is not read. -/
structure Transport where
  list : B32 → RecipientTag → UInt64 → Except MailboxError (List ItemId)
  fetch : B32 → RecipientTag → ItemId → UInt64 → Except MailboxError (Option Bytes)

def maxCollect : Nat := 128

def blobOf (sender : B32) (wire : Bytes) : Bytes := sender.toList ++ wire

/-! ## Collecting -/

structure CollectReport where
  /-- Distinct items handed to the receiver. -/
  offered : Nat
  taken : Nat
  /-- Copies of an item already seen from another holder in this round. -/
  repeated : Nat
  unreachable : Nat
deriving DecidableEq

structure Call where
  holder : B32
  id : ItemId
  sender : B32
  wire : Bytes
  accepted : Bool

/-- A collection under way.  `state` is what the closure `take` captured, `calls` what
it was called with. -/
structure Round (σ : Type) where
  rep : CollectReport
  seen : List ItemId
  takenIds : List ItemId
  /-- Removed from the holders afterwards, in this order. -/
  toDelete : List (B32 × ItemId)
  state : σ
  calls : List Call

namespace Round

def start (state : σ) : Round σ := ⟨⟨0, 0, 0, 0⟩, [], [], [], state, []⟩

end Round

def splitBlob (blob : Bytes) : Option (B32 × Bytes) :=
  (Reader.arr 32 blob).filter (!·.2.isEmpty)

section Collect

variable {σ : Type} (T : Transport) (take : σ → B32 → Bytes → σ × Bool)
  (tag : RecipientTag) (now : UInt64)

def hand (h : B32) (id : ItemId) (sender : B32) (wire : Bytes) (r : Round σ) : Round σ :=
  let (state, accepted) := take r.state sender wire
  let r := { r with
    rep := { r.rep with offered := r.rep.offered + 1 }
    state := state
    calls := r.calls ++ [⟨h, id, sender, wire, accepted⟩] }
  if accepted then
    { r with
      rep := { r.rep with taken := r.rep.taken + 1 }
      takenIds := r.takenIds ++ [id]
      toDelete := r.toDelete ++ [(h, id)] }
  else r

/-- One id of the list of `h`; `false` leaves the rest of the list. -/
def visit (h : B32) (id : ItemId) (r : Round σ) : Round σ × Bool := if id ∈ r.seen then
    ({ r with
      rep := { r.rep with repeated := r.rep.repeated + 1 }
      toDelete := if id ∈ r.takenIds then r.toDelete ++ [(h, id)] else r.toDelete }, true)
  else
    let r := { r with seen := r.seen ++ [id] }
    if maxCollect < r.seen.length then (r, false)
    else match T.fetch h tag id now with
      | .error _ => ({ r with rep := { r.rep with unreachable := r.rep.unreachable + 1 } }, false)
      | .ok none => (r, true)
      | .ok (some blob) =>
        match splitBlob blob with
        | none => (r, true)
        | some (sender, wire) => (hand take h id sender wire r, true)

def visitEach (h : B32) : List ItemId → Round σ → Round σ
  | [], r => r
  | id :: ids, r =>
    match visit T take tag now h id r with
    | (r, true) => visitEach h ids r
    | (r, false) => r

def askEach (me : B32) : List B32 → Round σ → Round σ
  | [], r => r
  | h :: holders, r =>
    if h = me then askEach me holders r
    else match T.list h tag now with
      | .error _ =>
        askEach me holders { r with rep := { r.rep with unreachable := r.rep.unreachable + 1 } }
      | .ok ids => askEach me holders (visitEach T take tag now h ids r)

def collectTagged (holders : List B32) (me : B32) (state : σ) : Round σ :=
  askEach T take tag now me holders (.start state)

end Collect

def collect (P : Primitives) (T : Transport) (holders : List B32) (me : B32)
    (now : UInt64) (take : σ → B32 → Bytes → σ × Bool) (state : σ) : Round σ :=
  collectTagged T take (.forRecipient P me) now holders me state

end Miasma.Chat.Mailbox
