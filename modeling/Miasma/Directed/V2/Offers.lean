import Miasma.Data.Keyed
import Miasma.Directed.Envelope

namespace Miasma.Directed.V2

open Data

/-! The table of the prekey offers that are not used yet (`directed/v2/offer_table.rs`). -/

variable {V : Type}

def offerTtl : Nat := 20

def maxOffersPerPeer : Nat := 100

abbrev OfferId := B16

/-- An offer of the table with the place it is held in. -/
structure Entry (V : Type) where
  peer : PeerId
  id : OfferId
  offer : V
  created : Nat

namespace Entry

/-- The last second of the lifetime counts. -/
def isLive (entry : Entry V) (now : Nat) : Bool := now - entry.created ≤ offerTtl

def key (entry : Entry V) : PeerId × OfferId := (entry.peer, entry.id)

end Entry

/-- The two maps of the code as one list: a place holds at most one offer. -/
structure OfferTable (V : Type) where
  entries : List (Entry V)
  distinct : Distinct Entry.key entries

namespace OfferTable

def empty : OfferTable V := ⟨[], .nil⟩

variable (table : OfferTable V) (peer : PeerId)

def retain (now : Nat) : OfferTable V where
  entries := table.entries.filter (fun entry => entry.peer ≠ peer || entry.isLive now)
  distinct := table.distinct.filter

variable (id : OfferId)

def remove : OfferTable V where
  entries := table.entries.filter (fun entry => entry.key ≠ (peer, id))
  distinct := table.distinct.filter

variable {entry : Entry V}

theorem mem_retain {peer : PeerId} (member : entry ∈ (table.retain peer now).entries) : entry ∈ table.entries :=
  List.mem_of_mem_filter member

theorem mem_remove {peer : PeerId} {id : OfferId} :
    entry ∈ (table.remove peer id).entries ↔ entry ∈ table.entries ∧ entry.key ≠ (peer, id) := by
  simp [remove]

theorem distinct_put : Distinct Entry.key ((table.remove peer id).entries ++ [⟨peer, id, offer, now⟩]) := by
  refine (table.remove peer id).distinct.concat fun held member => ?_
  exact ((mem_remove table).mp member).2

def put (offer : V) (now : Nat) : OfferTable V where
  entries := (table.remove peer id).entries ++ [⟨peer, id, offer, now⟩]
  distinct := table.distinct_put peer id

theorem mem_put {peer : PeerId} {id : OfferId} :
    entry ∈ (table.put peer id offer now).entries ↔
      (entry ∈ table.entries ∧ entry.key ≠ (peer, id)) ∨ entry = ⟨peer, id, offer, now⟩ := by
  simp [put, mem_remove]

def slot : List (Entry V) := table.entries.filter (·.peer = peer)

/-- A peer with too many unused offers gets no other one; an offer in its own place counts
once.  Either way the peer's offers that are over are gone. -/
def insert (offer : V) (now : Nat) : OfferTable V × Bool :=
  let kept := table.retain peer now
  if (kept.slot peer).all (·.id ≠ id) ∧ maxOffersPerPeer ≤ (kept.slot peer).length then
    (kept, false)
  else (kept.put peer id offer now, true)

/-- The offer leaves the table, live or not; only a live one is handed out. -/
def take (now : Nat) : Option V × OfferTable V := match table.entries.find? (fun entry => entry.key = (peer, id)) with
  | none => (none, table)
  | some entry => (if entry.isLive now then some entry.offer else none, table.remove peer id)

/-- `len_for_peer`. -/
def lenForPeer (now : Nat) : Nat := ((table.slot peer).filter (·.isLive now)).length

def hasCapacityForNew (now : Nat) : Bool := table.lenForPeer peer now < maxOffersPerPeer

/-! ## What the operations do -/

section Operations

variable {table} {peer : PeerId} {id : OfferId} {offer : V} {now : Nat} {entry : Entry V}

theorem mem_insert (member : entry ∈ (table.insert peer id offer now).1.entries) :
    entry ∈ table.entries ∨ entry = ⟨peer, id, offer, now⟩ := by
  unfold insert at member
  simp only at member
  split at member
  · exact .inl (mem_retain table member)
  rcases (mem_put _).mp member with ⟨held, -⟩ | new
  · exact .inl (mem_retain table held)
  · exact .inr new

theorem mem_take (member : entry ∈ (table.take peer id now).2.entries) :
    entry ∈ table.entries ∧ entry.key ≠ (peer, id) := by
  unfold take at member
  split at member
  · next absent =>
      refine ⟨member, ?_⟩
      simpa using List.find?_eq_none.mp absent entry member
  · exact (mem_remove table).mp member

theorem take_eq_some (taken : (table.take peer id now).1 = some offer) :
    ∃ entry ∈ table.entries, entry.key = (peer, id) ∧ entry.offer = offer ∧ now - entry.created ≤ offerTtl := by
  unfold take at taken
  split at taken
  · cases taken
  next entry found =>
    rw [table.distinct.find?_eq_some_iff] at found
    simp only [Option.ite_none_right_eq_some, Option.some.injEq] at taken
    exact ⟨entry, found.1, found.2, taken.2, of_decide_eq_true taken.1⟩

end Operations

end OfferTable

end Miasma.Directed.V2
