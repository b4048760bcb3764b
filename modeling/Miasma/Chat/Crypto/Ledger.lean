import Miasma.Chat.Crypto.Keys

namespace Miasma.Chat

open Data List

/-! The ledger of a ratchet: the one sequence of key agreements that both sides turn.

The owner of turn `i` sends on the chain of that turn and receives on the chain of turn
`i - 1`; `Tracks` says that a session stands at turn `i`. -/

structure Turn (S : Suite) where
  secret : S.Secret
  root : S.Key
  chain : S.Key
  /-- Messages in the chain its owner sent on before. -/
  pn : UInt32

def Turn.key {S : Suite} (turn : Turn S) : B32 := S.publicKey turn.secret

def Turn.Follows {S : Suite} (before after : Turn S) : Prop :=
  ∃ shared, S.diffieHellman after.secret before.key = some shared ∧
    S.kdfRoot before.root shared = (after.root, after.chain)

structure Ledger (S : Suite) where
  turns : List (Turn S)
  follows : ∀ {i before after}, turns[i]? = some before → turns[i + 1]? = some after → before.Follows after
  distinct : (turns.map Turn.secret).Nodup

variable {S : Suite}

namespace Ledger

def Grows (ledger later : Ledger S) : Prop := ledger.turns <+: later.turns

theorem Grows.refl {ledger : Ledger S} : ledger.Grows ledger := prefix_rfl

theorem Grows.turn {ledger later : Ledger S} (grows : ledger.Grows later) {i : Nat} {turn : Turn S}
    (found : ledger.turns[i]? = some turn) : later.turns[i]? = some turn := by
  obtain ⟨rest, split⟩ := grows
  obtain ⟨inside, -⟩ := List.getElem?_eq_some_iff.mp found
  rw [← split, getElem?_append_left inside, found]

theorem index_of_secret (ledger : Ledger S) {i j : Nat} (found : ledger.turns[i]? = some turn)
    (found' : ledger.turns[j]? = some turn') (same : turn.secret = turn'.secret) : i = j := by
  obtain ⟨inside, -⟩ := List.getElem?_eq_some_iff.mp found
  have entries : (ledger.turns.map Turn.secret)[i]? = (ledger.turns.map Turn.secret)[j]? := by
    rw [getElem?_map, getElem?_map, found, found', Option.map_some, Option.map_some, same]
  exact (getElem?_inj (by simpa using inside) ledger.distinct).mp entries

theorem index_of_key (ideal : S.Ideal) (ledger : Ledger S) {i j : Nat} (found : ledger.turns[i]? = some turn)
    (found' : ledger.turns[j]? = some turn') (same : turn.key = turn'.key) : i = j :=
  ledger.index_of_secret found found' (ideal.publicKey_injective same)

def extend (ledger : Ledger S) (turn : Turn S)
    (follows : ∀ {before}, ledger.turns.getLast? = some before → before.Follows turn)
    (fresh : turn.secret ∉ ledger.turns.map Turn.secret) : Ledger S where
  turns := ledger.turns ++ [turn]
  follows := by
    intro i before after first second
    rcases getElem?_snoc second with old | ⟨last, rfl⟩
    · obtain ⟨inside, -⟩ := List.getElem?_eq_some_iff.mp old
      rw [getElem?_append_left (by omega)] at first
      exact ledger.follows first old
    · rw [getElem?_append_left (by omega)] at first
      exact follows (by rw [getLast?_eq_getElem?, ← last]; exact first)
  distinct := by
    rw [map_append, map_singleton]
    exact Nodup.append ledger.distinct (by simp) (by simpa using fresh)

end Ledger

/-- The receiver at turn `i` has derived the key of message `n` of turn `j`, a
turn of the other side. -/
def Session.Derived (s : Session S) (i j : Nat) (n : UInt32) : Prop := ∃ d, i = j + 2 * d + 1 ∧ (d = 0 → n < s.nr)

theorem Session.Derived.mono {s next : Session S} (derived : s.Derived i j n) (more : s.nr ≤ next.nr) :
    next.Derived i j n := by
  obtain ⟨d, index, low⟩ := derived
  exact ⟨d, index, fun current => UInt32.lt_of_lt_of_le (low current) more⟩

/-- The session `s` stands at turn `i`. -/
structure Tracks (ledger : Ledger S) (i : Nat) (s : Session S) : Prop where
  own : ∃ turn, ledger.turns[i]? = some turn ∧ s.dhs = turn.secret ∧ s.dhsPub = turn.key ∧
    s.root = turn.root ∧ s.pn = turn.pn ∧
    ∀ ck, s.cks = some ck → s.ns ≠ 0xffffffff → ck = chainKey S turn.chain s.ns.toNat
  sends : s.cks.isSome ↔ 1 ≤ i
  unsent : i = 0 → s.ns = 0
  peer : s.dhr = if i = 0 then none else ledger.turns[i - 1]?.map Turn.key
  receives : s.ckr = if i ≤ 1 then none
    else ledger.turns[i - 1]?.map (chainKey S ·.chain s.nr.toNat)
  unread : i ≤ 1 → s.nr = 0
  kept : ∀ entry ∈ s.skipped, ∃ j turn, ledger.turns[j]? = some turn ∧ s.Derived i j entry.n ∧
    entry.dh = turn.key ∧ entry.BelongsTo turn.chain
  once : (s.skipped.map Skipped.position).Nodup
  bounded : s.skipped.length ≤ maxStoredSkipped

structure Sent (S : Suite) where
  env : Envelope
  plaintext : Bytes
  layer : Option S.Key

/-- `m` was sealed on the chain of turn `j`. -/
structure Sent.OnTurn (m : Sent S) (ledger : Ledger S) (j : Nat) (sender recipient : B32) : Prop where
  positive : 1 ≤ j
  sealing : ∃ turn padded, ledger.turns[j]? = some turn ∧ m.env.header.dhPub = turn.key ∧
    m.env.header.pn = turn.pn ∧ pad m.plaintext = .ok padded ∧
    m.env.ciphertext = S.aeadSeal
      (sealingKey S (messageKey S turn.chain m.env.header.n.toNat) m.layer m.env.header.dhPub m.env.header.n)
      (messageNonce S turn.chain m.env.header.n.toNat) (m.env.aad sender recipient) padded
  counted : m.env.header.n ≠ 0xffffffff

theorem Sent.OnTurn.grow {m : Sent S} (onTurn : m.OnTurn ledger j sender recipient)
    (grows : ledger.Grows later) : m.OnTurn later j sender recipient := {
  onTurn with
  sealing := by
    obtain ⟨turn, padded, found, facts⟩ := onTurn.sealing
    exact ⟨turn, padded, grows.turn found, facts⟩ }

namespace Tracks

variable {ledger later : Ledger S} {i : Nat} {s next : Session S}

theorem grow (tracks : Tracks ledger i s) (grows : ledger.Grows later) : Tracks later i s := by
  obtain ⟨turn, found, rest⟩ := tracks.own
  have earlier : ∀ {k}, k ≤ i → later.turns[k]? = ledger.turns[k]? := by
    intro k below
    obtain ⟨inside, -⟩ := List.getElem?_eq_some_iff.mp found
    have there : ledger.turns[k]? = some ledger.turns[k] := getElem?_eq_getElem (Nat.lt_of_le_of_lt below inside)
    rw [there, grows.turn there]
  exact { tracks with
    own := ⟨turn, grows.turn found, rest⟩
    peer := by rw [tracks.peer, earlier (Nat.sub_le i 1)]
    receives := by rw [tracks.receives, earlier (Nat.sub_le i 1)]
    kept := by
      intro entry inside
      obtain ⟨j, turn, there, rest⟩ := tracks.kept entry inside
      exact ⟨j, turn, grows.turn there, rest⟩ }

theorem sealWith (tracks : Tracks ledger i s) {id : B16} :
    Tracks ledger i (s.sealWith id plaintext layer).1 ∧ ∀ env, (s.sealWith id plaintext layer).2 = .ok env →
        (⟨env, plaintext, layer⟩ : Sent S).OnTurn ledger i s.ownId s.peerId ∧
        env.header.n = s.ns ∧ (s.sealWith id plaintext layer).1.ns = s.ns + 1 ∧
        env.header.initEk = (if s.pendingInit then some s.originEk else none) := by
  obtain ⟨turn, found, secret, key, root, pn, chain⟩ := tracks.own
  unfold Session.sealWith
  split
  · exact ⟨tracks, nofun⟩
  rename_i padded fits
  split
  · exact ⟨tracks, nofun⟩
  rename_i ck sending
  have positive : 1 ≤ i := tracks.sends.mp (by rw [sending]; rfl)
  dsimp only
  split
  · rename_i full
    refine ⟨{ tracks with
      own := ⟨turn, found, secret, key, root, pn, fun _ _ below => absurd full below⟩
      sends := ?_ }, nofun⟩
    simp [positive]
  rename_i below
  have advanced := toNat_succ below
  have current := chain ck sending below
  constructor
  · refine { tracks with own := ⟨turn, found, secret, key, root, pn, ?_⟩, sends := ?_,
                         unsent := ?_ }
    · intro ck' moved _
      cases moved
      rw [advanced, chainKey, ← current]
    · simp [positive]
    · omega
  · intro env sealed
    cases sealed
    refine ⟨⟨positive, ⟨turn, padded, found, key, pn, fits, ?_⟩, below⟩, rfl, rfl, rfl⟩
    rw [messageKey, messageNonce, ← current]
    rfl

end Tracks

end Miasma.Chat
