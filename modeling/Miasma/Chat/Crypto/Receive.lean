import Miasma.Chat.Crypto.Ledger

namespace Miasma.Chat

open Data List UInt32 Session Skipped

/-! Receiving: what one `open_with` does to a session that tracks a ledger. -/

variable {S : Suite}

theorem chainKey_add : chainKey S (chainKey S chain first) second = chainKey S chain (first + second) := by
  induction second with
  | zero => rfl
  | succ second ih => rw [← Nat.add_assoc, chainKey, chainKey, ih]

variable {s : Session S} {fresh : S.Secret} {bound : UInt32}

namespace Session

theorem openNext_ok (opened : s.openNext env layer fresh = .ok (final, pt)) :
    ∃ turned reached ckr padded, s.turnTo env.header fresh = .ok turned ∧
      turned.skipUntil env.header.n = .ok reached ∧ reached.ckr = some ckr ∧
      openMsg S (S.kdfChain ckr).key (S.kdfChain ckr).nonce (env.aad s.peerId s.ownId)
        env.ciphertext layer env.header.dhPub env.header.n = .ok padded ∧
      unpad padded = .ok pt ∧ reached.nr ≠ 0xffffffff ∧
      final = { reached with
        ckr := some (S.kdfChain ckr).next
        nr := reached.nr + 1
        pendingInit := false } := by
  obtain ⟨turned, turning, opened⟩ := bind_ok_iff.mp opened
  obtain ⟨reached, reaching, opened⟩ := bind_ok_iff.mp opened
  split at opened
  · cases opened
  rename_i ckr chain
  obtain ⟨padded, opening, opened⟩ := bind_ok_iff.mp opened
  obtain ⟨text, unpadding, opened⟩ := bind_ok_iff.mp opened
  obtain ⟨below, opened⟩ := ite_ok_iff.mp opened
  cases opened
  exact ⟨turned, reached, ckr, padded, turning, reaching, chain, opening, unpadding, below, rfl⟩

/-- On a live chain that has not passed `bound`, skipping ends at `bound`. -/
theorem skipUntil_reaches {next : Session S} (skipped : s.skipUntil bound = .ok next)
    (table : s.skipped.length ≤ maxStoredSkipped) (live : s.ckr = some (chainKey S chain s.nr.toNat))
    (ahead : s.nr ≤ bound) : next.ckr = some (chainKey S chain bound.toNat) ∧ next.nr = bound := by
  cases skipUntil_ok skipped table with
  | inl unchanged =>
    obtain ⟨same, reason⟩ := unchanged
    subst same
    cases reason with
    | inl none =>
      rw [none] at live
      cases live
    | inr reached =>
      have arrived : next.nr = bound := UInt32.le_antisymm ahead reached
      rw [live, arrived]
      exact ⟨rfl, rfl⟩
  | inr moved =>
    obtain ⟨ck, dh, chain', -, later, -, result⟩ := moved
    rw [live] at chain'
    cases chain'
    subst result
    have order : s.nr.toNat ≤ bound.toNat := le_iff_toNat_le.mp ahead
    simp only [chainKey_add, Nat.add_sub_cancel' order, and_self]

theorem dhRatchet_ok {next : Session S} {key : B32} (turned : s.dhRatchet key fresh = .ok next) :
    ∃ first second, S.diffieHellman s.dhs key = some first ∧ S.diffieHellman fresh key = some second ∧ next = { s with
        pn := s.ns
        ns := 0
        nr := 0
        dhr := some key
        root := (S.kdfRoot (S.kdfRoot s.root first).1 second).1
        ckr := some (S.kdfRoot s.root first).2
        dhs := fresh
        dhsPub := S.publicKey fresh
        cks := some (S.kdfRoot (S.kdfRoot s.root first).1 second).2 } := by
  have agreed : ∀ {secret shared}, dh S secret key = .ok shared → S.diffieHellman secret key = some shared := by
    intro secret shared ok
    unfold dh at ok
    split at ok
    · rename_i found
      cases ok
      exact found
    · cases ok
  obtain ⟨first, firstOk, turned⟩ := bind_ok_iff.mp turned
  obtain ⟨second, secondOk, turned⟩ := bind_ok_iff.mp turned
  cases turned
  exact ⟨first, second, agreed firstOk, agreed secondOk, rfl⟩

theorem not_derived_of_le {n : UInt32} (current : j + 1 = i) (least : s.nr ≤ n) : ¬ s.Derived i j n := by
  intro ⟨d, index, low⟩
  exact absurd (low (by omega)) (UInt32.not_lt.mpr least)

end Session

variable {ckr : S.Key}

namespace Tracks

variable {ledger : Ledger S} {i : Nat} {s next : Session S}

variable {turn : Turn S}

theorem live_iff (tracks : Tracks ledger i s) : s.ckr.isSome ↔ 2 ≤ i := by
  obtain ⟨turn, found, -⟩ := tracks.own
  obtain ⟨inside, -⟩ := List.getElem?_eq_some_iff.mp found
  rw [tracks.receives]
  split
  · simp only [Option.isSome_none, Bool.false_eq_true, false_iff]
    omega
  rw [getElem?_eq_getElem (by omega)]
  simp only [Option.map_some, Option.isSome_some, true_iff]
  omega

theorem keep (ideal : S.Ideal) (tracks : Tracks ledger i s) (live : 2 ≤ i)
    (found : ledger.turns[i - 1]? = some turn) (ahead : s.nr ≤ bound) (distinct : (added.map position).Nodup)
    (passed : ∀ entry ∈ added, s.nr ≤ entry.n ∧ entry.n < bound ∧ entry.dh = turn.key ∧ entry.BelongsTo turn.chain) :
    Tracks ledger i { s with
      ckr := some (chainKey S turn.chain bound.toNat)
      nr := bound
      skipped := recent maxStoredSkipped (s.skipped ++ added) } where
  own := tracks.own
  sends := tracks.sends
  unsent := tracks.unsent
  peer := tracks.peer
  receives := by
    rw [if_neg (Nat.not_le.mpr live), found]
    rfl
  unread low := by omega
  kept := by
    intro entry inside
    dsimp only at inside
    cases mem_recent_append inside with
    | inl old =>
      obtain ⟨j, turn', there, derived, rest⟩ := tracks.kept entry old
      exact ⟨j, turn', there, derived.mono ahead, rest⟩
    | inr new =>
      obtain ⟨-, below, rest⟩ := passed entry new
      exact ⟨i - 1, turn, found, ⟨0, by omega, fun _ => below⟩, rest⟩
  once := by
    apply Nodup.sublist (recent_suffix.sublist.map position)
    rw [map_append]
    apply Nodup.append tracks.once distinct
    -- an old entry of the receiving chain lies below `nr`, an added one does not
    intro position old new
    obtain ⟨entry, inside, same⟩ := mem_map.mp old
    obtain ⟨entry', inside', same'⟩ := mem_map.mp new
    obtain ⟨j, turn', there, derived, key, -⟩ := tracks.kept entry inside
    obtain ⟨least, -, key', -⟩ := passed entry' inside'
    obtain ⟨keys, numbers⟩ := Prod.mk.inj (same.trans same'.symm)
    have index := ledger.index_of_key ideal there found (by rw [← key, ← key', keys])
    obtain ⟨d, split, below⟩ := derived
    have low := below (by omega)
    rw [numbers] at low
    exact absurd low (UInt32.not_lt.mpr least)
  bounded := by
    have length := length_recent maxStoredSkipped (s.skipped ++ added)
    dsimp only
    omega

/-- The keys a successful `skip_until` stores are the missing ones of the
receiving chain. -/
theorem skipUntil_ok (ideal : S.Ideal) (tracks : Tracks ledger i s) (skip : s.skipUntil bound = .ok next) :
    Tracks ledger i next ∧ ∃ added : List (Skipped S), next = { s with
        ckr := next.ckr
        nr := if 2 ≤ i ∧ s.nr < bound then bound else s.nr
        skipped := recent maxStoredSkipped (s.skipped ++ added) } ∧
      added.length = (if 2 ≤ i then bound.toNat - s.nr.toNat else 0) ∧
      (2 ≤ i → bound.toNat - s.nr.toNat ≤ maxSkip.toNat) ∧
      ∀ entry, entry ∈ added ↔ 2 ≤ i ∧ s.nr ≤ entry.n ∧ entry.n < bound ∧
        ∃ turn, ledger.turns[i - 1]? = some turn ∧ entry.dh = turn.key ∧ entry.BelongsTo turn.chain := by
  have table := recent_of_length_le tracks.bounded
  cases Session.skipUntil_ok skip tracks.bounded with
  | inl unchanged =>
    obtain ⟨same, reason⟩ := unchanged
    subst same
    have passed : ¬ (2 ≤ i ∧ next.nr < bound) := by
      intro moving
      cases reason with
      | inl none =>
        have live := tracks.live_iff.mpr moving.1
        rw [none] at live
        cases live
      | inr reached => exact absurd moving.2 (UInt32.not_lt.mpr reached)
    have none : 2 ≤ i → bound.toNat - next.nr.toNat = 0 := by
      intro live
      have reached : bound ≤ next.nr := UInt32.not_lt.mp fun later => passed ⟨live, later⟩
      have order := le_iff_toNat_le.mp reached
      omega
    refine ⟨tracks, [], ?_, ?_, ?_, ?_⟩
    · rw [if_neg passed, append_nil, table]
    · split
      · exact (none ‹_›).symm
      · rfl
    · intro live
      rw [none live]
      exact Nat.zero_le _
    · intro entry
      constructor
      · exact nofun
      rintro ⟨live, least, most, -⟩
      exact absurd ⟨live, UInt32.lt_of_le_of_lt least most⟩ passed
  | inr moved =>
    obtain ⟨ck, dh, chain, peer, later, close, result⟩ := moved
    have live : 2 ≤ i := tracks.live_iff.mp (by rw [chain]; rfl)
    rw [tracks.receives, if_neg (by omega), Option.map_eq_some_iff] at chain
    obtain ⟨turn, found, chain⟩ := chain
    rw [tracks.peer, if_neg (by omega), found] at peer
    cases peer
    subst chain
    have order : s.nr.toNat < bound.toNat := lt_iff_toNat_lt.mp later
    have room : s.nr.toNat + (bound.toNat - s.nr.toNat) < 2 ^ 32 := by
      have := bound.toNat_lt
      omega
    have members : ∀ entry, entry ∈ keptKeys turn.key (bound.toNat - s.nr.toNat) s.nr
        (chainKey S turn.chain s.nr.toNat) ↔ 2 ≤ i ∧ s.nr ≤ entry.n ∧ entry.n < bound ∧
          ∃ turn, ledger.turns[i - 1]? = some turn ∧ entry.dh = turn.key ∧ entry.BelongsTo turn.chain := by
      intro entry
      rw [mem_keptKeys room, le_iff_toNat_le, lt_iff_toNat_lt, Nat.add_sub_cancel' (Nat.le_of_lt order)]
      constructor
      · intro inside
        exact ⟨live, inside.2.1, inside.2.2.1, turn, found, inside.1, inside.2.2.2⟩
      intro inside
      obtain ⟨-, least, most, turn', found', same, belongs⟩ := inside
      rw [found] at found'
      cases found'
      exact ⟨same, least, most, belongs⟩
    subst result
    constructor
    · rw [chainKey_add, Nat.add_sub_cancel' (Nat.le_of_lt order)]
      apply tracks.keep ideal live found (UInt32.le_of_lt later) (keptKeys_once room)
      intro entry inside
      obtain ⟨-, least, most, turn', found', rest⟩ := (members entry).mp inside
      rw [found] at found'
      cases found'
      exact ⟨least, most, rest⟩
    · refine ⟨_, ?_, ?_, fun _ => close, members⟩
      · rw [if_pos ⟨live, later⟩]
      · rw [if_pos live, length_keptKeys]

theorem dhRatchet (ideal : S.Ideal) (tracks : Tracks ledger i s)
    (found : ledger.turns[i + 1]? = some turn) (newest : ledger.turns.length = i + 2)
    (unused : fresh ∉ ledger.turns.map Turn.secret)
    (turned : s.dhRatchet turn.key fresh = .ok next) :
    ∃ (later : Ledger S) (mine : Turn S), later.turns = ledger.turns ++ [mine] ∧
      mine.secret = fresh ∧ mine.pn = s.ns ∧ Tracks later (i + 2) next := by
  obtain ⟨first, second, agreed, agreed', result⟩ := dhRatchet_ok turned
  obtain ⟨own, ownFound, secret, key, root, pn, -⟩ := tracks.own
  -- the peer's side of the first agreement is the ledger's
  obtain ⟨shared, exchange, derived⟩ := ledger.follows ownFound found
  have sameShared : first = shared := by
    rw [secret, Turn.key, ideal.diffieHellman_symm, ← Turn.key, exchange] at agreed
    exact (Option.some.inj agreed).symm
  subst sameShared
  have roots : S.kdfRoot s.root first = (turn.root, turn.chain) := by rw [root, derived]
  rw [roots] at result
  let mine : Turn S := ⟨fresh, (S.kdfRoot turn.root second).1, (S.kdfRoot turn.root second).2, s.ns⟩
  have follows : ∀ {before}, ledger.turns.getLast? = some before → before.Follows mine := by
    intro before last
    rw [getLast?_eq_getElem?, newest] at last
    have same : before = turn := Option.some.inj (last.symm.trans found)
    rw [same]
    exact ⟨second, agreed', rfl⟩
  let later := ledger.extend mine follows unused
  have grows : ledger.Grows later := ⟨[mine], rfl⟩
  have tip : later.turns[i + 2]? = some mine := by
    change (ledger.turns ++ [mine])[i + 2]? = some mine
    rw [getElem?_append_right (by omega), newest]
    simp
  refine ⟨later, mine, rfl, rfl, rfl, ?_⟩
  subst result
  exact { tracks with
    own := ⟨mine, tip, rfl, rfl, rfl, rfl, fun ck moved _ => by cases moved; rfl⟩
    sends := by simp
    unsent := fun zero => by omega
    peer := by
      rw [if_neg (by omega), Nat.add_sub_cancel (i + 1) 1, grows.turn found]
      rfl
    receives := by
      rw [if_neg (by omega), Nat.add_sub_cancel (i + 1) 1, grows.turn found]
      rfl
    unread := fun low => by omega
    kept := by
      intro entry inside
      obtain ⟨j, turn', there, derived, rest⟩ := tracks.kept entry inside
      obtain ⟨d, index, -⟩ := derived
      exact ⟨j, turn', grows.turn there, ⟨d + 1, by omega, fun zero => by omega⟩, rest⟩ }

theorem read (tracks : Tracks ledger i s) (live : 2 ≤ i) (chain : s.ckr = some ckr) (below : s.nr ≠ 0xffffffff) :
    Tracks ledger i { s with
      ckr := some (S.kdfChain ckr).next
      nr := s.nr + 1
      pendingInit := false } := by
  have advanced := toNat_succ below
  refine { tracks with receives := ?_, unread := fun low => by omega, kept := ?_ }
  · rw [tracks.receives, if_neg (by omega), Option.map_eq_some_iff] at chain
    obtain ⟨turn, found, key⟩ := chain
    rw [if_neg (by omega), found, Option.map_some, advanced, chainKey, key]
  intro entry inside
  obtain ⟨j, turn, there, derived, rest⟩ := tracks.kept entry inside
  refine ⟨j, turn, there, derived.mono (le_iff_toNat_le.mpr ?_), rest⟩
  rw [advanced]
  omega

theorem erase (tracks : Tracks ledger i s) {position : B32 × UInt32} : Tracks ledger i
      { s with skipped := s.skipped.eraseP (·.position = position) } := by
  have smaller := eraseP_sublist (p := fun entry => decide (Skipped.position entry = position)) (l := s.skipped)
  exact { tracks with
    kept := fun entry inside => tracks.kept entry (smaller.subset inside)
    once := tracks.once.sublist (smaller.map _)
    bounded := Nat.le_trans smaller.length_le tracks.bounded }

/-- The session receives on the chain of turn `j` exactly when that is the turn
before its own. -/
theorem peer_iff (ideal : S.Ideal) (tracks : Tracks ledger i s) (found : ledger.turns[j]? = some turn) :
    s.dhr = some turn.key ↔ j + 1 = i := by
  rw [tracks.peer]
  constructor
  · intro same
    split at same
    · cases same
    obtain ⟨before, there, keys⟩ := Option.map_eq_some_iff.mp same
    have index := ledger.index_of_key ideal there found keys
    omega
  · intro index
    rw [if_neg (by omega), ← index, Nat.add_sub_cancel, found]
    rfl

/-- Turning the ratchet to a key the session has left behind gives a chain of
another key: no message of that key opens there. -/
theorem stale_chain (ideal : S.Ideal) (tracks : Tracks ledger i s) (found : ledger.turns[j]? = some turn)
    (positive : 1 ≤ j) (stale : j + 1 < i) (agreed : S.diffieHellman s.dhs turn.key = some shared) :
    (S.kdfRoot s.root shared).2 ≠ turn.chain := by
  intro same
  obtain ⟨own, ownFound, secret, -⟩ := tracks.own
  obtain ⟨inside, -⟩ := List.getElem?_eq_some_iff.mp found
  have beforeFound : ledger.turns[j - 1]? = some ledger.turns[j - 1] := getElem?_eq_getElem (by omega)
  obtain ⟨shared', exchange, derived⟩ := ledger.follows beforeFound (by rwa [Nat.sub_add_cancel positive])
  have chain : turn.chain = (S.kdfRoot ledger.turns[j - 1].root shared').2 := by rw [derived]
  rw [chain] at same
  obtain ⟨-, sharedSame⟩ := ideal.kdfRoot_distinct same
  rw [sharedSame, ← exchange, secret] at agreed
  cases ideal.diffieHellman_distinct agreed with
  | inl straight =>
    have index := ledger.index_of_secret ownFound found straight.1
    omega
  | inr crossed =>
    have index := ledger.index_of_secret ownFound beforeFound crossed.1
    omega

end Tracks

/-- The keys an `open_with` of `header` would store. -/
def Session.keysAhead (s : Session S) (header : Header) : Nat :=
  if s.skipped.any (·.position = header.position) then 0
  else if s.dhr = some header.dhPub then header.n.toNat - s.nr.toNat
  else (if s.ckr.isSome then header.pn.toNat - s.nr.toNat else 0) + header.n.toNat

theorem Session.keysAhead_of_absent (absent : header.position ∉ s.skipped.map position) :
    s.keysAhead header = if s.dhr = some header.dhPub then header.n.toNat - s.nr.toNat
      else (if s.ckr.isSome then header.pn.toNat - s.nr.toNat else 0) + header.n.toNat := by
  have none : s.skipped.any (·.position = header.position) = false := by
    rw [any_eq_false]
    intro entry inside same
    exact absent (mem_map.mpr ⟨entry, inside, by simpa using same⟩)
  rw [keysAhead, none, if_neg (by simp)]

/-- The keys before `header` that are not derived yet, in its chain and in the
chain before it, are few enough to be derived at once. -/
def Session.WithinReach (s : Session S) (header : Header) : Prop := header.position ∈ s.skipped.map position ∨
    if s.dhr = some header.dhPub then header.n.toNat - s.nr.toNat ≤ maxSkip.toNat
    else header.n.toNat ≤ maxSkip.toNat ∧ (s.ckr.isSome → header.pn.toNat - s.nr.toNat ≤ maxSkip.toNat)

instance (s : Session S) (header : Header) : Decidable (s.WithinReach header) :=
  inferInstanceAs (Decidable (_ ∨ ite _ _ _))

/-- What a successful `open_with` of message `n` of turn `j` does to a session at
turn `i`. -/
structure Opens (ledger later : Ledger S) (i i' : Nat) (s next : Session S) (j : Nat)
    (header : Header) (fresh : S.Secret) : Prop where
  grows : ledger.Grows later
  tracks : Tracks later i' next
  turned : (i' = i ∧ later = ledger) ∨ (j = i + 1 ∧ i' = i + 2 ∧
    ∃ mine, later.turns = ledger.turns ++ [mine] ∧ mine.secret = fresh ∧ mine.pn = s.ns)
  unopened : header.position ∈ s.skipped.map position ∨ ¬ s.Derived i j header.n
  reach : s.WithinReach header
  reads : (i' = i ∧ next.nr = s.nr) ∨ (j + 1 = i' ∧ next.nr = header.n + 1)
  derived : next.Derived i' j header.n
  later_derived : ∀ {k n}, s.Derived i k n → next.Derived i' k n
  gone : header.position ∉ next.skipped.map position
  source : ∀ entry ∈ next.skipped, entry ∈ s.skipped ∨
    ∃ k turn, later.turns[k]? = some turn ∧ entry.dh = turn.key ∧ ¬ s.Derived i k entry.n
  stays : s.skipped.length + s.keysAhead header ≤ maxStoredSkipped →
    ∀ entry ∈ s.skipped, entry.position ≠ header.position → entry ∈ next.skipped
  covers : s.skipped.length + s.keysAhead header ≤ maxStoredSkipped →
    ∀ {k turn n}, 1 ≤ k → later.turns[k]? = some turn → next.Derived i' k n →
      (∀ {after}, later.turns[k + 2]? = some after → n < after.pn) →
      s.Derived i k n ∨ (k = j ∧ n = header.n) ∨ (turn.key, n) ∈ next.skipped.map position
  same_ids : next.ownId = s.ownId ∧ next.peerId = s.peerId
  sent : i' = i → next.ns = s.ns

theorem not_mem_eraseP_position {entries : List (Skipped S)} (once : (entries.map position).Nodup)
    {position : B32 × UInt32} :
    position ∉ (entries.eraseP (·.position = position)).map Skipped.position := by
  induction entries with
  | nil => simp
  | cons entry entries ih =>
    rw [map_cons, nodup_cons] at once
    by_cases found : entry.position = position
    · rw [eraseP_cons_of_pos (by simpa using found), ← found]
      exact once.1
    · rw [eraseP_cons_of_neg (by simpa using found), map_cons, mem_cons, not_or]
      exact ⟨fun same => found same.symm, ih once.2⟩

namespace Tracks

variable {ledger : Ledger S} {i j : Nat} {s next : Session S} {m : Sent S} {sender recipient : B32}

section

variable (ideal : S.Ideal) (tracks : Tracks ledger i s) (onTurn : m.OnTurn ledger j sender recipient)
include ideal tracks onTurn

/-- A kept key of the position of `m` is the key `m` was sealed with. -/
theorem kept_key (inside : entry ∈ s.skipped) (same : entry.position = m.env.header.position) :
    s.Derived i j m.env.header.n ∧ ∀ {turn}, ledger.turns[j]? = some turn → entry.BelongsTo turn.chain := by
  obtain ⟨turn, padded, found, key, -⟩ := onTurn.sealing
  obtain ⟨j', turn', found', derived, key', belongs⟩ := tracks.kept entry inside
  obtain ⟨keys, numbers⟩ := Prod.mk.inj same
  have index := ledger.index_of_key ideal found' found (by rw [← key', ← key, keys])
  subst index
  rw [found] at found'
  cases found'
  refine ⟨numbers ▸ derived, fun again => ?_⟩
  rw [found] at again
  cases again
  exact belongs

theorem opens_kept (inside : entry ∈ s.skipped) (same : entry.position = m.env.header.position) :
    Opens ledger ledger i i s
      { s with skipped := s.skipped.eraseP (·.position = m.env.header.position) }
      j m.env.header fresh where
  grows := Ledger.Grows.refl
  tracks := tracks.erase
  turned := .inl ⟨rfl, rfl⟩
  unopened := .inl (mem_map.mpr ⟨entry, inside, same⟩)
  reach := .inl (mem_map.mpr ⟨entry, inside, same⟩)
  reads := .inl ⟨rfl, rfl⟩
  derived := (tracks.kept_key ideal onTurn inside same).1
  later_derived derived := derived
  gone := not_mem_eraseP_position tracks.once
  source entry kept := .inl (mem_of_mem_eraseP kept)
  stays _ entry kept other := (mem_eraseP_of_neg (by simpa using other)).mpr kept
  covers _ _ _ _ _ _ derived _ := .inl derived
  same_ids := ⟨rfl, rfl⟩
  sent _ := rfl

theorem opens_current (current : j + 1 = i) (ahead : s.nr ≤ m.env.header.n)
    (skip : s.skipUntil m.env.header.n = .ok reached) (chain : reached.ckr = some ckr)
    (absent : m.env.header.position ∉ s.skipped.map position) (fresh : S.Secret) :
    Opens ledger ledger i i s
      { reached with ckr := some (S.kdfChain ckr).next, nr := reached.nr + 1, pendingInit := false }
      j m.env.header fresh := by
  obtain ⟨turn, padded, found, key, -⟩ := onTurn.sealing
  have positive := onTurn.positive
  have live : 2 ≤ i := by omega
  obtain ⟨reachedTracks, added, result, length, close, members⟩ := tracks.skipUntil_ok ideal skip
  have before : i - 1 = j := by omega
  rw [before] at members
  have arrived : reached.nr = m.env.header.n := by
    rw [result]
    split
    · rfl
    rename_i stopped
    exact UInt32.le_antisymm ahead (UInt32.not_lt.mp fun later => stopped ⟨live, later⟩)
  have advanced : (reached.nr + 1).toNat = m.env.header.n.toNat + 1 := by
    rw [arrived]
    exact toNat_succ onTurn.counted
  have table : reached.skipped = recent maxStoredSkipped (s.skipped ++ added) := by rw [result]
  have whole : s.skipped.length + s.keysAhead m.env.header ≤ maxStoredSkipped →
      reached.skipped = s.skipped ++ added := by
    intro room
    have missing : s.keysAhead m.env.header = m.env.header.n.toNat - s.nr.toNat := by
      rw [keysAhead_of_absent absent, key, if_pos ((tracks.peer_iff ideal found).mpr current)]
    rw [table, recent_of_length_le]
    rw [length_append, length, if_pos live, ← missing]
    exact room
  have below : ∀ {n : UInt32}, n < reached.nr + 1 ↔ n.toNat ≤ m.env.header.n.toNat := by
    intro n
    rw [lt_iff_toNat_lt, advanced]
    omega
  exact {
    grows := Ledger.Grows.refl
    tracks := reachedTracks.read live chain (by rw [arrived]; exact onTurn.counted)
    turned := .inl ⟨rfl, rfl⟩
    unopened := .inr (not_derived_of_le current ahead)
    reach := by
      right
      rw [key, if_pos ((tracks.peer_iff ideal found).mpr current)]
      exact close live
    reads := .inr ⟨current, by rw [arrived]⟩
    derived := ⟨0, by omega, fun _ => below.mpr (Nat.le_refl _)⟩
    later_derived := fun derived => derived.mono (le_iff_toNat_le.mpr (by
      rw [advanced]
      exact Nat.le_succ_of_le (le_iff_toNat_le.mp ahead)))
    gone := by
      intro inside
      obtain ⟨entry, kept, same⟩ := mem_map.mp inside
      rw [table] at kept
      cases mem_recent_append kept with
      | inl old => exact absent (mem_map.mpr ⟨entry, old, same⟩)
      | inr new =>
        obtain ⟨-, -, most, -⟩ := (members entry).mp new
        rw [show entry.n = m.env.header.n from congrArg Prod.snd same] at most
        exact UInt32.lt_irrefl _ most
    source := by
      intro entry kept
      rw [table] at kept
      cases mem_recent_append kept with
      | inl old => exact .inl old
      | inr new =>
        obtain ⟨-, least, -, turn', there, same, -⟩ := (members entry).mp new
        exact .inr ⟨j, turn', there, same, not_derived_of_le current least⟩
    stays := by
      intro room entry kept _
      rw [whole room]
      exact mem_append_left _ kept
    covers := by
      intro room k turn' n _ there derived _
      obtain ⟨d, index, low⟩ := derived
      by_cases first : d = 0
      · have same : k = j := by omega
        subst same
        rw [found] at there
        cases there
        have most := below.mp (low first)
        by_cases old : n < s.nr
        · exact .inl ⟨d, index, fun _ => old⟩
        by_cases last : n = m.env.header.n
        · exact .inr (.inl ⟨rfl, last⟩)
        right
        right
        have different : n.toNat ≠ m.env.header.n.toNat := fun same => last (UInt32.toNat_inj.mp same)
        let entry : Skipped S := ⟨turn.key, n, messageKey S turn.chain n.toNat, messageNonce S turn.chain n.toNat⟩
        have new : entry ∈ added := (members entry).mpr
          ⟨live, UInt32.not_lt.mp old, UInt32.lt_iff_toNat_lt.mpr (by
            change n.toNat < m.env.header.n.toNat
            omega), turn, found, rfl, rfl, rfl⟩
        rw [whole room]
        exact mem_map.mpr ⟨entry, mem_append_right _ new, rfl⟩
      · exact .inl ⟨d, index, fun zero => absurd zero first⟩
    same_ids := by
      rw [result]
      exact ⟨rfl, rfl⟩
    sent := by
      intro _
      rw [result] }

end

/-- The first message of a new key of the peer: the rest of the old chain is
kept, the ratchet turns, and the message is read on the new chain. -/
theorem opens_turn (ideal : S.Ideal) (tracks : Tracks ledger i s)
    (onTurn : m.OnTurn ledger j sender recipient) (ahead : j = i + 1) (newest : ledger.turns.length = i + 2)
    (unused : fresh ∉ ledger.turns.map Turn.secret) (rest : s.skipUntil m.env.header.pn = .ok rested)
    (turn : rested.dhRatchet m.env.header.dhPub fresh = .ok turned)
    (skip : turned.skipUntil m.env.header.n = .ok reached) (chain : reached.ckr = some ckr)
    (absent : m.env.header.position ∉ s.skipped.map position) :
    ∃ later, Opens ledger later i (i + 2) s
      { reached with ckr := some (S.kdfChain ckr).next, nr := reached.nr + 1, pendingInit := false }
      j m.env.header fresh := by
  subst ahead
  obtain ⟨theirs, padded, found, key, pn, -⟩ := onTurn.sealing
  obtain ⟨restedTracks, added, rests, length, close, members⟩ := tracks.skipUntil_ok ideal rest
  rw [key] at turn
  obtain ⟨later, mine, extended, drawn, count, turnedTracks⟩ := restedTracks.dhRatchet ideal found newest unused turn
  have grows : ledger.Grows later := ⟨[mine], extended.symm⟩
  obtain ⟨first, second, -, -, turns⟩ := dhRatchet_ok turn
  have table : turned.skipped = recent maxStoredSkipped (s.skipped ++ added) := by rw [turns, rests]
  have start : turned.nr = 0 := by rw [turns]
  -- what the old chain still held is not the new message
  have otherTurn : ∀ entry ∈ added, entry.position ≠ m.env.header.position := by
    intro entry new same
    obtain ⟨-, -, -, before, there, own, -⟩ := (members entry).mp new
    obtain ⟨keys, -⟩ := Prod.mk.inj same
    have index := ledger.index_of_key ideal there found (by rw [← own, ← key, keys])
    omega
  have absent' : m.env.header.position ∉ turned.skipped.map position := by
    intro inside
    obtain ⟨entry, kept, same⟩ := mem_map.mp inside
    rw [table] at kept
    cases mem_recent_append kept with
    | inl old => exact absent (mem_map.mpr ⟨entry, old, same⟩)
    | inr new => exact otherTurn entry new same
  have opens := turnedTracks.opens_current ideal (onTurn.grow grows) rfl
    (by rw [start]; exact UInt32.zero_le) skip chain absent' fresh
  have behind : ¬ s.dhr = some m.env.header.dhPub := by
    rw [key, tracks.peer_iff ideal found]
    omega
  have present : turned.dhr = some m.env.header.dhPub := by rw [turns, key]
  have derived_turned : ∀ {k n}, s.Derived i k n → turned.Derived (i + 2) k n := by
    intro k n derived
    obtain ⟨d, index, -⟩ := derived
    exact ⟨d + 1, by omega, fun zero => by omega⟩
  have whole : s.skipped.length + s.keysAhead m.env.header ≤ maxStoredSkipped → turned.skipped = s.skipped ++ added ∧
        turned.skipped.length + turned.keysAhead m.env.header ≤ maxStoredSkipped := by
    intro room
    rw [keysAhead_of_absent absent, if_neg behind] at room
    have count : added.length = if s.ckr.isSome then m.env.header.pn.toNat - s.nr.toNat else 0 := by
      rw [length]
      simp only [tracks.live_iff]
    have fits : (s.skipped ++ added).length ≤ maxStoredSkipped := by
      rw [length_append, count]
      omega
    have all : turned.skipped = s.skipped ++ added := by
      rw [table, recent_of_length_le fits]
    refine ⟨all, ?_⟩
    rw [keysAhead_of_absent absent', if_pos present, start, all, length_append, count]
    omega
  refine ⟨later, ?_⟩
  exact { opens with
    grows := grows
    turned := by
      refine .inr ⟨rfl, rfl, mine, extended, drawn, ?_⟩
      rw [count, rests]
    unopened := .inr fun ⟨d, index, _⟩ => by omega
    reach := by
      right
      rw [if_neg behind]
      have near := opens.reach.resolve_left absent'
      rw [if_pos present, start] at near
      exact ⟨near, fun live => close (tracks.live_iff.mp live)⟩
    reads := by
      right
      cases opens.reads with
      | inl same =>
        -- the message was read on the new chain, so the counter moved
        obtain ⟨d, index, low⟩ := opens.derived
        have low := low (by omega)
        rw [same.2, start] at low
        exact absurd low UInt32.not_lt_zero
      | inr moved => exact moved
    later_derived := fun derived => opens.later_derived (derived_turned derived)
    source := by
      intro entry kept
      cases opens.source entry kept with
      | inl old =>
        rw [table] at old
        cases mem_recent_append old with
        | inl old => exact .inl old
        | inr new =>
          obtain ⟨live, least, -, before, there, own, -⟩ := (members entry).mp new
          exact .inr ⟨i - 1, before, grows.turn there, own, not_derived_of_le (by omega) least⟩
      | inr new =>
        obtain ⟨k, turn, there, own, underived⟩ := new
        exact .inr ⟨k, turn, there, own, fun derived => underived (derived_turned derived)⟩
    stays := by
      intro room entry kept other
      obtain ⟨all, room'⟩ := whole room
      apply opens.stays room' entry _ other
      rw [all]
      exact mem_append_left _ kept
    covers := by
      intro room k turn' n positive there derived bound
      obtain ⟨all, room'⟩ := whole room
      cases opens.covers room' positive there derived bound with
      | inr done => exact .inr done
      | inl derived =>
        obtain ⟨d, index, low⟩ := derived
        match d with
        | 0 =>
          have low := low rfl
          rw [start] at low
          exact absurd low UInt32.not_lt_zero
        | 1 =>
          by_cases old : n < s.nr
          · exact .inl ⟨0, by omega, fun _ => old⟩
          -- a message left in the old chain: its key was kept when the ratchet turned
          right
          right
          have live : 2 ≤ i := by omega
          have before : i - 1 = k := by omega
          have last : n < m.env.header.pn := by
            rw [pn]
            apply bound
            rw [show k + 2 = i + 1 by omega]
            exact grows.turn found
          have there' : ledger.turns[k]? = some turn' := by
            rw [← there, getElem?_eq_getElem (by omega)]
            exact (grows.turn (getElem?_eq_getElem (by omega))).symm
          let entry : Skipped S := ⟨turn'.key, n, messageKey S turn'.chain n.toNat,
              messageNonce S turn'.chain n.toNat⟩
          have new : entry ∈ added := (members entry).mpr
            ⟨live, UInt32.not_lt.mp old, last, turn', by rw [before]; exact there', rfl, rfl, rfl⟩
          have stayed := opens.stays room' entry (by rw [all]; exact mem_append_right _ new) (otherTurn entry new)
          exact mem_map.mpr ⟨entry, stayed, rfl⟩
        | d + 2 => exact .inl ⟨d + 1, by omega, fun zero => by omega⟩
    same_ids := by
      rw [opens.same_ids.1, opens.same_ids.2, turns, rests]
      exact ⟨rfl, rfl⟩
    sent := fun same => by omega }

end Tracks

end Miasma.Chat
