import Miasma.Chat.Crypto.Receive

namespace Miasma.Chat

open Data Session

/-! `open_with` on an authentic envelope: what a success means, and when it is
certain. -/

variable {S : Suite}

namespace Session

theorem openWith_error {s : Session S} (refused : (s.openWith env layer fresh).2 = .error e) :
    (s.openWith env layer fresh).1 = s := by
  unfold openWith at refused ⊢
  split at refused
  all_goals
    split at refused
    · rfl
    · cases refused

variable {position : B32 × UInt32} {entries : List (Skipped S)}

theorem kept_of_hit (hit : entries.find? (·.position = position) = some entry) :
    entry ∈ entries ∧ entry.position = position :=
  ⟨List.mem_of_find?_eq_some hit, by simpa using List.find?_some hit⟩

theorem absent_of_missed (missed : entries.find? (·.position = position) = none) :
    position ∉ entries.map Skipped.position := by
  simpa [List.find?_eq_none] using missed

theorem skipUntil_succeeds {s : Session S}
    (near : s.ckr.isSome → s.dhr.isSome ∧ bound.toNat - s.nr.toNat ≤ maxSkip.toNat) :
    ∃ next, s.skipUntil bound = .ok next := by
  unfold skipUntil
  split
  · exact ⟨s, rfl⟩
  rename_i ck chain
  obtain ⟨peer, close⟩ := near (by rw [chain]; rfl)
  split
  · exact ⟨s, rfl⟩
  rename_i ahead
  have distance : (bound - s.nr).toNat = bound.toNat - s.nr.toNat :=
    UInt32.toNat_sub_of_le _ _ (UInt32.le_of_lt (UInt32.not_le.mp ahead))
  have inside : ¬ bound - s.nr > maxSkip := by
    intro far
    have wide := UInt32.lt_iff_toNat_lt.mp far
    omega
  rw [if_neg inside]
  obtain ⟨dh, known⟩ := Option.isSome_iff_exists.mp peer
  rw [known]
  exact ⟨_, rfl⟩

theorem dhRatchet_succeeds (ideal : S.Ideal) {s : Session S} :
    ∃ next, s.dhRatchet (S.publicKey peer) fresh = .ok next := by
  obtain ⟨first, agreed⟩ := ideal.diffieHellman_contributes s.dhs peer
  obtain ⟨second, agreed'⟩ := ideal.diffieHellman_contributes fresh peer
  simp only [dhRatchet, dh, agreed, agreed', bind, Except.bind]
  exact ⟨_, rfl⟩

end Session

namespace Tracks

variable {ledger : Ledger S} {i j d : Nat} {s next : Session S} {m : Sent S}
  {sender recipient : B32} {layer : Option S.Key} {fresh : S.Secret} {pt : Bytes}

theorem peer_known (tracks : Tracks ledger i s) (live : s.ckr.isSome) : s.dhr.isSome := by
  have late := tracks.live_iff.mp live
  obtain ⟨turn, found, -⟩ := tracks.own
  obtain ⟨inside, -⟩ := List.getElem?_eq_some_iff.mp found
  rw [tracks.peer, if_neg (by omega), List.getElem?_eq_getElem (by omega)]
  rfl

theorem rests (tracks : Tracks ledger i s) (near : s.ckr.isSome → bound.toNat - s.nr.toNat ≤ maxSkip.toNat) :
    ∃ next, s.skipUntil bound = .ok next :=
  skipUntil_succeeds fun live => ⟨tracks.peer_known live, near live⟩

/-- A text that opens under the key of some chain position is the text sealed,
and the position is the one it was sealed at. -/
theorem opened_text (ideal : S.Ideal) (onTurn : m.OnTurn ledger j sender recipient)
    (found : ledger.turns[j]? = some turn) {ckr : S.Key}
    (opened : openMsg S (S.kdfChain ckr).key nonce aad m.env.ciphertext layer m.env.header.dhPub
      m.env.header.n = .ok padded) (text : unpad padded = .ok pt) :
    pt = m.plaintext ∧ ckr = chainKey S turn.chain m.env.header.n.toNat := by
  obtain ⟨turn', padded', found', -, -, fits, spelled⟩ := onTurn.sealing
  rw [found] at found'
  cases found'
  rw [spelled, messageKey] at opened
  obtain ⟨chains, texts⟩ := ideal.openMsg_ok opened
  rw [texts, unpad_pad fits] at text
  cases text
  exact ⟨rfl, chains⟩

theorem openWith_ok (ideal : S.Ideal) (tracks : Tracks ledger i s)
    (onTurn : m.OnTurn ledger j sender recipient) (index : i + 1 = j + 2 * d)
    (newest : j = i + 1 → ledger.turns.length = i + 2)
    (unused : fresh ∉ ledger.turns.map Turn.secret)
    (opened : s.openWith m.env layer fresh = (next, .ok pt)) :
    pt = m.plaintext ∧ ∃ later i', Opens ledger later i i' s next j m.env.header fresh := by
  obtain ⟨turn, padded, found, key, -⟩ := onTurn.sealing
  unfold openWith at opened
  split at opened
  · rename_i entry hit
    obtain ⟨inside, same⟩ := kept_of_hit hit
    split at opened
    · cases opened
    · rename_i text opening
      cases opened
      obtain ⟨padded', opening, unpadding⟩ := bind_ok_iff.mp opening
      obtain ⟨-, belongs⟩ := tracks.kept_key ideal onTurn inside same
      obtain ⟨keys, numbers⟩ := Prod.mk.inj same
      rw [(belongs found).1, messageKey, keys, numbers] at opening
      exact ⟨(opened_text ideal onTurn found opening unpadding).1, ledger, i,
        tracks.opens_kept ideal onTurn inside same⟩
  rename_i missed
  have absent := absent_of_missed missed
  split at opened
  · cases opened
  rename_i final text opening
  cases opened
  obtain ⟨turned, reached, ckr, padded', turning, skip, chain, opening, unpadding, -, result⟩ :=
    openNext_ok opening
  obtain ⟨same, position⟩ := opened_text ideal onTurn found opening unpadding
  refine ⟨same, ?_⟩
  subst result
  unfold turnTo at turning
  rw [key] at turning
  split at turning
  · rename_i other
    have apart : j + 1 ≠ i := fun current => other ((tracks.peer_iff ideal found).mpr current)
    obtain ⟨rested, rest, turning⟩ := bind_ok_iff.mp turning
    rw [← key] at turning
    by_cases ahead : j = i + 1
    · obtain ⟨later, opens⟩ := tracks.opens_turn ideal onTurn ahead (newest ahead) unused rest
        turning skip chain absent
      exact ⟨later, i + 2, opens⟩
    -- a key the session has left behind: the chain is another one
    exfalso
    obtain ⟨restedTracks, -⟩ := tracks.skipUntil_ok ideal rest
    obtain ⟨first, second, agreed, -, turns⟩ := dhRatchet_ok turning
    have live : turned.ckr = some (chainKey S (S.kdfRoot rested.root first).2 turned.nr.toNat) := by
      rw [turns]
      rfl
    have start : turned.nr ≤ m.env.header.n := by
      rw [turns]
      exact UInt32.zero_le
    have bounded : turned.skipped.length ≤ maxStoredSkipped := by
      rw [turns]
      exact restedTracks.bounded
    obtain ⟨reaches, -⟩ := skipUntil_reaches skip bounded live start
    rw [chain] at reaches
    have keys : messageKey S (S.kdfRoot rested.root first).2 m.env.header.n.toNat =
        messageKey S turn.chain m.env.header.n.toNat := by
      rw [messageKey, messageKey, ← Option.some.inj reaches, position]
    rw [key] at agreed
    exact restedTracks.stale_chain ideal found onTurn.positive (by omega) agreed
      (ideal.chain_of_messageKey keys)
  · rename_i known
    have current : j + 1 = i := (tracks.peer_iff ideal found).mp (by simpa using known)
    split at turning
    · cases turning
    rename_i ahead
    cases turning
    exact ⟨ledger, i, tracks.opens_current ideal onTurn current (UInt32.not_lt.mp ahead) skip
      chain absent fresh⟩

theorem openNext_succeeds (ideal : S.Ideal) (onTurn : m.OnTurn ledger j s.peerId s.ownId)
    (found : ledger.turns[j]? = some turn) (turning : s.turnTo m.env.header fresh = .ok turned)
    (bounded : turned.skipped.length ≤ maxStoredSkipped)
    (live : turned.ckr = some (chainKey S turn.chain turned.nr.toNat)) (peer : turned.dhr.isSome)
    (ahead : turned.nr ≤ m.env.header.n) (near : m.env.header.n.toNat - turned.nr.toNat ≤ maxSkip.toNat)
    (matching : m.layer = none ∨ layer = m.layer) :
    ∃ final, s.openNext m.env layer fresh = .ok (final, m.plaintext) := by
  obtain ⟨turn', padded, found', -, -, fits, spelled⟩ := onTurn.sealing
  rw [found] at found'
  cases found'
  obtain ⟨reached, skip⟩ := skipUntil_succeeds (fun _ => ⟨peer, near⟩)
  obtain ⟨chain, arrived⟩ := skipUntil_reaches skip bounded live ahead
  have opening : openMsg S (S.kdfChain (chainKey S turn.chain m.env.header.n.toNat)).key
      (S.kdfChain (chainKey S turn.chain m.env.header.n.toNat)).nonce
      (m.env.aad s.peerId s.ownId) m.env.ciphertext layer m.env.header.dhPub m.env.header.n = .ok padded := by
    rw [spelled]
    exact ideal.openMsg_seal matching
  have below : reached.nr ≠ 0xffffffff := by
    rw [arrived]
    exact onTurn.counted
  refine ⟨{ reached with
    ckr := some (S.kdfChain (chainKey S turn.chain m.env.header.n.toNat)).next
    nr := reached.nr + 1
    pendingInit := false }, ?_⟩
  simp only [openNext, turning, skip, chain, opening, unpad_pad fits, bind, Except.bind, if_neg below]

theorem openWith_succeeds (ideal : S.Ideal) (tracks : Tracks ledger i s)
    (onTurn : m.OnTurn ledger j s.peerId s.ownId) (index : i + 1 = j + 2 * d)
    (newest : j = i + 1 → ledger.turns.length = i + 2)
    (unused : fresh ∉ ledger.turns.map Turn.secret)
    (unopened : m.env.header.position ∈ s.skipped.map Skipped.position ∨ ¬ s.Derived i j m.env.header.n)
    (reach : s.WithinReach m.env.header) (matching : m.layer = none ∨ layer = m.layer) :
    ∃ next, s.openWith m.env layer fresh = (next, .ok m.plaintext) := by
  obtain ⟨turn, padded, found, key, pn, fits, spelled⟩ := onTurn.sealing
  unfold openWith
  split
  · rename_i entry hit
    obtain ⟨inside, same⟩ := kept_of_hit hit
    obtain ⟨-, belongs⟩ := tracks.kept_key ideal onTurn inside same
    obtain ⟨keys, numbers⟩ := Prod.mk.inj same
    have opening : openMsg S entry.key entry.nonce (m.env.aad s.peerId s.ownId) m.env.ciphertext
        layer entry.dh entry.n = .ok padded := by
      rw [(belongs found).1, (belongs found).2, keys, numbers, spelled, messageKey, messageNonce]
      exact ideal.openMsg_seal matching
    simp only [opening, bind, Except.bind, unpad_pad fits]
    exact ⟨_, rfl⟩
  rename_i missed
  have absent := absent_of_missed missed
  have underived := unopened.resolve_left absent
  have near := reach.resolve_left absent
  have opens : ∃ final, s.openNext m.env layer fresh = .ok (final, m.plaintext) := by
    rcases d with _ | _ | d
    · have ahead : j = i + 1 := by omega
      subst ahead
      have other : ¬ s.dhr = some m.env.header.dhPub := by
        rw [key, tracks.peer_iff ideal found]
        omega
      rw [if_neg other] at near
      obtain ⟨rested, rest⟩ := tracks.rests near.2
      obtain ⟨restedTracks, -⟩ := tracks.skipUntil_ok ideal rest
      obtain ⟨turned, turns⟩ := dhRatchet_succeeds ideal
      obtain ⟨later, mine, extended, -, -, turnedTracks⟩ :=
        restedTracks.dhRatchet ideal found (newest rfl) unused turns
      have grows : ledger.Grows later := ⟨[mine], extended.symm⟩
      obtain ⟨first, second, -, -, result⟩ := dhRatchet_ok turns
      have start : turned.nr = 0 := by rw [result]
      apply openNext_succeeds ideal onTurn found
      · rw [turnTo, if_pos other, rest, key]
        exact turns
      · exact turnedTracks.bounded
      · rw [turnedTracks.receives, if_neg (by omega), Nat.add_sub_cancel (i + 1) 1, grows.turn found]
        rfl
      · rw [result]
        rfl
      · rw [start]
        exact UInt32.zero_le
      · rw [start]
        exact near.1
      · exact matching
    · have current : j + 1 = i := by omega
      have known := (tracks.peer_iff ideal found).mpr current
      have ahead : s.nr ≤ m.env.header.n := UInt32.not_lt.mp fun low => underived ⟨0, by omega, fun _ => low⟩
      rw [key, if_pos known] at near
      apply openNext_succeeds ideal onTurn found
      · rw [turnTo, if_neg (by rw [key, known]; simp), if_neg (UInt32.not_lt.mpr ahead)]
      · exact tracks.bounded
      · have positive := onTurn.positive
        rw [tracks.receives, if_neg (by omega), ← current, Nat.add_sub_cancel, found]
        rfl
      · rw [known]
        rfl
      · exact ahead
      · exact near
      · exact matching
    · exact absurd ⟨d + 1, by omega, fun zero => by omega⟩ underived
  obtain ⟨final, opened⟩ := opens
  rw [opened]
  exact ⟨final, rfl⟩

end Tracks

end Miasma.Chat
