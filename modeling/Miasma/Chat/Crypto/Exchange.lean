import Miasma.Chat.Crypto.Synced

namespace Miasma.Chat

open Data Symbolic List ByteVec Session Pair

/-! Runs of two sessions: safety and completeness of the ratchet. -/

variable {S : Suite}

/-- The secrets of a run are drawn afresh: no ratchet secret occurs twice, and none
is the responder's identity key, which plays the first one. -/
def Parties.Fresh (parties : Parties S) (events : List (Event S)) : Prop :=
  (parties.bob.dhSecret :: parties.ratchet :: events.filterMap Event.secret).Nodup

instance [DecidableEq S.Secret] (parties : Parties S) (events : List (Event S)) : Decidable (parties.Fresh events) :=
  inferInstanceAs (Decidable (Nodup _))

/-- The keys before the envelope of `m` that its recipient has not derived are
few enough to be derived at once. -/
def Pair.WithinReach (p : Pair S) (m : Posted S) : Prop := match p.session m.sender.other with
  | some s => s.WithinReach m.env.header
  | none => m.env.header.n.toNat ≤ maxSkip.toNat

instance (p : Pair S) (m : Posted S) : Decidable (p.WithinReach m) := match h : p.session m.sender.other with
  | some s => decidable_of_iff (s.WithinReach m.env.header) (by rw [Pair.WithinReach, h])
  | none => decidable_of_iff (m.env.header.n.toNat ≤ maxSkip.toNat) (by rw [Pair.WithinReach, h])

/-- `m` was sealed without a hybrid key, or the recipient opens with the same
one.  The envelope that creates a session is opened without one. -/
def Pair.LayerMatches (p : Pair S) (m : Posted S) (layer : Option S.Key) : Prop :=
  m.layer = none ∨ (layer = m.layer ∧ (p.session m.sender.other).isSome)

theorem Parties.start_synced (ideal : S.Ideal) (parties : Parties S)
    (different : parties.bob.dhSecret ≠ parties.ratchet) :
    ∃ s base ledger, newInitiator parties.alice parties.bob.id parties.ek parties.ratchet = .ok s ∧
      newResponder parties.bob parties.alice.id (S.publicKey parties.ek) = .ok base ∧
      ledger.turns.map Turn.secret = [parties.bob.dhSecret, parties.ratchet] ∧
      base.skipped = [] ∧ base.dhr = none ∧ base.ckr = none ∧
      (⟨s, none, [], []⟩ : Pair S).Synced parties base ledger
        (fun side => match side with | .initiator => 1 | .responder => 0) := by
  obtain ⟨dh1, agreed1⟩ := ideal.diffieHellman_contributes parties.alice.dhSecret parties.bob.dhSecret
  obtain ⟨dh2, agreed2⟩ := ideal.diffieHellman_contributes parties.ek parties.bob.dhSecret
  obtain ⟨shared, agreed⟩ := ideal.diffieHellman_contributes parties.ratchet parties.bob.dhSecret
  have agreed1' := agreed1
  have agreed2' := agreed2
  rw [ideal.diffieHellman_symm] at agreed1' agreed2'
  let sk := S.kdfFirstFlight dh1 dh2 parties.alice.id parties.bob.id (S.publicKey parties.ek)
  let first : Turn S := ⟨parties.bob.dhSecret, sk, sk, 0⟩
  let second : Turn S := ⟨parties.ratchet, (S.kdfRoot sk shared).1, (S.kdfRoot sk shared).2, 0⟩
  let ledger : Ledger S := {
    turns := [first, second]
    follows := by
      intro i before after found found'
      rcases i with _ | _ | i
      · cases found
        cases found'
        exact ⟨shared, agreed, rfl⟩
      · cases found'
      · cases found
    distinct := by simp [first, second, different] }
  refine ⟨?mine, ?theirs, ledger, ?_, ?_, rfl, ?_, ?_, ?_, ?_⟩
  rotate_left 2
  · simp only [newInitiator, peerDhPublic, parties.bob.known_key, parties.bob.own_key, dh,
      agreed1, agreed2, agreed, bind, Except.bind]
    rfl
  · simp only [newResponder, peerDhPublic, parties.alice.known_key, parties.alice.own_key,
      dh, agreed1', agreed2', bind, Except.bind]
    rfl
  · rfl
  · rfl
  · rfl
  exact {
    tracks := by
      intro side
      cases side with
      | initiator =>
        exact {
          own := ⟨second, rfl, rfl, rfl, rfl, rfl, fun ck moved _ => by cases moved; rfl⟩
          sends := by simp [view, session]
          unsent := by rintro ⟨⟩
          peer := by
            rfl
          receives := rfl
          unread := fun _ => rfl
          kept := by rintro _ ⟨⟩
          once := nodup_nil
          bounded := Nat.zero_le _ }
      | responder =>
        exact {
          own := ⟨first, rfl, rfl, parties.bob.own_key, rfl, rfl, fun ck moved _ => by cases moved⟩
          sends := by simp [view, session]
          unsent := fun _ => rfl
          peer := rfl
          receives := rfl
          unread := fun _ => rfl
          kept := by rintro _ ⟨⟩
          once := nodup_nil
          bounded := Nat.zero_le _ }
    ids := by
      intro side
      cases side <;> exact ⟨rfl, rfl⟩
    odd := ⟨0, rfl⟩
    near := .inl rfl
    newest := by
      intro side
      cases side with
      | initiator => exact ⟨by simp [ledger], by rintro ⟨⟩⟩
      | responder => exact ⟨by simp [ledger], fun _ => rfl⟩
    behind := by
      intro side ahead
      cases side with
      | initiator => exact UInt32.le_refl _
      | responder => cases ahead
    posted := fun m inside => by cases inside
    distinct := fun found => by cases found
    waiting := fun _ => ⟨rfl, rfl, fun m inside => by cases inside⟩
    truthful := fun d inside => by cases inside
    opened := fun d inside => by cases inside
    once := nodup_nil
    unchanged := fun d inside => by cases inside
    covered := fun side kept k m j found => by cases found }

namespace Pair.Synced

variable {parties : Parties S} {base : Session S} {ledger : Ledger S} {turn : Side → Nat} {p : Pair S}

theorem put_self (here : p.session side = some s) : p.put side s = p := by
  cases side with
  | initiator =>
    cases here
    rfl
  | responder =>
    cases p
    cases here
    rfl

theorem sealing (ideal : S.Ideal) (synced : p.Synced parties base ledger turn) {id : B16} :
    (p.step parties (.post side id plaintext layer)).Synced parties base ledger turn := by
  unfold step
  dsimp only
  split
  · exact synced
  rename_i s here
  have current := view_of_session here base
  have tracks := synced.tracks side
  rw [current] at tracks
  obtain ⟨moved, sealed⟩ := tracks.sealWith
  obtain ⟨frame, more⟩ := s.sealWith_frame id plaintext layer
  have advanced := synced.advance here moved frame more
  split
  · rename_i env success
    obtain ⟨onTurn, number, next, first⟩ := sealed env success
    obtain ⟨ownId, peerId⟩ := synced.ids side
    rw [current] at ownId peerId
    rw [ownId, peerId] at onTurn
    have view : (p.put side (s.sealWith id plaintext layer).1).view base side =
        (s.sealWith id plaintext layer).1 := by rw [view_put, if_pos rfl]
    have room : env.header.n ≠ 0xffffffff := onTurn.counted
    apply advanced.post ideal (m := ⟨⟨env, plaintext, layer⟩, side⟩)
    · refine ⟨onTurn, rfl, fun _ => ?_, ?_⟩
      · rw [view]
        apply UInt32.lt_iff_toNat_lt.mpr
        rw [next, ← number, toNat_succ room]
        exact Nat.lt_succ_self _
      · intro after found
        obtain ⟨inside, -⟩ := List.getElem?_eq_some_iff.mp found
        have length := (synced.newest side).1
        dsimp only at inside
        omega
    · intro m' inside sender same
      rw [posted_put] at inside
      obtain ⟨j, d, stands⟩ := synced.posted m' inside
      obtain ⟨turn', -, found, key, -⟩ := onTurn.sealing
      obtain ⟨turn'', -, found', key', -⟩ := stands.onTurn.sealing
      obtain ⟨keys, numbers⟩ := Prod.mk.inj same
      have index := ledger.index_of_key ideal found found' (by
        rw [← key, ← key']
        exact keys.symm)
      have place := stands.index
      have low := stands.counted (by rw [sender] at place; dsimp only at place; omega)
      rw [sender, current, numbers] at low
      rw [number] at low
      exact UInt32.lt_irrefl _ low
    · intro derived
      obtain ⟨d, index, low⟩ := derived
      dsimp only at index low
      have near := synced.near_side side
      have ahead : turn side.other = turn side + 1 := by omega
      have first := low (by omega)
      have same : (p.put side (s.sealWith id plaintext layer).1).view base side.other = p.view base side.other := by
        rw [view_put, if_neg (other_ne side)]
      have read := synced.behind side.other (by rw [other_other]; exact ahead)
      rw [other_other, current, ← number] at read
      rw [same] at first
      exact absurd first (UInt32.not_lt.mpr read)
    · intro none
      cases side with
      | initiator =>
        cases here
        obtain ⟨pending, origin, -⟩ := synced.waiting none
        refine ⟨rfl, ?_⟩
        rw [first, pending, origin]
        rfl
      | responder => cases none
  · exact advanced

/-- A message of the turn after the recipient's is of the newest turn. -/
theorem newest_of_ahead (synced : p.Synced parties base ledger turn) {m : Posted S}
    (stands : m.Stands parties ledger turn s j d) (ahead : j = turn m.sender.other + 1) :
    ledger.turns.length = turn m.sender.other + 2 := by
  have place := stands.index
  have near := synced.near_side m.sender
  apply (synced.newest m.sender.other).2
  rw [other_other]
  omega

theorem responder_of_unmade (unmade : p.session side = none) : side = .responder ∧ p.responder = none := by
  cases side with
  | initiator => cases unmade
  | responder => exact ⟨rfl, unmade⟩

section

variable (ideal : S.Ideal) (synced : p.Synced parties base ledger turn)
    (made : newResponder parties.bob parties.alice.id (S.publicKey parties.ek) = .ok base)
    (empty : base.skipped = []) (noPeer : base.dhr = none) (noChain : base.ckr = none)
include ideal synced made empty noPeer noChain

theorem receive (found : p.posted[k]? = some m) (unused : fresh ∉ ledger.turns.map Turn.secret) :
    ∃ later turn', (p.receive parties k m layer fresh).Synced parties base later turn' ∧
      ∀ secret ∈ later.turns.map Turn.secret, secret ∈ ledger.turns.map Turn.secret ∨ secret = fresh := by
  obtain ⟨j, d, stands⟩ := synced.posted m (mem_of_getElem? found)
  obtain ⟨d', index⟩ := synced.index_recipient stands
  have tracks := synced.tracks m.sender.other
  -- every success is an `Opens` of the recipient's view
  have opening : ∀ {used next pt}, (p.view base m.sender.other).openWith m.env used fresh =
      (next, .ok pt) → ∀ {delivery : Delivery S}, delivery.index = k →
      delivery.recipient = m.sender.other → delivery.result = .ok pt →
      (¬ delivery.Evicts → (p.view base m.sender.other).WithinReach m.env.header →
        (p.view base m.sender.other).skipped.length +
          (p.view base m.sender.other).keysAhead m.env.header ≤ maxStoredSkipped) →
      ∃ later turn', ((p.put m.sender.other next).record delivery).Synced parties base later turn' ∧
        ∀ secret ∈ later.turns.map Turn.secret, secret ∈ ledger.turns.map Turn.secret ∨ secret = fresh := by
    intro used next pt opened delivery at_index to_side success room
    obtain ⟨same, later, i', opens⟩ := tracks.openWith_ok ideal stands.onTurn index
      (synced.newest_of_ahead stands) unused opened
    subst same
    refine ⟨later, _, synced.deliver ideal found stands opens at_index to_side success
      (room · opens.reach), ?_⟩
    intro secret inside
    cases opens.turned with
    | inl stayed =>
      rw [stayed.2] at inside
      exact .inl inside
    | inr turned =>
      obtain ⟨-, -, mine, extended, drawn, -⟩ := turned
      rw [extended, map_append, mem_append] at inside
      cases inside with
      | inl old => exact .inl old
      | inr new =>
        rw [map_singleton, mem_singleton, drawn] at new
        exact .inr new
  unfold Pair.receive
  dsimp only
  split
  · rename_i s here
    have current := view_of_session here base
    rw [current] at opening
    cases outcome : s.openWith m.env layer fresh with
    | mk next result =>
      cases result with
      | error =>
        have same : next = s := by
          have unchanged := openWith_error (congrArg Prod.snd outcome)
          rw [outcome] at unchanged
          exact unchanged
        subst same
        rw [put_self here]
        exact ⟨ledger, turn, synced.refuse rfl rfl, fun secret inside => .inl inside⟩
      | ok =>
        apply opening outcome rfl rfl rfl
        intro kept _
        by_contra beyond
        exact kept ⟨rfl, by simpa using Nat.lt_of_not_le beyond⟩
  · rename_i unmade
    have current : p.view base m.sender.other = base := by rw [view, unmade]; rfl
    have flight := ((synced.waiting (responder_of_unmade unmade).2).2.2 m (mem_of_getElem? found)).2
    rw [current] at opening
    cases outcome : base.openWith m.env none fresh with
    | mk next result =>
      cases result with
      | error e =>
        have refused : accept parties.bob parties.alice.id m.env fresh = .error e := by
          simp only [accept, flight, made, bind, Except.bind, outcome]
        rw [refused]
        exact ⟨ledger, turn, synced.refuse rfl rfl, fun secret inside => .inl inside⟩
      | ok pt =>
        have accepted : accept parties.bob parties.alice.id m.env fresh = .ok (next, pt) := by
          simp only [accept, flight, made, bind, Except.bind, outcome]
        rw [accepted]
        apply opening outcome rfl rfl rfl
        intro _ reach
        have absent : m.env.header.position ∉ base.skipped.map Skipped.position := by
          rw [empty]
          simp
        have near := reach.resolve_left absent
        rw [noPeer, if_neg (by simp)] at near
        rw [keysAhead_of_absent absent, noPeer, if_neg (by simp), noChain, empty]
        have small : maxSkip.toNat ≤ maxStoredSkipped := by decide
        simp only [length_nil, Option.isSome_none, Bool.false_eq_true, if_false]
        omega

theorem run {events : List (Event S)} (drawn : (events.filterMap Event.secret).Nodup)
    (unused : ∀ secret ∈ events.filterMap Event.secret, secret ∉ ledger.turns.map Turn.secret) :
    ∃ later turn', (events.foldl (step parties) p).Synced parties base later turn' ∧
      ∀ secret ∈ later.turns.map Turn.secret,
        secret ∈ ledger.turns.map Turn.secret ∨ secret ∈ events.filterMap Event.secret := by
  induction events generalizing p ledger turn with
  | nil => exact ⟨ledger, turn, synced, fun secret inside => .inl inside⟩
  | cons event events ih =>
    cases event with
    | post side id plaintext layer =>
      exact ih (synced.sealing ideal) drawn unused
    | deliver k layer fresh =>
      obtain ⟨new, rest⟩ := nodup_cons.mp drawn
      have stepped : ∃ later turn', (p.step parties (.deliver k layer fresh)).Synced parties base
          later turn' ∧ ∀ secret ∈ later.turns.map Turn.secret,
            secret ∈ ledger.turns.map Turn.secret ∨ secret = fresh := by
        unfold step
        dsimp only
        split
        · exact ⟨ledger, turn, synced, fun secret inside => .inl inside⟩
        rename_i m found
        exact synced.receive ideal made empty noPeer noChain found (unused fresh mem_cons_self)
      obtain ⟨middle, turn₁, synced₁, known⟩ := stepped
      obtain ⟨later, turn₂, synced₂, known'⟩ := ih synced₁ rest (by
        intro secret inside already
        cases known secret already with
        | inl old => exact unused secret (mem_cons_of_mem _ inside) old
        | inr same =>
          rw [same] at inside
          exact new inside)
      refine ⟨later, turn₂, synced₂, fun secret inside => ?_⟩
      cases known' secret inside with
      | inl old =>
        cases known secret old with
        | inl oldest => exact .inl oldest
        | inr same => exact .inr (mem_cons.mpr (.inl same))
      | inr later => exact .inr (mem_cons_of_mem _ later)

end

end Pair.Synced

theorem Parties.run_synced (ideal : S.Ideal) (parties : Parties S) (fresh : parties.Fresh events) :
    ∃ p base ledger turn, parties.run events = .ok p ∧
      newResponder parties.bob parties.alice.id (S.publicKey parties.ek) = .ok base ∧
      base.skipped = [] ∧ base.dhr = none ∧ base.ckr = none ∧
      p.Synced parties base ledger turn ∧ ∀ secret ∈ ledger.turns.map Turn.secret,
        secret ∈ parties.bob.dhSecret :: parties.ratchet :: events.filterMap Event.secret := by
  obtain ⟨outside, rest⟩ := nodup_cons.mp fresh
  obtain ⟨outside', drawn⟩ := nodup_cons.mp rest
  obtain ⟨s, base, ledger, started, made, secrets, empty, noPeer, noChain, synced⟩ :=
    parties.start_synced ideal (fun same => outside (by rw [same]; exact mem_cons_self))
  obtain ⟨later, turn, final, known⟩ := synced.run ideal made empty noPeer noChain drawn (by
    intro secret inside
    rw [secrets, mem_cons, mem_singleton]
    rintro (rfl | rfl)
    · exact outside (mem_cons_of_mem _ inside)
    · exact outside' inside)
  refine ⟨_, base, later, turn, ?_, made, empty, noPeer, noChain, final, ?_⟩
  · simp only [Parties.run, started, bind, Except.bind]
    rfl
  intro secret inside
  have drawn := known secret inside
  rw [secrets] at drawn
  simpa [or_assoc] using drawn

/-- In every run, whatever opens is what was sealed, no envelope opens twice, and
a refused envelope changes nothing. -/
theorem ratchet_safe (ideal : S.Ideal) (parties : Parties S) (events : List (Event S))
    (fresh : parties.Fresh events) :
    ∃ p, parties.run events = .ok p ∧ (∀ d ∈ p.log, ∀ pt, d.result = .ok pt →
        ∃ m, p.posted[d.index]? = some m ∧ pt = m.plaintext) ∧
      ((p.log.filter Delivery.opened).map (fun d => p.posted[d.index]?)).Nodup ∧
      ∀ d ∈ p.log, ∀ e, d.result = .error e → d.after = d.before := by
  obtain ⟨p, base, ledger, turn, ran, -, -, -, -, synced, -⟩ := parties.run_synced ideal fresh
  refine ⟨p, ran, synced.truthful, ?_, ?_⟩
  · have once := synced.once
    rw [nodup_iff_pairwise_ne, pairwise_map] at once ⊢
    apply once.imp_of_mem
    intro d d' inside inside' different same
    obtain ⟨inside, ok⟩ := mem_filter.mp inside
    obtain ⟨pt, success⟩ : ∃ pt, d.result = .ok pt := by
      cases result : d.result with
      | ok pt => exact ⟨pt, rfl⟩
      | error => simp [Delivery.opened, result] at ok
    obtain ⟨m, found, -⟩ := synced.truthful d inside pt success
    exact different (synced.distinct found (same ▸ found) rfl rfl)
  · intro d inside e failed
    exact synced.unchanged d inside (by rw [Delivery.opened, failed])

namespace Symbolic

def parties : Parties suite := ⟨person 1, person 2, fill 32 3, fill 32 4⟩

/-- Four messages of the initiator with one answer before the last.  The second
arrives first, the first twice, the third not at all. -/
def events : List (Event suite) := [.post .initiator (fill 16 1) [10] none, .post .initiator (fill 16 2) [11] none,
    .post .initiator (fill 16 3) [12] none,
    .deliver 1 none (fill 32 5),
    .deliver 0 none (fill 32 6),
    .deliver 0 none (fill 32 7),
    .post .responder (fill 16 4) [13] none,
    .deliver 3 none (fill 32 8),
    .post .initiator (fill 16 5) [14] none,
    .deliver 4 none (fill 32 9)]

def opened (run : Except CryptoError (Pair suite)) : List (Nat × Bool) := match run with
  | .ok p => p.log.map (fun d => (d.index, d.opened))
  | .error _ => []

/-- The envelope at `k` was not opened and can be. -/
def ready (run : Except CryptoError (Pair suite)) (k : Nat) : Bool := match run with
  | .ok p => p.posted[k]?.any fun m =>
    (∀ d ∈ p.log, d.index = k → d.opened = false) ∧
      (∀ d ∈ p.log, d.recipient = m.sender.other → ¬ d.Evicts) ∧ p.WithinReach m ∧
      m.layer = none
  | .error _ => false

end Symbolic

theorem ratchet_safe_reordered : parties.Fresh events ∧
      ∃ p, parties.run events = .ok p ∧ p.log.map (fun d => (d.index, d.opened)) =
          [(1, true), (0, true), (0, false), (3, true), (4, true)] ∧
        ∀ d ∈ p.log, ∀ pt, d.result = .ok pt → ∃ m, p.posted[d.index]? = some m ∧ pt = m.plaintext := by
  have fresh : parties.Fresh events := by decide +kernel
  have observed : opened (parties.run events) =
      [(1, true), (0, true), (0, false), (3, true), (4, true)] := by decide +kernel
  obtain ⟨p, ran, truthful, -, -⟩ := ratchet_safe suite_ideal parties events fresh
  rw [ran] at observed
  exact ⟨fresh, p, ran, observed, truthful⟩

/-- An envelope that was not opened yet opens when it is delivered, unless a key of
its recipient was evicted or too many are missing before it; and no table of skipped
keys grows past its bound. -/
theorem ratchet_complete (ideal : S.Ideal) (parties : Parties S) (events : List (Event S))
    (fresh : parties.Fresh events) :
    ∃ p, parties.run events = .ok p ∧ (∀ side s, p.session side = some s → s.skipped.length ≤ maxStoredSkipped) ∧
      ∀ k m layer secret, parties.Fresh (events ++ [.deliver k layer secret]) → p.posted[k]? = some m →
        (∀ d ∈ p.log, d.index = k → d.opened = false) →
        (∀ d ∈ p.log, d.recipient = m.sender.other → ¬ d.Evicts) →
        p.WithinReach m → p.LayerMatches m layer →
        ∃ d, (p.step parties (.deliver k layer secret)).log = p.log ++ [d] ∧
          d.index = k ∧ d.result = .ok m.plaintext := by
  obtain ⟨p, base, ledger, turn, ran, made, empty, noPeer, noChain, synced, known⟩ :=
    parties.run_synced ideal fresh
  refine ⟨p, ran, ?_, ?_⟩
  · intro side s here
    have bounded := (synced.tracks side).bounded
    rw [view, here] at bounded
    exact bounded
  intro k m layer secret fresh' found unopened kept reach matching
  have unused : secret ∉ ledger.turns.map Turn.secret := by
    intro inside
    have again := known secret inside
    rw [Parties.Fresh, filterMap_append, ← cons_append, ← cons_append] at fresh'
    exact (nodup_append.mp fresh').2.2 secret again secret (by simp [Event.secret]) rfl
  obtain ⟨j, d, stands⟩ := synced.posted m (mem_of_getElem? found)
  obtain ⟨d', index⟩ := synced.index_recipient stands
  have newest := synced.newest_of_ahead stands
  -- the key is still to be derived, or it is kept
  have pending : m.env.header.position ∈ (p.view base m.sender.other).skipped.map Skipped.position ∨
      ¬ (p.view base m.sender.other).Derived (turn m.sender.other) j m.env.header.n := by
    by_cases derived : (p.view base m.sender.other).Derived (turn m.sender.other) j m.env.header.n
    · cases synced.covered m.sender.other kept found rfl stands.onTurn derived with
      | inl stored => exact .inl stored
      | inr done =>
        obtain ⟨d₁, inside, ok, same⟩ := done
        have failed := unopened d₁ inside same
        rw [ok] at failed
        cases failed
    · exact .inr derived
  obtain ⟨ownId, peerId⟩ := synced.ids m.sender.other
  have onTurn := stands.onTurn
  rw [← ownId, ← Synced.other_other m.sender, ← peerId, Synced.other_other] at onTurn
  have step : p.step parties (.deliver k layer secret) = p.receive parties k m layer secret := by
    simp only [step, found]
  rw [step]
  unfold Pair.receive
  dsimp only
  cases here : p.session m.sender.other with
  | some s =>
    have current := view_of_session here base
    rw [Pair.WithinReach, here] at reach
    have same : m.layer = none ∨ layer = m.layer := matching.imp id And.left
    have tracks := synced.tracks m.sender.other
    rw [current] at tracks pending onTurn
    obtain ⟨next, opened⟩ := tracks.openWith_succeeds ideal onTurn index newest unused pending reach same
    dsimp only
    rw [opened]
    refine ⟨⟨k, m.sender.other, m.env.header, some s, some next, .ok m.plaintext⟩, ?_, rfl, rfl⟩
    cases m.sender <;> rfl
  | none =>
    have current : p.view base m.sender.other = base := by rw [view, here]; rfl
    rw [Pair.WithinReach, here] at reach
    have plain : m.layer = none := by
      cases matching with
      | inl none => exact none
      | inr both =>
        rw [here] at both
        cases both.2
    have missing := (Synced.responder_of_unmade here).2
    have flight := ((synced.waiting missing).2.2 m (mem_of_getElem? found)).2
    have tracks := synced.tracks m.sender.other
    rw [current] at tracks pending onTurn
    have within : base.WithinReach m.env.header := by
      right
      rw [noPeer, if_neg (by simp), noChain]
      exact ⟨reach, fun live => by cases live⟩
    obtain ⟨next, opened⟩ : ∃ next, base.openWith m.env none secret = (next, .ok m.plaintext) :=
      tracks.openWith_succeeds ideal onTurn index newest unused pending within (.inl plain)
    have accepted : accept parties.bob parties.alice.id m.env secret = .ok (next, m.plaintext) := by
      simp only [accept, flight, made, bind, Except.bind, opened]
    rw [accepted]
    refine ⟨⟨k, m.sender.other, m.env.header, none, some next, .ok m.plaintext⟩, ?_, rfl, rfl⟩
    cases m.sender <;> rfl

/-- The third message, kept over two turns of the ratchet. -/
theorem ratchet_complete_late : ∃ p m d, parties.run events = .ok p ∧ p.posted[2]? = some m ∧
      (p.step parties (.deliver 2 none (fill 32 10))).log = p.log ++ [d] ∧
      d.result = .ok m.plaintext := by
  have fresh : parties.Fresh (events ++ [.deliver 2 none (fill 32 10)]) := by decide +kernel
  have before : parties.Fresh events := by decide +kernel
  have ready : ready (parties.run events) 2 = true := by decide +kernel
  obtain ⟨p, ran, -, complete⟩ := ratchet_complete suite_ideal parties events before
  rw [ran] at ready
  obtain ⟨m, found, facts⟩ := (Option.any_eq_true _ _).mp ready
  obtain ⟨unopened, kept, reach, plain⟩ := of_decide_eq_true facts
  obtain ⟨d, logged, -, result⟩ := complete 2 m none _ fresh found unopened kept reach (.inl plain)
  exact ⟨p, m, d, ran, found, logged, result⟩

end Miasma.Chat
