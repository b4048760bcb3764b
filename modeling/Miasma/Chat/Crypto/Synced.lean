import Miasma.Chat.Crypto.Pair

namespace Miasma.Chat

open Data List

/-! Two sessions stand on neighbouring turns of one ledger, on which every envelope was sealed. -/

variable {S : Suite} (p : Pair S)

/-- The session of a side; before it exists, the responder's is the one
`Session.accept` would open the first envelope in. -/
def Pair.view (base : Session S) (side : Side) : Session S := (p.session side).getD base

/-- The message of `m` is on turn `j`, `d` turns of its sender ago. -/
structure Posted.Stands (m : Posted S) (parties : Parties S) (ledger : Ledger S) (turn : Side → Nat)
    (s : Session S) (j d : Nat) : Prop where
  onTurn : m.OnTurn ledger j (parties.id m.sender) (parties.id m.sender.other)
  index : turn m.sender = j + 2 * d
  counted : d = 0 → m.env.header.n < s.ns
  announced : ∀ {after}, ledger.turns[j + 2]? = some after → m.env.header.n < after.pn

structure Pair.Synced (parties : Parties S) (base : Session S) (ledger : Ledger S)
    (turn : Side → Nat) (p : Pair S) : Prop where
  tracks : ∀ side, Tracks ledger (turn side) (p.view base side)
  ids : ∀ side, (p.view base side).ownId = parties.id side ∧ (p.view base side).peerId = parties.id side.other
  odd : ∃ k, turn .initiator = 2 * k + 1
  near : turn .initiator = turn .responder + 1 ∨ turn .responder = turn .initiator + 1
  newest : ∀ side, ledger.turns.length ≤ turn side + 2 ∧
    (turn side.other = turn side + 1 → ledger.turns.length = turn side + 2)
  behind : ∀ side, turn side = turn side.other + 1 → (p.view base side).nr ≤ (p.view base side.other).ns
  posted : ∀ m ∈ p.posted, ∃ j d, m.Stands parties ledger turn (p.view base m.sender) j d
  distinct : ∀ {k k' : Nat} {m m' : Posted S}, p.posted[k]? = some m → p.posted[k']? = some m' →
    m.sender = m'.sender → m.env.header.position = m'.env.header.position → k = k'
  waiting : p.responder = none → p.initiator.pendingInit = true ∧ p.initiator.originEk = S.publicKey parties.ek ∧
    ∀ m ∈ p.posted, m.sender = .initiator ∧ m.env.header.initEk = some (S.publicKey parties.ek)
  truthful : ∀ d ∈ p.log, ∀ pt, d.result = .ok pt → ∃ m, p.posted[d.index]? = some m ∧ pt = m.plaintext
  opened : ∀ d ∈ p.log, d.opened → ∀ {m : Posted S}, p.posted[d.index]? = some m → ∀ {j},
    m.OnTurn ledger j (parties.id m.sender) (parties.id m.sender.other) →
    (p.view base m.sender.other).Derived (turn m.sender.other) j m.env.header.n ∧
      m.env.header.position ∉ (p.view base m.sender.other).skipped.map Skipped.position
  once : ((p.log.filter Delivery.opened).map Delivery.index).Nodup
  unchanged : ∀ d ∈ p.log, d.opened = false → d.after = d.before
  covered : ∀ side, (∀ d ∈ p.log, d.recipient = side → ¬ d.Evicts) →
    ∀ {k : Nat} {m : Posted S} {j : Nat}, p.posted[k]? = some m → m.sender.other = side →
      m.OnTurn ledger j (parties.id m.sender) (parties.id m.sender.other) →
      (p.view base side).Derived (turn side) j m.env.header.n →
      m.env.header.position ∈ (p.view base side).skipped.map Skipped.position ∨ ∃ d ∈ p.log, d.opened ∧ d.index = k

variable {s : Session S} {m : Posted S} {later : Ledger S} {j : Nat}

theorem Posted.Stands.turn_eq (ideal : S.Ideal) {sender recipient : B32}
    (stands : m.Stands parties ledger turn s j d) (grows : ledger.Grows later)
    (onTurn : m.OnTurn later j' sender recipient) : j' = j := by
  obtain ⟨turn, -, found, key, -⟩ := stands.onTurn.sealing
  obtain ⟨turn', -, found', key', -⟩ := onTurn.sealing
  exact later.index_of_key ideal found' (grows.turn found) (by rw [← key, ← key'])

variable {side : Side}

theorem Pair.view_of_session {p : Pair S} (here : p.session side = some s)
    (base : Session S) : p.view base side = s := by
  rw [view, here]
  rfl

theorem Pair.view_put : (p.put side s).view base side' = if side' = side then s else p.view base side' := by
  cases side <;> cases side' <;> rfl

@[simp] theorem Pair.posted_put (side : Side) (s : Session S) : (p.put side s).posted = p.posted := by
  cases side <;> rfl

@[simp] theorem Pair.log_put : (p.put side s).log = p.log := by
  cases side <;> rfl

@[simp] theorem Pair.posted_record (d : Delivery S) : (p.record d).posted = p.posted := rfl

@[simp] theorem Pair.log_record : (p.record d).log = p.log ++ [d] := rfl

@[simp] theorem Pair.view_record : (p.record d).view base side = p.view base side := by
  cases side <;> rfl

theorem Session.sealWith_frame (s : Session S) (id : B16) (plaintext : Bytes) (layer : Option S.Key) :
    (∃ cks, (s.sealWith id plaintext layer).1 = { s with cks := cks, ns := (s.sealWith id plaintext layer).1.ns }) ∧
      s.ns ≤ (s.sealWith id plaintext layer).1.ns := by
  unfold sealWith
  split
  · exact ⟨⟨s.cks, rfl⟩, UInt32.le_refl _⟩
  split
  · exact ⟨⟨s.cks, rfl⟩, UInt32.le_refl _⟩
  dsimp only
  split
  · exact ⟨⟨_, rfl⟩, UInt32.le_refl _⟩
  rename_i below
  refine ⟨⟨_, rfl⟩, UInt32.le_iff_toNat_le.mpr ?_⟩
  rw [toNat_succ below]
  omega

namespace Pair.Synced

variable {parties : Parties S} {base : Session S} {ledger : Ledger S} {turn : Side → Nat} {p : Pair S}

section

variable (synced : p.Synced parties base ledger turn)
include synced

theorem advance {next : Session S} (here : p.session side = some s) (tracks : Tracks ledger (turn side) next)
    (frame : ∃ cks, next = { s with cks := cks, ns := next.ns }) (more : s.ns ≤ next.ns) :
    (p.put side next).Synced parties base ledger turn := by
  have current := view_of_session here base
  obtain ⟨cks, frame⟩ := frame
  -- only the sending half of the view changes
  have same : ∀ side', ((p.put side next).view base side').nr = (p.view base side').nr ∧
      ((p.put side next).view base side').skipped = (p.view base side').skipped ∧
      (p.view base side').ns ≤ ((p.put side next).view base side').ns := by
    intro side'
    rw [view_put]
    split
    · rename_i mine
      rw [mine, current, frame]
      exact ⟨rfl, rfl, more⟩
    · exact ⟨rfl, rfl, UInt32.le_refl _⟩
  have sameDerived : ∀ side' i j n, ((p.put side next).view base side').Derived i j n ↔
      (p.view base side').Derived i j n := by
    intro side' i j n
    rw [Session.Derived, Session.Derived, (same side').1]
  exact { synced with
    tracks := by
      intro side'
      rw [view_put]
      split
      · rename_i same
        rw [same]
        exact tracks
      · exact synced.tracks side'
    ids := by
      intro side'
      rw [view_put]
      split
      · rename_i same
        rw [same, frame, ← current]
        exact synced.ids side
      · exact synced.ids side'
    behind := by
      intro side' ahead
      rw [(same side').1]
      exact UInt32.le_trans (synced.behind side' ahead) (same side'.other).2.2
    posted := by
      intro m inside
      rw [posted_put] at inside
      obtain ⟨j, d, stands⟩ := synced.posted m inside
      exact ⟨j, d, { stands with
        counted := fun first => UInt32.lt_of_lt_of_le (stands.counted first) (same m.sender).2.2 }⟩
    distinct := by
      rw [posted_put]
      exact synced.distinct
    waiting := by
      intro none
      cases side with
      | initiator =>
        cases here
        rw [frame]
        exact synced.waiting none
      | responder => cases none
    truthful := by
      rw [posted_put, log_put]
      exact synced.truthful
    opened := by
      rw [posted_put, log_put]
      intro d inside ok m found j onTurn
      rw [sameDerived, (same _).2.1]
      exact synced.opened d inside ok found onTurn
    once := by
      rw [log_put]
      exact synced.once
    unchanged := by
      rw [log_put]
      exact synced.unchanged
    covered := by
      intro side' kept k m j found toSide onTurn derived
      rw [log_put] at kept
      rw [posted_put] at found
      rw [sameDerived] at derived
      rw [(same side').2.1, log_put]
      exact synced.covered side' kept found toSide onTurn derived }

theorem post (ideal : S.Ideal) (stands : m.Stands parties ledger turn (p.view base m.sender) (turn m.sender) 0)
    (new : ∀ m' ∈ p.posted, m'.sender = m.sender → m'.env.header.position ≠ m.env.header.position)
    (unread : ¬ (p.view base m.sender.other).Derived (turn m.sender.other) (turn m.sender) m.env.header.n)
    (first : p.responder = none → m.sender = .initiator ∧ m.env.header.initEk = some (S.publicKey parties.ek)) :
    ({ p with posted := p.posted ++ [m] } : Pair S).Synced parties base ledger turn := by
  have older : ∀ {d : Delivery S}, d ∈ p.log → d.opened = true →
      ∀ {m' : Posted S}, (p.posted ++ [m])[d.index]? = some m' → p.posted[d.index]? = some m' := by
    intro d inside ok m' found
    obtain ⟨pt, success⟩ : ∃ pt, d.result = .ok pt := by
      cases result : d.result with
      | ok pt => exact ⟨pt, rfl⟩
      | error => simp [Delivery.opened, result] at ok
    obtain ⟨earlier, there, -⟩ := synced.truthful d inside pt success
    obtain ⟨bound, -⟩ := List.getElem?_eq_some_iff.mp there
    rwa [getElem?_append_left bound] at found
  exact { synced with
    posted := forall_mem_snoc synced.posted ⟨turn m.sender, 0, stands⟩
    distinct := by
      intro k k' m₁ m₂ found found' senders positions
      cases getElem?_snoc found with
      | inl old =>
        cases getElem?_snoc found' with
        | inl old' => exact synced.distinct old old' senders positions
        | inr last' =>
          obtain ⟨-, same⟩ := last'
          subst same
          exact absurd positions (new m₁ (mem_of_getElem? old) senders)
      | inr last =>
        obtain ⟨index, same⟩ := last
        subst same
        cases getElem?_snoc found' with
        | inl old' =>
          exact absurd positions.symm (new m₂ (mem_of_getElem? old') senders.symm)
        | inr last' => rw [index, last'.1]
    waiting := by
      intro none
      obtain ⟨pending, origin, all⟩ := synced.waiting none
      exact ⟨pending, origin, forall_mem_snoc all (first none)⟩
    truthful := by
      intro d inside pt success
      obtain ⟨earlier, there, same⟩ := synced.truthful d inside pt success
      obtain ⟨bound, -⟩ := List.getElem?_eq_some_iff.mp there
      exact ⟨earlier, by rw [getElem?_append_left bound, there], same⟩
    opened := by
      intro d inside ok m' found j onTurn
      exact synced.opened d inside ok (older inside ok found) onTurn
    covered := by
      intro side kept k m' j found toSide onTurn derived
      cases getElem?_snoc found with
      | inl old => exact synced.covered side kept old toSide onTurn derived
      | inr last =>
        obtain ⟨-, same⟩ := last
        subst same
        have index := stands.turn_eq ideal Ledger.Grows.refl onTurn
        subst index toSide
        exact absurd derived unread }

theorem refuse (failed : d.opened = false) (same : d.after = d.before) :
    (p.record d).Synced parties base ledger turn := by
  have older : ∀ {d'}, d' ∈ (p.record d).log → d'.opened = true → d' ∈ p.log := by
    intro d' inside ok
    rcases mem_snoc.mp inside with old | rfl
    · exact old
    rw [failed] at ok
    cases ok
  exact { synced with
    truthful := by
      intro d' inside pt success
      exact synced.truthful d' (older inside (by rw [Delivery.opened, success])) pt success
    opened := fun d' inside ok m found j onTurn =>
      synced.opened d' (older inside ok) ok found onTurn
    once := by
      have skip : (p.record d).log.filter Delivery.opened = p.log.filter Delivery.opened := by
        rw [record, filter_append, filter_singleton, failed]
        simp
      rw [skip]
      exact synced.once
    unchanged := forall_mem_snoc synced.unchanged fun _ => same
    covered := by
      intro side kept k m j found toSide onTurn derived
      have before : ∀ d' ∈ p.log, d'.recipient = side → ¬ d'.Evicts :=
        fun d' inside => kept d' (mem_append_left _ inside)
      cases synced.covered side before found toSide onTurn derived with
      | inl stored => exact .inl stored
      | inr done =>
        obtain ⟨d', inside, ok, index⟩ := done
        exact .inr ⟨d', mem_append_left _ inside, ok, index⟩ }

theorem near_side (side : Side) : turn side = turn side.other + 1 ∨ turn side.other = turn side + 1 := by
  cases side with
  | initiator => exact synced.near
  | responder => exact synced.near.symm

theorem index_recipient (stands : m.Stands parties ledger turn s j d) :
    ∃ d', turn m.sender.other + 1 = j + 2 * d' := by
  have index := stands.index
  rcases synced.near_side m.sender with ahead | behind
  · exact ⟨d, by omega⟩
  · exact ⟨d + 1, by omega⟩

end

def turnsAfter (turn : Side → Nat) (side : Side) (i : Nat) : Side → Nat :=
  fun other => if other = side then i else turn other

theorem turnsAfter_self (turn : Side → Nat) (side : Side) : turnsAfter turn side (turn side) = turn := by
  funext other
  rw [turnsAfter]
  split
  · rename_i same
    rw [same]
  · rfl

theorem other_ne (side : Side) : side.other ≠ side := by cases side <;> decide

@[simp] theorem other_other (side : Side) : side.other.other = side := by cases side <;> rfl

theorem ne_other (different : side ≠ side'.other) : side = side' := by
  cases side <;> cases side' <;> simp_all [Side.other]

theorem turned_cases {next : Session S} (synced : p.Synced parties base ledger turn)
    (stands : m.Stands parties ledger turn (p.view base m.sender) j d)
    (opens : Opens ledger later (turn m.sender.other) i' (p.view base m.sender.other) next j m.env.header fresh) :
    (i' = turn m.sender.other ∧ later = ledger) ∨
      (d = 0 ∧ j = turn m.sender ∧ turn m.sender = turn m.sender.other + 1 ∧
        i' = turn m.sender.other + 2 ∧ ledger.turns.length = turn m.sender.other + 2 ∧
        ∃ mine, later.turns = ledger.turns ++ [mine] ∧ mine.secret = fresh ∧
          mine.pn = (p.view base m.sender.other).ns) := by
  cases opens.turned with
  | inl stayed => exact .inl stayed
  | inr turned =>
    obtain ⟨ahead, moved, mine, facts⟩ := turned
    have index := stands.index
    have near := synced.near_side m.sender
    have older : d = 0 := by omega
    subst older
    have length := (synced.newest m.sender.other).2
      (by cases sender : m.sender <;> simp only [sender, Side.other] at * <;> omega)
    exact .inr ⟨rfl, by omega, by omega, moved, length, mine, facts⟩

section Delivered

/-! One successful delivery of `m`, the envelope at `k`. -/

variable {m : Posted S} {k : Nat} {later : Ledger S} {i' j d : Nat} {next : Session S}
  {fresh : S.Secret} {delivery : Delivery S}

variable {m' : Posted S}

theorem posted_delivered (synced : p.Synced parties base ledger turn)
    (stands : m.Stands parties ledger turn (p.view base m.sender) j d)
    (opens : Opens ledger later (turn m.sender.other) i' (p.view base m.sender.other) next j
      m.env.header fresh) (inside : m' ∈ p.posted) :
    ∃ j' d', m'.Stands parties later (turnsAfter turn m.sender.other i')
      ((p.put m.sender.other next).view base m'.sender) j' d' := by
  obtain ⟨j', d', stands'⟩ := synced.posted m' inside
  have index := stands'.index
  rw [view_put]
  by_cases sender : m'.sender = m.sender.other
  · rw [if_pos sender]
    rw [sender] at index
    cases synced.turned_cases stands opens with
    | inl stayed =>
      obtain ⟨same, sameLedger⟩ := stayed
      subst sameLedger
      refine ⟨j', d', { stands' with index := ?_, counted := ?_ }⟩
      · rw [turnsAfter, if_pos sender, same, index]
      intro first
      rw [opens.sent same, ← sender]
      exact stands'.counted first
    | inr turned =>
      -- the recipient's own chain ends: its length is announced by the new turn
      obtain ⟨-, -, -, moved, length, mine, extended, -, count⟩ := turned
      refine ⟨j', d' + 1, ⟨stands'.onTurn.grow opens.grows, ?_, fun zero => by omega, ?_⟩⟩
      · rw [turnsAfter, if_pos sender, moved, index]
        omega
      intro after found
      rw [extended] at found
      rcases getElem?_snoc found with old | ⟨newest, rfl⟩
      · exact stands'.announced old
      rw [count, ← sender]
      exact stands'.counted (by omega)
  · rw [if_neg sender]
    have same : m'.sender = m.sender := ne_other sender
    refine ⟨j', d', ⟨stands'.onTurn.grow opens.grows, ?_, stands'.counted, ?_⟩⟩
    · rw [turnsAfter, if_neg sender, index]
    intro after found
    cases synced.turned_cases stands opens with
    | inl stayed =>
      rw [stayed.2] at found
      exact stands'.announced found
    | inr turned =>
      obtain ⟨-, -, ahead, -, length, mine, extended, -, -⟩ := turned
      rw [extended] at found
      rw [same] at index
      rcases getElem?_snoc found with old | ⟨newest, -⟩
      · exact stands'.announced old
      · omega

theorem opened_delivered (ideal : S.Ideal) (synced : p.Synced parties base ledger turn)
    (opens : Opens ledger later (turn m.sender.other) i' (p.view base m.sender.other) next j
      m.env.header fresh) (inside : d' ∈ p.log) (ok : d'.opened = true)
    (found : p.posted[d'.index]? = some m')
    (onTurn : m'.OnTurn later j' (parties.id m'.sender) (parties.id m'.sender.other)) :
    ((p.put m.sender.other next).view base m'.sender.other).Derived
        (turnsAfter turn m.sender.other i' m'.sender.other) j' m'.env.header.n ∧
      m'.env.header.position ∉
        ((p.put m.sender.other next).view base m'.sender.other).skipped.map Skipped.position := by
  obtain ⟨j₀, d₀, stands'⟩ := synced.posted m' (mem_of_getElem? found)
  have index := stands'.turn_eq ideal opens.grows onTurn
  subst index
  obtain ⟨derived, gone⟩ := synced.opened d' inside ok found stands'.onTurn
  rw [view_put, turnsAfter]
  by_cases recipient : m'.sender.other = m.sender.other
  · rw [if_pos recipient, if_pos recipient]
    rw [recipient] at derived gone
    refine ⟨opens.later_derived derived, fun stored => ?_⟩
    obtain ⟨entry, kept, same⟩ := mem_map.mp stored
    cases opens.source entry kept with
    | inl old => exact gone (mem_map.mpr ⟨entry, old, same⟩)
    | inr new =>
      obtain ⟨j₁, turn₁, there, key, underived⟩ := new
      obtain ⟨turn', -, found', key', -⟩ := onTurn.sealing
      obtain ⟨keys, numbers⟩ := Prod.mk.inj same
      have same := later.index_of_key ideal there found' (by rw [← key, ← key', keys])
      rw [same, numbers] at underived
      exact underived derived
  · rw [if_neg recipient, if_neg recipient]
    exact ⟨derived, gone⟩

section

variable (ideal : S.Ideal) (synced : p.Synced parties base ledger turn) (found : p.posted[k]? = some m)
    (stands : m.Stands parties ledger turn (p.view base m.sender) j d)
    (opens : Opens ledger later (turn m.sender.other) i' (p.view base m.sender.other) next j m.env.header fresh)
    (index : delivery.index = k) (recipient : delivery.recipient = m.sender.other)
include ideal synced found stands opens index recipient

theorem covered_delivered (success : delivery.opened = true)
    (room : ¬ delivery.Evicts → (p.view base m.sender.other).skipped.length +
      (p.view base m.sender.other).keysAhead m.env.header ≤ maxStoredSkipped) (side : Side)
    (kept : ∀ d' ∈ p.log ++ [delivery], d'.recipient = side → ¬ d'.Evicts) (found' : p.posted[k']? = some m')
    (toSide : m'.sender.other = side)
    (onTurn : m'.OnTurn later j' (parties.id m'.sender) (parties.id m'.sender.other))
    (derived : ((p.put m.sender.other next).view base side).Derived
      (turnsAfter turn m.sender.other i' side) j' m'.env.header.n) :
    m'.env.header.position ∈ ((p.put m.sender.other next).view base side).skipped.map Skipped.position ∨
      ∃ d' ∈ p.log ++ [delivery], d'.opened = true ∧ d'.index = k' := by
  obtain ⟨j₀, d₀, stands'⟩ := synced.posted m' (mem_of_getElem? found')
  have turnSame := stands'.turn_eq ideal opens.grows onTurn
  subst turnSame
  have before : ∀ d' ∈ p.log, d'.recipient = side → ¬ d'.Evicts := fun d' inside => kept d' (mem_append_left _ inside)
  have past := fun old => synced.covered side before found' toSide stands'.onTurn old
  have done : (∃ d' ∈ p.log, d'.opened = true ∧ d'.index = k') →
      ∃ d' ∈ p.log ++ [delivery], d'.opened = true ∧ d'.index = k' := by
    intro old
    obtain ⟨d', inside, ok, same⟩ := old
    exact ⟨d', mem_append_left _ inside, ok, same⟩
  rw [view_put] at derived ⊢
  rw [turnsAfter] at derived
  by_cases mine : side = m.sender.other
  · rw [if_pos mine, if_pos mine] at derived
    rw [if_pos mine]
    subst mine
    have fits := room (kept delivery (mem_append_right _ mem_cons_self) recipient)
    have sameSender : m'.sender = m.sender := by
      cases first : m'.sender <;> cases second : m.sender <;> simp_all [Side.other]
    -- an envelope at the position just opened is the envelope just opened
    have this_one : m'.env.header.position = m.env.header.position →
        ∃ d' ∈ p.log ++ [delivery], d'.opened = true ∧ d'.index = k' := by
      intro same
      have indices := synced.distinct found' found sameSender same
      exact ⟨delivery, mem_append_right _ mem_cons_self, success, by rw [index, indices]⟩
    obtain ⟨turn', padded, there, key, -⟩ := onTurn.sealing
    obtain ⟨j₁, d₁, stands₁⟩ := synced.posted_delivered stands opens (mem_of_getElem? found')
    have turnSame := stands₁.turn_eq ideal Ledger.Grows.refl onTurn
    subst turnSame
    cases opens.covers fits onTurn.positive there derived stands₁.announced with
    | inl old =>
      cases past old with
      | inl stored =>
        by_cases same : m'.env.header.position = m.env.header.position
        · exact .inr (this_one same)
        obtain ⟨entry, inside, position⟩ := mem_map.mp stored
        have stays := opens.stays fits entry inside (by rw [position]; exact same)
        exact .inl (mem_map.mpr ⟨entry, stays, position⟩)
      | inr opened => exact .inr (done opened)
    | inr rest =>
      cases rest with
      | inl same =>
        obtain ⟨turns, numbers⟩ := same
        obtain ⟨turn₂, -, there₂, key₂, -⟩ := (stands.onTurn.grow opens.grows).sealing
        rw [← turns, there] at there₂
        cases there₂
        exact .inr (this_one (Prod.ext (by
          change m'.env.header.dhPub = m.env.header.dhPub
          rw [key, key₂]) numbers))
      | inr stored =>
        left
        rw [Header.position, key]
        exact stored
  · rw [if_neg mine, if_neg mine] at derived
    rw [if_neg mine]
    cases past derived with
    | inl stored => exact .inl stored
    | inr opened => exact .inr (done opened)

theorem deliver (success : delivery.result = .ok m.plaintext)
    (room : ¬ delivery.Evicts → (p.view base m.sender.other).skipped.length +
      (p.view base m.sender.other).keysAhead m.env.header ≤ maxStoredSkipped) :
    ((p.put m.sender.other next).record delivery).Synced parties base later (turnsAfter turn m.sender.other i') := by
  have posted := (posted_record (p.put m.sender.other next) delivery).trans (posted_put p m.sender.other next)
  have log : ((p.put m.sender.other next).record delivery).log = p.log ++ [delivery] := by
    rw [log_record, log_put]
  have ok : delivery.opened = true := by rw [Delivery.opened, success]
  have mineTurn : turnsAfter turn m.sender.other i' m.sender.other = i' := if_pos rfl
  have theirTurn : turnsAfter turn m.sender.other i' m.sender = turn m.sender := if_neg (other_ne m.sender).symm
  have mineView : ((p.put m.sender.other next).record delivery).view base m.sender.other = next := by
    rw [view_record, view_put, if_pos rfl]
  have theirView : ((p.put m.sender.other next).record delivery).view base m.sender = p.view base m.sender := by
    rw [view_record, view_put, if_neg (other_ne m.sender).symm]
  have both : ∀ {P : Side → Prop}, P m.sender.other → P m.sender → ∀ side, P side := by
    intro P first second side
    by_cases mine : side = m.sender.other
    · rw [mine]
      exact first
    · rw [ne_other mine]
      exact second
  have cases := synced.turned_cases stands opens
  have near := synced.near_side m.sender
  exact {
    tracks := by
      apply both
      · rw [mineTurn, mineView]
        exact opens.tracks
      · rw [theirTurn, theirView]
        exact (synced.tracks m.sender).grow opens.grows
    ids := by
      apply both
      · rw [mineView, opens.same_ids.1, opens.same_ids.2]
        exact synced.ids m.sender.other
      · rw [theirView]
        exact synced.ids m.sender
    odd := by
      obtain ⟨half, odd⟩ := synced.odd
      rw [turnsAfter]
      split
      · rename_i mine
        rw [← mine] at cases
        cases cases with
        | inl => exact ⟨half, by omega⟩
        | inr => exact ⟨half + 1, by omega⟩
      · exact ⟨half, odd⟩
    near := by
      have sides : turnsAfter turn m.sender.other i' m.sender = turnsAfter turn m.sender.other i' m.sender.other + 1 ∨
          turnsAfter turn m.sender.other i' m.sender.other = turnsAfter turn m.sender.other i' m.sender + 1 := by
        rw [mineTurn, theirTurn]
        cases cases with
        | inl stayed =>
          rw [stayed.1]
          exact near
        | inr turned =>
          exact .inr (by omega)
      cases sender : m.sender with
      | initiator =>
        rw [sender] at sides
        exact sides
      | responder =>
        rw [sender] at sides
        exact sides.symm
    newest := by
      cases cases with
      | inl stayed =>
        have same : turnsAfter turn m.sender.other i' = turn := by
          rw [stayed.1]
          exact turnsAfter_self turn m.sender.other
        rw [same, stayed.2]
        exact synced.newest
      | inr turned =>
        obtain ⟨-, -, ahead, moved, length, mine, extended, -, -⟩ := turned
        rw [extended, length_append, length_singleton]
        apply both
        · rw [mineTurn, other_other, theirTurn]
          exact ⟨by omega, fun impossible => by omega⟩
        · exact ⟨by omega, fun _ => by omega⟩
    behind := by
      apply both
      · rw [mineTurn, other_other, theirTurn, mineView, theirView]
        intro ahead
        cases opens.reads with
        | inl same =>
          have old := synced.behind m.sender.other
          rw [other_other, ← same.1] at old
          rw [same.2]
          exact old ahead
        | inr moved =>
          obtain ⟨current, read⟩ := moved
          have here := stands.counted (by have := stands.index; omega)
          rw [read]
          apply UInt32.le_iff_toNat_le.mpr
          rw [toNat_succ stands.onTurn.counted]
          exact UInt32.lt_iff_toNat_lt.mp here
      · rw [mineTurn, theirTurn, mineView, theirView]
        intro ahead
        cases cases with
        | inl stayed =>
          rw [opens.sent stayed.1]
          exact synced.behind m.sender (by rw [← stayed.1]; exact ahead)
        | inr => omega
    posted := by
      rw [posted]
      exact fun m' inside => synced.posted_delivered stands opens inside
    distinct := by
      rw [posted]
      exact synced.distinct
    waiting := by
      intro none
      have inside := mem_of_getElem? found
      cases sender : m.sender with
      | initiator =>
        rw [sender] at none
        cases none
      | responder =>
        rw [sender] at none
        have impossible := ((synced.waiting none).2.2 m inside).1
        rw [sender] at impossible
        cases impossible
    truthful := by
      rw [posted, log]
      refine forall_mem_snoc synced.truthful fun pt good => ?_
      rw [success] at good
      cases good
      exact ⟨m, by rw [index, found], rfl⟩
    opened := by
      rw [posted, log]
      refine forall_mem_snoc (fun d' old good m' found' j' onTurn =>
        synced.opened_delivered ideal opens old good found' onTurn) fun _ m' found' j' onTurn => ?_
      rw [index, found] at found'
      cases found'
      have same := stands.turn_eq ideal opens.grows onTurn
      subst same
      rw [mineView, mineTurn]
      exact ⟨opens.derived, opens.gone⟩
    once := by
      rw [log, filter_append, filter_singleton, ok]
      simp only [cond_true, map_append, map_cons, map_nil]
      apply Nodup.append synced.once (by simp)
      intro k' old new
      rw [mem_singleton, index] at new
      subst new
      obtain ⟨d', inside, same⟩ := mem_map.mp old
      obtain ⟨inside, good⟩ := mem_filter.mp inside
      obtain ⟨derived, gone⟩ := synced.opened d' inside good (by rw [same, found]) stands.onTurn
      cases opens.unopened with
      | inl stored => exact gone stored
      | inr underived => exact underived derived
    unchanged := by
      rw [log]
      exact forall_mem_snoc synced.unchanged fun failed => absurd (ok.symm.trans failed) (by decide)
    covered := by
      intro side kept k' m' j' found' toSide onTurn derived
      rw [log] at kept
      rw [posted] at found'
      rw [log]
      exact synced.covered_delivered ideal found stands opens index recipient ok room side kept
        found' toSide onTurn derived }

end

end Delivered

end Pair.Synced

end Miasma.Chat
