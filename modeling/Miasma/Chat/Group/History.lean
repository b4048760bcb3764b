import Miasma.Chat.Group.Membership
import Miasma.Data.Outcome
import Miasma.Data.Recent
import Mathlib.Data.List.Chain

namespace Miasma.Chat.Group

open Data List

/-! # What a chain has accepted

The history of a chain is the whole line of descriptors from the root to the newest one, of
which the chain keeps the last `maxChain`. -/

variable {P : Primitives} {d : Descriptor}

namespace Descriptor

/-- What `check_shape` establishes. -/
structure WellShaped (P : Primitives) (d : Descriptor) : Prop where
  named : 0 < d.name.utf8ByteSize
  nameBound : d.name.utf8ByteSize ≤ maxNameBytes
  populated : d.members ≠ []
  bounded : d.members.length ≤ maxMembers
  hints : ∀ m ∈ d.members, m.hint.utf8ByteSize ≤ maxHintBytes
  keys : ∀ m ∈ d.members, P.validKey m.id = true
  distinct : (d.members.map Member.id).Nodup
  hasAdmin : ∃ m ∈ d.members, m.role = .admin

theorem checkMembers_ok_iff {earlier members : List Member} : checkMembers P earlier members = .ok () ↔
      (∀ m ∈ members, m.hint.utf8ByteSize ≤ maxHintBytes ∧ P.validKey m.id = true) ∧
      (members.map Member.id).Nodup ∧ ∀ m ∈ members, ∀ o ∈ earlier, o.id ≠ m.id := by
  induction members generalizing earlier with
  | nil => simp [checkMembers]
  | cons m rest ih =>
    simp only [checkMembers, ite_ok_iff, ih, Bool.or_eq_true, decide_eq_true_eq, not_or,
      Nat.not_lt, Bool.not_eq_true', Bool.not_eq_false, any_eq_true, beq_iff_eq, not_exists,
      not_and, forall_mem_cons, map_cons, nodup_cons, mem_map,
      mem_append, mem_singleton]
    constructor
    · rintro ⟨⟨hint, key⟩, fresh, rest, nodup, later⟩
      refine ⟨⟨⟨hint, key⟩, rest⟩, ⟨fun other member same => ?_, nodup⟩, fresh, fun o member e early => ?_⟩
      · exact later other member m (.inr rfl) same.symm
      · exact later o member e (.inl early)
    · rintro ⟨⟨⟨hint, key⟩, rest⟩, ⟨absent, nodup⟩, fresh, later⟩
      refine ⟨⟨hint, key⟩, fresh, rest, nodup, fun o member e early => ?_⟩
      rcases early with early | rfl
      · exact later o member e early
      · exact fun same => absent o member same.symm

theorem checkShape_ok_iff : d.checkShape P = .ok () ↔ d.WellShaped P := by
  simp only [checkShape, ite_ok_iff, check_ok_iff, checkMembers_ok_iff, Bool.or_eq_true,
    decide_eq_true_eq, not_or, List.isEmpty_iff, Bool.not_eq_true', Bool.not_eq_false,
    any_eq_true, beq_iff_eq, and_true]
  constructor
  · rintro ⟨⟨named, nameBound⟩, populated, bounded, ⟨each, distinct, -⟩, hasAdmin⟩
    exact ⟨by omega, by omega, populated, by omega, fun m member => (each m member).1,
      fun m member => (each m member).2, distinct, hasAdmin⟩
  intro shape
  have named := shape.named
  have nameBound := shape.nameBound
  have bounded := shape.bounded
  exact ⟨⟨by omega, by omega⟩, shape.populated, by omega,
    ⟨fun m member => ⟨shape.hints m member, shape.keys m member⟩, shape.distinct, by simp⟩,
    shape.hasAdmin⟩

theorem isLeaveOf_iff : d.isLeaveOf new who = true ↔
      d.isMember who = true ∧ new.name = d.name ∧ new.members = d.members.filter (·.id != who) := by
  have zipped : ∀ left right : List Member,
      (left.length == right.length && (left.zip right).all (fun pair => pair.1 == pair.2)) = true ↔ right = left := by
    intro left
    induction left with
    | nil => intro right; cases right <;> simp
    | cons head tail ih =>
      intro right
      cases right with
      | nil => simp
      | cons other rest =>
        have inner := ih rest
        simp only [length_cons, zip_cons_cons, all_cons, Bool.and_eq_true,
          beq_iff_eq, cons.injEq, Nat.add_right_cancel_iff] at inner ⊢
        constructor
        · rintro ⟨length, same, each⟩
          exact ⟨same.symm, inner.mp ⟨length, each⟩⟩
        · rintro ⟨same, tail⟩
          exact ⟨(inner.mpr tail).1, same.symm, (inner.mpr tail).2⟩
  unfold isLeaveOf
  by_cases listed : d.isMember who = true <;> by_cases named : new.name = d.name <;> simp [listed, named, zipped]

/-- `after` is a valid next descriptor: it passes every check of `push` at the
end of a chain whose newest descriptor is `before`. -/
structure Extends (P : Primitives) (before after : Descriptor) : Prop where
  shape : after.WellShaped P
  signed : after.verifySignature P = .ok ()
  gid : after.gid = before.gid
  created : after.createdMs = before.createdMs
  epoch : after.epoch.toNat = before.epoch.toNat + 1
  prevHash : after.prevHash = before.hash P
  authority : before.isAdmin after.signer = true ∨ before.isLeaveOf after after.signer = true

variable {after : Descriptor}

theorem accepts_ok_iff {before : Descriptor} : before.accepts P after = .ok () ↔
      after.WellShaped P ∧ after.verifySignature P = .ok () ∧
      after.gid = before.gid ∧ after.createdMs = before.createdMs ∧
      after.epoch = saturatingSucc before.epoch ∧ after.prevHash = before.hash P ∧
      (before.isAdmin after.signer = true ∨ before.isLeaveOf after after.signer = true) := by
  simp only [accepts, check_ok_iff, checkShape_ok_iff, mayBeFollowedBy, ite_ok_iff, not_or, not_not]
  by_cases authority : (before.isAdmin after.signer || before.isLeaveOf after after.signer) = true
  · simp only [authority, if_true]
    simp only [Bool.or_eq_true] at authority
    tauto
  · simp only [authority]
    simp only [Bool.or_eq_true] at authority
    tauto

theorem Extends.accepted (step : Extends P before after) : before.accepts P after = .ok () := by
  refine accepts_ok_iff.mpr ⟨step.shape, step.signed, step.gid, step.created, ?_, step.prevHash, step.authority⟩
  have bound := after.epoch.toNat_lt
  have value := step.epoch
  apply UInt32.toNat_inj.mp
  rw [toNat_saturatingSucc, value]
  omega

theorem Extends.of_accepted (accepted : before.accepts P after = .ok ())
    (epoch : after.epoch.toNat = before.epoch.toNat + 1) : Extends P before after := by
  obtain ⟨shape, signed, gid, created, -, prevHash, authority⟩ := accepts_ok_iff.mp accepted
  exact ⟨shape, signed, gid, created, epoch, prevHash, authority⟩

end Descriptor

open Descriptor

namespace Chain

theorem latest_eq_getLast? {chain : Chain} : chain.items.getLast? = some chain.latest :=
  getLast?_eq_some_getLast chain.nonempty

/-- What `from_root` establishes. -/
structure RootAccepted (P : Primitives) (root : Descriptor) : Prop where
  shape : root.WellShaped P
  signed : root.verifySignature P = .ok ()
  byAdmin : root.isAdmin root.signer = true
  origin : ¬ (root.epoch = 1 ∧ root.prevHash ≠ ByteVec.fill 32 0)

variable {chain : Chain}

theorem fromRoot_ok_iff : fromRoot P root = .ok chain ↔ RootAccepted P root ∧ chain.items = [root] := by
  simp only [fromRoot, check_ok_iff, checkShape_ok_iff, ite_ok_iff, Bool.not_eq_true',
    Bool.not_eq_false, Except.ok.injEq]
  constructor
  · rintro ⟨shape, signed, byAdmin, origin, rfl⟩
    exact ⟨⟨shape, signed, byAdmin, origin⟩, rfl⟩
  rintro ⟨⟨shape, signed, byAdmin, origin⟩, items⟩
  refine ⟨shape, signed, byAdmin, origin, ?_⟩
  cases chain
  cases items
  rfl

/-- Every way `push` can accept a descriptor. -/
theorem push_ok_cases {next : Chain} (pushed : chain.push P d = .ok (next, result)) :
    (result = .known ∧ next = chain ∧ d.epoch ≤ chain.latest.epoch) ∨
    (result = .replaced ∧ next = chain.replaceLatest d ∧ d.epoch = chain.latest.epoch ∧
      d.hash P < chain.latest.hash P ∧
      ∃ before, chain.items.dropLast.getLast? = some before ∧ before.accepts P d = .ok ()) ∨
    (result = .advanced ∧ next = chain.append d ∧
      d.epoch.toNat = chain.latest.epoch.toNat + 1 ∧ chain.latest.accepts P d = .ok ()) := by
  dsimp only [push] at pushed
  split at pushed
  · cases pushed
  split at pushed
  · cases pushed
  rename_i _ notAhead
  split at pushed
  · rename_i notNewer
    split at pushed
    · cases pushed
      exact .inl ⟨rfl, rfl, notNewer⟩
    rename_i notKnown
    split at pushed
    · cases pushed
      exact .inl ⟨rfl, rfl, notNewer⟩
    rename_i competing
    split at pushed
    · cases pushed
    rename_i before found
    obtain ⟨accepted, rest⟩ := check_ok_iff.mp pushed
    cases rest
    simp only [not_or, not_not] at notKnown competing
    refine .inr (.inl ⟨rfl, rfl, ?_, competing.2, before, found, accepted⟩)
    exact UInt32.le_antisymm notNewer (UInt32.not_lt.mp notKnown.1)
  · rename_i newer
    obtain ⟨accepted, rest⟩ := check_ok_iff.mp pushed
    cases rest
    refine .inr (.inr ⟨rfl, rfl, ?_, accepted⟩)
    have above := UInt32.lt_iff_toNat_lt.mp (UInt32.not_le.mp newer)
    have within := UInt32.le_iff_toNat_le.mp (UInt32.not_lt.mp notAhead)
    rw [toNat_saturatingSucc] at within
    omega

theorem push_advances (step : Extends P chain.latest d) : chain.push P d = .ok (chain.append d, .advanced) := by
  have value := step.epoch
  have bound := d.epoch.toNat_lt
  have notAhead : ¬ d.epoch > saturatingSucc chain.latest.epoch := by
    intro ahead
    have := UInt32.lt_iff_toNat_lt.mp ahead
    rw [toNat_saturatingSucc] at this
    omega
  have newer : ¬ d.epoch ≤ chain.latest.epoch := by
    intro notNewer
    have := UInt32.le_iff_toNat_le.mp notNewer
    omega
  simp only [push, ne_eq, step.gid, not_true_eq_false, if_false, notAhead, newer, step.accepted]
  rfl

theorem push_replaces (held : chain.items.dropLast.getLast? = some before)
    (ours : Extends P before chain.latest) (theirs : Extends P before d)
    (smaller : d.hash P < chain.latest.hash P) : chain.push P d = .ok (chain.replaceLatest d, .replaced) := by
  have epoch : d.epoch = chain.latest.epoch := UInt32.toNat_inj.mp (theirs.epoch.trans ours.epoch.symm)
  have notAhead : ¬ d.epoch > saturatingSucc chain.latest.epoch := by
    intro ahead
    have above := UInt32.lt_iff_toNat_lt.mp ahead
    have bound := chain.latest.epoch.toNat_lt
    rw [toNat_saturatingSucc, epoch] at above
    omega
  have different : d.hash P ≠ chain.latest.hash P := by
    intro same
    rw [same] at smaller
    exact lt_irrefl _ smaller
  have gid : d.gid = chain.latest.gid := theirs.gid.trans ours.gid.symm
  have prevHash : d.prevHash = chain.latest.prevHash := theirs.prevHash.trans ours.prevHash.symm
  have level : d.epoch ≤ chain.latest.epoch := UInt32.le_of_eq epoch
  have notOlder : ¬ d.epoch < chain.latest.epoch := UInt32.not_lt.mpr (UInt32.le_of_eq epoch.symm)
  simp only [push, ne_eq, gid, not_true_eq_false, if_false, notAhead, level, if_true, notOlder,
    different, or_false, prevHash, smaller, held, theirs.accepted]
  rfl

/-- `full` is the line of descriptors that led from `root` to the newest one of
`chain`, and `chain` holds the last `maxChain` of them. -/
structure History (P : Primitives) (root : Descriptor) (chain : Chain) (full : List Descriptor) : Prop where
  starts : full.head? = some root
  rooted : RootAccepted P root
  linked : full.IsChain (Extends P)
  kept : chain.items = recent maxChain full

variable {root : Descriptor} {chain next : Chain} {full : List Descriptor}

section

variable (history : History P root chain full)
include history

theorem History.ne_nil : full ≠ [] := by
  intro empty
  have starts := history.starts
  simp [empty] at starts

theorem History.newest : full.getLast? = some chain.latest := by
  rw [← latest_eq_getLast?, history.kept, getLast?_recent (by decide)]

theorem History.split : full = full.dropLast ++ [chain.latest] := by
  have newest := history.newest
  rw [getLast?_eq_some_iff] at newest
  obtain ⟨front, rfl⟩ := newest
  simp

theorem History.before : chain.items.dropLast.getLast? = full.dropLast.getLast? := by
  rw [history.kept, getLast?_dropLast_recent (by decide)]

theorem History.extends_latest {before : Descriptor}
    (held : chain.items.dropLast.getLast? = some before) : Extends P before chain.latest := by
  rw [history.before] at held
  have linked := history.linked
  rw [history.split, isChain_append] at linked
  exact linked.2.2 before held chain.latest (by simp)

end

theorem extends_pairwise {line : List Descriptor} (linked : line.IsChain (Extends P)) :
    line.Pairwise (·.epoch.toNat < ·.epoch.toNat) := by
  have rising : line.IsChain (·.epoch.toNat < ·.epoch.toNat) :=
    linked.imp (fun _ _ step => by have value := step.epoch; omega)
  exact isChain_iff_pairwise.mp rising

theorem extends_valid (linked : (first :: rest).IsChain (Extends P)) :
    ∀ d ∈ rest, d.WellShaped P ∧ d.verifySignature P = .ok () := by
  induction rest generalizing first with
  | nil => simp
  | cons d rest ih =>
    rw [isChain_cons_cons] at linked
    simp only [forall_mem_cons]
    exact ⟨⟨linked.1.shape, linked.1.signed⟩, ih linked.2⟩

theorem history_fromRoot (started : fromRoot P root = .ok chain) : History P root chain [root] := by
  obtain ⟨rooted, items⟩ := fromRoot_ok_iff.mp started
  exact ⟨rfl, rooted, isChain_singleton root, by rw [items]; rfl⟩

def offerEach (P : Primitives) (chain : Chain) (offered : List Descriptor) : Chain :=
  offered.foldl (Chain.offer P) chain

@[simp] theorem offerEach_cons {chain : Chain} :
    chain.offerEach P (d :: rest) = (chain.offer P d).offerEach P rest := rfl

section

variable (history : History P root chain full)
include history

theorem History.advance (step : Extends P chain.latest d) : History P root (chain.append d) (full ++ [d]) where
  starts := by simp [head?_append, history.starts]
  rooted := history.rooted
  linked := by
    rw [isChain_append]
    refine ⟨history.linked, isChain_singleton d, ?_⟩
    intro last member first found
    rw [history.newest] at member
    cases member
    cases found
    exact step
  kept := by simp only [append, history.kept, recent_concat (by decide : 0 < maxChain)]

theorem History.replace {before : Descriptor}
    (held : chain.items.dropLast.getLast? = some before) (step : Extends P before d) :
    History P root (chain.replaceLatest d) (full.dropLast ++ [d]) where
  starts := by
    rw [history.before] at held
    have starts := history.starts
    rw [history.split, head?_append] at starts
    cases front : full.dropLast with
    | nil => simp [front] at held
    | cons head tail =>
      simp only [front, head?_cons, Option.some_or] at starts
      simp [starts]
  rooted := history.rooted
  linked := by
    have linked := history.linked
    rw [history.split, isChain_append] at linked
    rw [isChain_append]
    refine ⟨linked.1, isChain_singleton d, ?_⟩
    intro last member first found
    rw [← history.before, held] at member
    cases member
    cases found
    exact step
  kept := by
    simp only [replaceLatest, history.kept, recent_replace (by decide : 0 < maxChain) history.ne_nil]

theorem History.offer_cases : chain.offer P d = chain ∨
    (∃ before, chain.items.dropLast.getLast? = some before ∧ Extends P before d ∧
      d.hash P < chain.latest.hash P ∧ chain.offer P d = chain.replaceLatest d ∧
      History P root (chain.offer P d) (full.dropLast ++ [d])) ∨
    (Extends P chain.latest d ∧ chain.offer P d = chain.append d ∧
      History P root (chain.offer P d) (full ++ [d])) := by
  unfold offer
  split
  · rename_i next result pushed
    rcases push_ok_cases pushed with ⟨-, rfl, -⟩ | ⟨-, rfl, epoch, smaller, before, held, accepted⟩ |
      ⟨-, rfl, epoch, accepted⟩
    · exact .inl rfl
    · have ours := history.extends_latest held
      have theirs := Extends.of_accepted accepted (by rw [epoch, ours.epoch])
      exact .inr (.inl ⟨before, held, theirs, smaller, rfl, history.replace held theirs⟩)
    · have step := Extends.of_accepted accepted epoch
      exact .inr (.inr ⟨step, rfl, history.advance step⟩)
  · exact .inl rfl

theorem History.offered (offered : List Descriptor) :
    ∃ after, History P root (offerEach P chain offered) after ∧ ∀ d ∈ after, d ∈ full ∨ d ∈ offered := by
  induction offered generalizing chain full with
  | nil => exact ⟨full, history, fun d member => .inl member⟩
  | cons d rest ih =>
    have extend : ∀ line, History P root (chain.offer P d) line → (∀ e ∈ line, e ∈ full ∨ e = d) →
        ∃ after, History P root (offerEach P chain (d :: rest)) after ∧ ∀ e ∈ after, e ∈ full ∨ e ∈ d :: rest := by
      intro line step known
      obtain ⟨after, run, members⟩ := ih step
      refine ⟨after, run, fun e member => ?_⟩
      rcases members e member with old | new
      · rcases known e old with old | rfl
        · exact .inl old
        · exact .inr mem_cons_self
      · exact .inr (mem_cons_of_mem d new)
    rcases history.offer_cases with same | ⟨_, _, _, _, _, step⟩ | ⟨_, _, step⟩
    · exact extend full (same.symm ▸ history) (fun e member => .inl member)
    · refine extend _ step fun e member => ?_
      simp only [mem_append, mem_singleton] at member
      exact member.imp_left (dropLast_subset full ·)
    · exact extend _ step (by simp)

end

end Chain

end Miasma.Chat.Group
