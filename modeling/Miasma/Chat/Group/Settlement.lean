import Miasma.Chat.Group.History
import Mathlib.Data.Finset.Card

namespace Miasma.Chat.Group

open Data Descriptor List Chain

/-! # Where concurrent changes settle

The smaller hash wins among the changes of one descriptor; a change that has been extended is
never replaced. -/

variable {P : Primitives} {root : Descriptor} {ds : List Descriptor}

/-- A set of valid descriptors with a common root and, for each other
descriptor, its predecessor.  Different descriptors of the set have different
hashes. -/
structure ClosedSet (P : Primitives) (root : Descriptor) (ds : List Descriptor) : Prop where
  rooted : root ∈ ds
  valid : ∀ d ∈ ds, d ≠ root → ∃ before ∈ ds, before.accepts P d = .ok ()
  distinct : ∀ d ∈ ds, ∀ e ∈ ds, d.hash P = e.hash P → d = e

/-- Where a device ends that is offered all of `ds`, in any order and as often
as needed until nothing changes. -/
structure Chain.SettledOn (P : Primitives) (start : Chain) (ds : List Descriptor) (chain : Chain) : Prop where
  reached : ∃ run, (∀ d, d ∈ run ↔ d ∈ ds) ∧ start.offerEach P run = chain
  unchanged : ∀ d ∈ ds, chain.offer P d = chain

/-- No descriptor that has a sibling with a smaller hash is itself followed by
another one. -/
def LosersUnextended (P : Primitives) (ds : List Descriptor) : Prop :=
  ∀ before ∈ ds, ∀ loser ∈ ds, ∀ winner ∈ ds, ∀ next ∈ ds,
    Extends P before loser → Extends P before winner → winner.hash P < loser.hash P → ¬ Extends P loser next

variable {line : List Descriptor}

namespace Chain

variable {chain start : Chain} {full : List Descriptor}

@[simp] theorem latest_append (chain : Chain) (d : Descriptor) : (chain.append d).latest = d := by
  unfold latest append
  split
  · rw [getLast_tail]
    exact getLast_concat
  · exact getLast_concat

@[simp] theorem latest_replaceLatest (chain : Chain) (d : Descriptor) : (chain.replaceLatest d).latest = d :=
  getLast_concat

variable {d : Descriptor}

theorem offer_advances (step : Extends P chain.latest d) : chain.offer P d = chain.append d := by
  rw [offer, push_advances step]

theorem offer_replaces (held : chain.items.dropLast.getLast? = some before)
    (ours : Extends P before chain.latest) (theirs : Extends P before d)
    (smaller : d.hash P < chain.latest.hash P) : chain.offer P d = chain.replaceLatest d := by
  rw [offer, push_replaces held ours theirs smaller]

theorem not_extends_of_unchanged (unchanged : chain.offer P d = chain) : ¬ Extends P chain.latest d := by
  intro step
  have same : d = chain.latest := by
    rw [← latest_append chain d, ← offer_advances step, unchanged]
  have epoch := step.epoch
  rw [← same] at epoch
  omega

theorem History.not_smaller_of_unchanged {before : Descriptor} (history : History P root chain full)
    (unchanged : chain.offer P d = chain) (held : full.dropLast.getLast? = some before)
    (theirs : Extends P before d) : ¬ d.hash P < chain.latest.hash P := by
  intro smaller
  rw [← history.before] at held
  have same : d = chain.latest := by
    rw [← latest_replaceLatest chain d, ← offer_replaces held (history.extends_latest held) theirs smaller, unchanged]
  rw [same] at smaller
  exact lt_irrefl _ smaller

theorem offerEach_append {chain : Chain} :
    chain.offerEach P (first ++ second) = (chain.offerEach P first).offerEach P second :=
  foldl_append

theorem offerEach_unchanged (unchanged : ∀ d ∈ offered, chain.offer P d = chain) :
    chain.offerEach P offered = chain := by
  induction offered with
  | nil => rfl
  | cons d rest ih =>
    simp only [forall_mem_cons] at unchanged
    rw [offerEach_cons, unchanged.1]
    exact ih unchanged.2

theorem History.follow (history : History P root chain full) (linked : (chain.latest :: line).IsChain (Extends P)) :
    History P root (chain.offerEach P line) (full ++ line) := by
  induction line generalizing chain full with
  | nil => exact (append_nil full).symm ▸ history
  | cons d rest ih =>
    rw [isChain_cons_cons] at linked
    have step := history.advance linked.1
    have tail := ih step (by simpa using linked.2)
    rw [append_assoc, singleton_append] at tail
    rw [offerEach_cons, offer_advances linked.1]
    exact tail

end Chain

open Chain

/-! ## Settled devices agree -/

variable {front rest : List Descriptor} {before : Descriptor}

theorem extends_of_split {after : Descriptor}
    (linked : (front ++ before :: after :: rest).IsChain (Extends P)) : Extends P before after :=
  (isChain_append_cons_cons.mp linked).2.1

variable {d : Descriptor} {chain : Chain}

theorem Chain.History.latest_eq (history : History P root chain (front ++ [d])) : chain.latest = d := by
  have newest := history.newest
  rw [getLast?_concat] at newest
  exact (Option.some.inj newest).symm

theorem settled_holds_no_loser (unextended : LosersUnextended P ds)
    (history : History P root chain (front ++ before :: loser :: rest))
    (within : ∀ d ∈ front ++ before :: loser :: rest, d ∈ ds) (settled : ∀ d ∈ ds, chain.offer P d = chain)
    (member : winner ∈ ds) (sibling : Extends P before winner) : ¬ winner.hash P < loser.hash P := by
  intro smaller
  have step := extends_of_split history.linked
  cases rest with
  | nil =>
    have split : front ++ [before, loser] = (front ++ [before]) ++ [loser] := by simp
    have latest : chain.latest = loser := History.latest_eq (split ▸ history)
    have held : (front ++ [before, loser]).dropLast.getLast? = some before := by
      rw [split, dropLast_concat, getLast?_concat]
    exact history.not_smaller_of_unchanged (settled winner member) held sibling (latest ▸ smaller)
  | cons next rest =>
    have linked : ((front ++ [before]) ++ loser :: next :: rest).IsChain (Extends P) := by
      simpa using history.linked
    have follows := extends_of_split linked
    exact unextended before (within before (by simp)) loser (within loser (by simp)) winner member
      next (within next (by simp)) step sibling smaller follows

variable {other : List Descriptor}

theorem settled_lines_agree (closed : ClosedSet P root ds) (unextended : LosersUnextended P ds)
    (first : History P root one (front ++ p :: rest)) (second : History P root two (front ++ p :: other))
    (restWithin : ∀ d ∈ front ++ p :: rest, d ∈ ds) (otherWithin : ∀ d ∈ front ++ p :: other, d ∈ ds)
    (oneSettled : ∀ d ∈ ds, one.offer P d = one) (twoSettled : ∀ d ∈ ds, two.offer P d = two) :
    rest = other := by
  induction rest generalizing front p other with
  | nil =>
    cases other with
    | nil => rfl
    | cons y other =>
      have latest : one.latest = p := first.latest_eq
      have step := extends_of_split second.linked
      exact absurd (latest ▸ step) (not_extends_of_unchanged (oneSettled y (otherWithin y (by simp))))
  | cons x rest ih =>
    cases other with
    | nil =>
      have latest : two.latest = p := second.latest_eq
      have step := extends_of_split first.linked
      exact absurd (latest ▸ step) (not_extends_of_unchanged (twoSettled x (restWithin x (by simp))))
    | cons y other =>
      have xMember := restWithin x (by simp)
      have yMember := otherWithin y (by simp)
      have notLess := settled_holds_no_loser unextended second otherWithin twoSettled xMember
        (extends_of_split first.linked)
      have notGreater := settled_holds_no_loser unextended first restWithin oneSettled yMember
        (extends_of_split second.linked)
      have same : x = y :=
        closed.distinct x xMember y yMember (le_antisymm (not_lt.mp notGreater) (not_lt.mp notLess))
      subst same
      have firstOn : History P root one ((front ++ [p]) ++ x :: rest) := by simpa using first
      have secondOn : History P root two ((front ++ [p]) ++ x :: other) := by simpa using second
      rw [ih firstOn secondOn (by simpa using restWithin) (by simpa using otherWithin)]

theorem settled_latest_eq (closed : ClosedSet P root ds) (started : fromRoot P root = .ok start)
    (unextended : LosersUnextended P ds) (first : start.SettledOn P ds one)
    (second : start.SettledOn P ds two) : one.latest = two.latest := by
  have line : ∀ chain, start.SettledOn P ds chain →
      ∃ rest, History P root chain ([] ++ root :: rest) ∧ ∀ d ∈ [] ++ root :: rest, d ∈ ds := by
    intro chain settled
    obtain ⟨run, members, rfl⟩ := settled.reached
    obtain ⟨full, history, origin⟩ := (history_fromRoot started).offered run
    obtain ⟨rest, rfl⟩ := head?_eq_some_iff.mp history.starts
    refine ⟨rest, history, fun d member => ?_⟩
    rcases origin d member with old | offered
    · exact mem_singleton.mp old ▸ closed.rooted
    · exact (members d).mp offered
  obtain ⟨rest, oneHistory, oneWithin⟩ := line one first
  obtain ⟨other, twoHistory, twoWithin⟩ := line two second
  have same := settled_lines_agree closed unextended oneHistory twoHistory oneWithin twoWithin
    first.unchanged second.unchanged
  have newest := oneHistory.newest
  rw [same, twoHistory.newest] at newest
  exact (Option.some.inj newest).symm

/-! ## Every device settles somewhere -/

/-- How many descriptors of the set have a hash below `d`'s. -/
def rank (P : Primitives) (ds : List Descriptor) (d : Descriptor) : Nat :=
  (ds.toFinset.filter (·.hash P < d.hash P)).card

theorem rank_le (P : Primitives) (ds : List Descriptor) (d : Descriptor) : rank P ds d ≤ ds.toFinset.card :=
  Finset.card_filter_le _ _

variable {e : Descriptor}

theorem rank_lt (member : d ∈ ds) (smaller : d.hash P < e.hash P) : rank P ds d < rank P ds e := by
  apply Finset.card_lt_card
  rw [Finset.ssubset_iff_of_subset]
  · refine ⟨d, by simp [member, smaller], ?_⟩
    simp
  intro other below
  simp only [Finset.mem_filter] at below ⊢
  exact ⟨below.1, lt_trans below.2 smaller⟩

/-- Falls with every change of the newest descriptor. -/
def unrest (P : Primitives) (ds : List Descriptor) (d : Descriptor) : Nat :=
  (2 ^ 32 - d.epoch.toNat) * (ds.toFinset.card + 1) + rank P ds d

theorem unrest_advance (step : Extends P d e) : unrest P ds e < unrest P ds d := by
  have bound := e.epoch.toNat_lt
  have epoch := step.epoch
  have below := rank_le P ds e
  obtain ⟨gap, next⟩ : ∃ gap, 2 ^ 32 - d.epoch.toNat = gap + 1 := ⟨2 ^ 32 - d.epoch.toNat - 1, by omega⟩
  have same : 2 ^ 32 - e.epoch.toNat = gap := by omega
  unfold unrest
  rw [next, same, Nat.succ_mul]
  omega

theorem unrest_replace (member : e ∈ ds) (ours : Extends P before d)
    (theirs : Extends P before e) (smaller : e.hash P < d.hash P) : unrest P ds e < unrest P ds d := by
  have lower := rank_lt member smaller
  unfold unrest
  rw [theirs.epoch, ours.epoch]
  omega

/-- `line` cannot be changed any more at the front of `full`: it has been
extended, or its last descriptor is the smallest of its siblings. -/
def Locked (P : Primitives) (ds line full : List Descriptor) : Prop := line <+: full.dropLast ∨
    full = line ∧ ∀ before newest, line.dropLast.getLast? = some before → line.getLast? = some newest →
      ∀ d ∈ ds, Extends P before d → ¬ d.hash P < newest.hash P

variable {full : List Descriptor}

theorem Locked.isPrefix (locked : Locked P ds line full) : line <+: full := by
  rcases locked with inside | ⟨same, -⟩
  · exact inside.trans ( dropLast_prefix full)
  · exact same ▸ prefix_rfl

theorem exists_settled
    (history : History P root chain full) (within : ∀ d ∈ full, d ∈ ds) (locked : Locked P ds line full) :
    ∃ run after, (∀ d ∈ run, d ∈ ds) ∧ History P root (chain.offerEach P run) after ∧
      (∀ d ∈ after, d ∈ ds) ∧ line <+: after ∧
      ∀ d ∈ ds, (chain.offerEach P run).offer P d = chain.offerEach P run := by
  induction measure : unrest P ds chain.latest using Nat.strong_induction_on generalizing chain full with
  | _ n ih =>
    by_cases settled : ∀ d ∈ ds, chain.offer P d = chain
    · exact ⟨[], full, by simp, history, within, locked.isPrefix, settled⟩
    simp only [not_forall] at settled
    obtain ⟨d, member, changed⟩ := settled
    subst measure
    have extend : ∀ next, History P root (chain.offer P d) next → (∀ e ∈ next, e ∈ ds) →
        Locked P ds line next → unrest P ds (chain.offer P d).latest < unrest P ds chain.latest →
        ∃ run after, (∀ d ∈ run, d ∈ ds) ∧ History P root (chain.offerEach P run) after ∧
          (∀ d ∈ after, d ∈ ds) ∧ line <+: after ∧
          ∀ d ∈ ds, (chain.offerEach P run).offer P d = chain.offerEach P run := by
      intro next step inside kept lower
      obtain ⟨run, after, offered, result⟩ := ih _ lower step inside kept rfl
      exact ⟨d :: run, after, by simpa [member] using offered, result⟩
    rcases history.offer_cases with same | ⟨before, held, step, smaller, replaced, next⟩ | ⟨step, advanced, next⟩
    · exact absurd same changed
    · have ours := history.extends_latest held
      refine extend _ next ?_ ?_ ?_
      · intro e inside
        simp only [mem_append, mem_singleton] at inside
        rcases inside with old | rfl
        · exact within e (dropLast_subset full old)
        · exact member
      · rcases locked with extended | ⟨same, smallest⟩
        · exact .inl (by simpa using extended)
        subst same
        rw [history.before] at held
        exact absurd smaller (smallest before chain.latest held history.newest d member step)
      · rw [replaced, latest_replaceLatest]
        exact unrest_replace member ours step smaller
    · refine extend _ next ?_ ?_ ?_
      · intro e inside
        simp only [mem_append, mem_singleton] at inside
        rcases inside with old | rfl
        · exact within e old
        · exact member
      · exact .inl (by simpa using locked.isPrefix)
      rw [advanced, latest_append]
      exact unrest_advance step

theorem exists_smallest_sibling (member : child ∈ ds) (step : Extends P before child) :
    ∃ smallest ∈ ds, Extends P before smallest ∧ ∀ d ∈ ds, Extends P before d → ¬ d.hash P < smallest.hash P := by
  induction measure : rank P ds child using Nat.strong_induction_on generalizing child with
  | _ n ih =>
    subst measure
    by_cases smallest : ∀ d ∈ ds, Extends P before d → ¬ d.hash P < child.hash P
    · exact ⟨child, member, step, smallest⟩
    simp only [not_forall, not_not] at smallest
    obtain ⟨d, inside, sibling, smaller⟩ := smallest
    exact ih _ (rank_lt inside smaller) inside sibling rfl

/-! ## Two ends of one fork -/

theorem exists_line {next : Descriptor} (closed : ClosedSet P root ds) (member : d ∈ ds) (extended : Extends P d next) :
    ∃ front, (front ++ [d]).head? = some root ∧ (front ++ [d]).IsChain (Extends P) ∧ ∀ e ∈ front ++ [d], e ∈ ds := by
  induction measure : d.epoch.toNat using Nat.strong_induction_on generalizing d next with
  | _ n ih =>
    by_cases same : d = root
    · subst same
      exact ⟨[], rfl, isChain_singleton d, by simpa using member⟩
    obtain ⟨before, inside, accepted⟩ := closed.valid d member same
    have bound := next.epoch.toNat_lt
    have epoch := extended.epoch
    have follows : d.epoch = saturatingSucc before.epoch := (accepts_ok_iff.mp accepted).2.2.2.2.1
    have value := congrArg UInt32.toNat follows
    rw [toNat_saturatingSucc] at value
    have step := Extends.of_accepted accepted (by omega)
    obtain ⟨front, starts, linked, within⟩ := ih _ (by omega) inside step rfl
    refine ⟨front ++ [before], ?_, ?_, forall_mem_snoc within member⟩
    · rw [head?_append, starts]
      rfl
    · rw [append_assoc, singleton_append, isChain_append_cons_cons]
      exact ⟨linked, step, isChain_singleton d⟩

theorem line_unique (closed : ClosedSet P root ds)
    (starts : (front ++ [d]).head? = some root) (otherStarts : (other ++ [d]).head? = some root)
    (linked : (front ++ [d]).IsChain (Extends P)) (otherLinked : (other ++ [d]).IsChain (Extends P))
    (within : ∀ e ∈ front ++ [d], e ∈ ds) (otherWithin : ∀ e ∈ other ++ [d], e ∈ ds) :
    front = other := by
  have alone : ∀ line : List Descriptor, (line ++ [root]).head? = some root →
      (line ++ [root]).IsChain (Extends P) → line = [] := by
    intro line starts linked
    cases line with
    | nil => rfl
    | cons first rest =>
      have same : first = root := by simpa using starts
      have rising := rel_of_pairwise_cons (extends_pairwise linked) (mem_append_right rest (mem_singleton_self root))
      rw [same] at rising
      exact absurd rising (Nat.lt_irrefl _)
  induction front using reverseRecOn generalizing other d with
  | nil =>
    have same : d = root := by simpa using starts
    subst same
    exact (alone other otherStarts otherLinked).symm
  | append_singleton front p ih =>
    rcases eq_nil_or_concat other with rfl | ⟨other, q, rfl⟩
    · have same : d = root := by simpa using otherStarts
      subst same
      exact alone _ starts linked
    rw [concat_eq_append] at otherStarts otherLinked otherWithin ⊢
    simp only [append_assoc, singleton_append, isChain_append_cons_cons] at linked otherLinked
    have parents : p = q := by
      refine closed.distinct p (within p (by simp)) q (otherWithin q (by simp)) ?_
      rw [← linked.2.1.prevHash, ← otherLinked.2.1.prevHash]
    subst parents
    have shorter : ∀ line : List Descriptor, (line ++ [p] ++ [d]).head? = some root →
        (line ++ [p]).head? = some root := by
      intro line starts
      cases line with
      | nil | cons first rest => simpa using starts
    rw [ih (shorter front starts) (shorter other otherStarts) linked.1 otherLinked.1
      (fun e member => within e (mem_append_left _ member))
      (fun e member => otherWithin e (mem_append_left _ member))]

/-- A device that has accepted `line` can settle with `line` in its history. -/
theorem exists_settled_on_line (started : fromRoot P root = .ok start) (line : List Descriptor)
    (linked : full.IsChain (Extends P)) (starts : full.head? = some root) (within : ∀ d ∈ full, d ∈ ds)
    (locked : Locked P ds line full) :
    ∃ chain after, start.SettledOn P ds chain ∧ History P root chain after ∧
      (∀ d ∈ after, d ∈ ds) ∧ line <+: after := by
  obtain ⟨rest, rfl⟩ := head?_eq_some_iff.mp starts
  have begun : History P root start ([] ++ [root]) := history_fromRoot started
  have latest := begun.latest_eq
  have history := begun.follow (latest.symm ▸ linked)
  obtain ⟨run, after, offered, final, inside, kept, settled⟩ := exists_settled history within locked
  refine ⟨_, after, ⟨⟨rest ++ run ++ ds, fun d => ?_, ?_⟩, settled⟩, final, inside, kept⟩
  · simp only [mem_append]
    constructor
    · rintro ((member | member) | member)
      · exact within d (mem_cons_of_mem root member)
      · exact offered d member
      · exact member
    · exact .inr
  · rw [offerEach_append, offerEach_append, offerEach_unchanged settled]

theorem losersUnextended_of_agreement (closed : ClosedSet P root ds) (started : fromRoot P root = .ok start)
    (agreement : ∀ one two, start.SettledOn P ds one → start.SettledOn P ds two →
      one.latest = two.latest) : LosersUnextended P ds := by
  intro before inside loser loserInside winner winnerInside next nextInside lost won smaller extended
  obtain ⟨front, starts, linked, within⟩ := exists_line closed inside lost
  obtain ⟨best, bestInside, bestStep, smallest⟩ := exists_smallest_sibling winnerInside won
  have startsOn : ∀ rest, (front ++ before :: rest).head? = some root := by
    intro rest
    rw [← singleton_append, ← append_assoc, head?_append, starts]
    rfl
  have withinOn : ∀ rest : List Descriptor, (∀ e ∈ rest, e ∈ ds) → ∀ e ∈ front ++ before :: rest, e ∈ ds := by
    intro rest inRest e member
    rw [← singleton_append, ← append_assoc] at member
    rcases mem_append.mp member with old | new
    · exact within e old
    · exact inRest e new
  -- One device sees the losing change and its successor first.
  have forked : (front ++ [before, loser, next]).IsChain (Extends P) :=
    isChain_append_cons_cons.mpr ⟨linked, lost, by simpa using extended⟩
  obtain ⟨one, oneLine, oneSettled, oneHistory, oneWithin, onePrefix⟩ :=
    exists_settled_on_line started (front ++ [before, loser]) forked (startsOn _)
      (withinOn _ (by simp [loserInside, nextInside])) (.inl (by simp))
  -- The other one sees the smallest change first.
  have direct : (front ++ [before, best]).IsChain (Extends P) :=
    isChain_append_cons_cons.mpr ⟨linked, bestStep, isChain_singleton _⟩
  have locked : Locked P ds (front ++ [before, best]) (front ++ [before, best]) := by
    refine .inr ⟨rfl, ?_⟩
    intro parent newest held last
    have split : front ++ [before, best] = (front ++ [before]) ++ [best] := by simp
    rw [split, dropLast_concat, getLast?_concat] at held
    rw [split, getLast?_concat] at last
    cases held
    cases last
    exact smallest
  obtain ⟨two, twoLine, twoSettled, twoHistory, twoWithin, twoPrefix⟩ :=
    exists_settled_on_line started (front ++ [before, best]) direct (startsOn _)
      (withinOn _ (by simp [bestInside])) locked
  have latest := agreement one two oneSettled twoSettled
  have lines : oneLine = twoLine := by
    have oneSplit := oneHistory.split
    have twoSplit := twoHistory.split
    rw [← latest] at twoSplit
    rw [oneSplit, twoSplit]
    congr 1
    exact line_unique closed (oneSplit ▸ oneHistory.starts) (twoSplit ▸ twoHistory.starts)
      (oneSplit ▸ oneHistory.linked) (twoSplit ▸ twoHistory.linked) (oneSplit ▸ oneWithin)
      (twoSplit ▸ twoWithin)
  subst lines
  have same := prefix_of_prefix_length_le onePrefix twoPrefix (by simp)
  have equal := same.eq_of_length (by simp)
  have loserBest : loser = best := by simpa using equal
  rw [loserBest] at smaller
  exact smallest winner winnerInside won smaller

/-- Devices settle on one newest descriptor exactly when no change that has a
sibling with a smaller hash has been extended. -/
theorem settle_together_iff (P : Primitives) (root : Descriptor) (ds : List Descriptor) (start : Chain)
    (closed : ClosedSet P root ds) (started : fromRoot P root = .ok start) :
    (∀ one two, start.SettledOn P ds one → start.SettledOn P ds two → one.latest = two.latest) ↔
      LosersUnextended P ds :=
  ⟨losersUnextended_of_agreement closed started,
    fun unextended _ _ first second => settled_latest_eq closed started unextended first second⟩

namespace Sample

/-- Two changes of the root by its admin; `red` has the smaller hash. -/
def red : Descriptor := change Sample.root "red" Sample.root.members admin

def blue : Descriptor := change Sample.root "blue" Sample.root.members admin

def blueNext : Descriptor := change blue "green" Sample.root.members admin

def start : Chain := ⟨[Sample.root], by simp⟩

theorem closedSet_siblings : ClosedSet .checksum Sample.root [Sample.root, red, blue] :=
  ⟨by decide +kernel, by decide +kernel, by decide +kernel⟩

theorem closedSet_extended : ClosedSet .checksum Sample.root [Sample.root, red, blue, blueNext] :=
  ⟨by decide +kernel, by decide +kernel, by decide +kernel⟩

theorem fromRoot_start : fromRoot .checksum Sample.root = .ok start := by decide +kernel

end Sample

open Group.Sample

theorem settle_together_siblings : fromRoot .checksum Sample.root = .ok start ∧
    ∀ one two, start.SettledOn .checksum [Sample.root, Sample.red, blue] one →
      start.SettledOn .checksum [Sample.root, Sample.red, blue] two →
      one.latest = two.latest := by
  refine ⟨Sample.fromRoot_start, (settle_together_iff .checksum Sample.root _ _ Sample.closedSet_siblings
    Sample.fromRoot_start).mpr ?_⟩
  intro before inside loser _ _ _ next nextInside lost _ _ extended
  have epochs : ∀ d ∈ [Sample.root, Sample.red, blue], 1 ≤ d.epoch.toNat ∧ d.epoch.toNat ≤ 2 := by
    decide +kernel
  have low := (epochs before inside).1
  have high := (epochs next nextInside).2
  have one := lost.epoch
  have two := extended.epoch
  omega

/-- One device saw `blue` and its successor before `red`, the other one saw
`red` first. -/
theorem extended_loser_splits : ∃ start one two,
      ClosedSet .checksum Sample.root [Sample.root, Sample.red, blue, blueNext] ∧
      fromRoot .checksum Sample.root = .ok start ∧
      start.SettledOn .checksum [Sample.root, Sample.red, blue, blueNext] one ∧
      start.SettledOn .checksum [Sample.root, Sample.red, blue, blueNext] two ∧
      one.latest = blueNext ∧ two.latest = Sample.red ∧ one.latest ≠ two.latest := by
  refine ⟨start, ⟨[Sample.root, blue, blueNext], by simp⟩,
    ⟨[Sample.root, Sample.red], by simp⟩, Sample.closedSet_extended, Sample.fromRoot_start,
    ⟨⟨[blue, blueNext, Sample.red, Sample.root], ?_, by decide +kernel⟩, by decide +kernel⟩,
    ⟨⟨[Sample.red, blue, blueNext, Sample.root], ?_, by decide +kernel⟩, by decide +kernel⟩,
    rfl, rfl, by decide +kernel⟩
  all_goals
    intro d
    simp only [mem_cons, not_mem_nil, or_false]
    tauto

end Miasma.Chat.Group
