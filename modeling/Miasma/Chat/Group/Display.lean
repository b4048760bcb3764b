import Mathlib.Data.List.Chain
import Mathlib.Data.List.Sort
import Mathlib.Data.Prod.Lex
import Miasma.Chat.Group.Store

namespace Miasma.Chat.Group.Display

open Data List

/-! # The order in which messages are shown

`display_order` (`chat/group/engine.rs`): by send time, but never against one sender's
counters.  Its sorts are stable, so that in a key the index comes last. -/

/-- What the loop over one sender's messages notes for the message at `index`. -/
structure Mark where
  m : GroupMsg
  index : Nat
  running : Nat
  gap : UInt64

def Mark.place (a : Mark) : GroupMsg × Nat := (a.m, a.index)

def Mark.shown (a : Mark) : GroupMsg × UInt64 := (a.m, a.gap)

def counterKey (place : GroupMsg × Nat) : Nat ×ₗ Nat := toLex (place.1.counter.toNat, place.2)

def Mark.key (a : Mark) : Nat ×ₗ B32 ×ₗ Nat ×ₗ Nat := toLex (a.running, toLex (a.m.sender, counterKey a.place))

def sortBy [LinearOrder κ] (key : α → κ) (l : List α) : List α := l.insertionSort (fun a b => key a ≤ key b)

/-- `p + 1` wraps around as in a release build. -/
def gapAfter (m : GroupMsg) : Option UInt64 → UInt64
  | none => 0
  | some p => saturatingSub m.counter (p + 1)

def walk (running : Nat) (prev : Option UInt64) : List (GroupMsg × Nat) → List Mark
  | [] => []
  | (m, index) :: rest =>
    let running := max running m.sentMs.toNat
    ⟨m, index, running, gapAfter m prev⟩ :: walk running (some m.counter) rest

variable (win : List GroupMsg) (sender : B32)

def ofSender : List (GroupMsg × Nat) := sortBy counterKey (win.zipIdx.filter (·.1.sender = sender))

/-- Every message is marked once, so that the order of the senders makes no difference. -/
def marks : List Mark := (win.map GroupMsg.sender).dedup.flatMap fun sender => walk 0 none (ofSender win sender)

def order : List Mark := sortBy Mark.key (marks win)

def displayOrder : List (GroupMsg × UInt64) := (order win).map Mark.shown

theorem toNat_saturatingSub : (saturatingSub first second).toNat = first.toNat - second.toNat := by
  unfold saturatingSub
  split
  · rename_i below
    exact UInt64.toNat_sub_of_le _ _ below
  rename_i above
  have := UInt64.lt_iff_toNat_lt.mp (UInt64.not_le.mp above)
  change 0 = _
  omega

theorem sortBy_perm [LinearOrder κ] (key : α → κ) (l : List α) : sortBy key l ~ l := perm_insertionSort _ _

theorem pairwise_sortBy [LinearOrder κ] (key : α → κ) (l : List α) :
    (sortBy key l).Pairwise fun a b => key a ≤ key b := by
  exact pairwise_insertionSort _ _

section

variable {running : Nat} {prev : Option UInt64} {l : List (GroupMsg × Nat)}

theorem map_walk : (walk running prev l).map Mark.place = l := by
  induction l generalizing running prev with
  | nil => rfl
  | cons first rest ih => simp [walk, ih, Mark.place]

theorem le_running : ∀ a ∈ walk running prev l, running ≤ a.running := by
  induction l generalizing running prev with
  | nil => simp [walk]
  | cons first rest ih =>
    intro a member
    rcases mem_cons.mp member with rfl | later
    · exact le_max_left _ _
    · exact (le_max_left _ _).trans (ih a later)

theorem pairwise_walk (sorted : l.Pairwise fun a b => counterKey a ≤ counterKey b)
    (same : ∀ place ∈ l, place.1.sender = sender) : (walk running prev l).Pairwise fun a b => a.key ≤ b.key := by
  induction l generalizing running prev with
  | nil => exact .nil
  | cons first rest ih =>
    obtain ⟨least, later⟩ := pairwise_cons.mp sorted
    refine pairwise_cons.mpr ⟨fun b member => ?_, ih later fun place there => same place (mem_cons_of_mem _ there)⟩
    have there : b.place ∈ rest := map_walk (l := rest) ▸ mem_map_of_mem member
    have sender := (same first mem_cons_self).trans (same _ (mem_cons_of_mem _ there)).symm
    rcases (le_running b member).lt_or_eq with less | equal
    · exact (Prod.Lex.lt_iff.mpr (.inl less)).le
    · exact Prod.Lex.le_iff.mpr (.inr ⟨equal, Prod.Lex.le_iff.mpr (.inr ⟨sender, least _ there⟩)⟩)

theorem running_walk (split : walk running prev l = one ++ a :: two) :
    a.running = (one ++ [a]).foldl (fun running b => max running b.m.sentMs.toNat) running := by
  induction l generalizing running prev one with
  | nil => simp [walk] at split
  | cons first rest ih =>
    cases one with
    | nil =>
      cases split
      rfl
    | cons head one =>
      obtain ⟨rfl, later⟩ := cons.inj split
      have held := ih later
      exact held

/-- `p + 1` overflows only after a message with the last counter there is. -/
theorem chain_walk (sorted : l.Pairwise fun a b => a.1.counter ≤ b.1.counter)
    (single : l.Pairwise fun a b => ¬ (a.1.counter = 0xffffffffffffffff ∧ b.1.counter = 0xffffffffffffffff)) :
    (walk running prev l).IsChain fun a b => a.m.counter.toNat + 1 < 2 ^ 64 ∧
      b.gap.toNat = b.m.counter.toNat - (a.m.counter.toNat + 1) := by
  induction l generalizing running prev with
  | nil => exact .nil
  | cons first rest ih =>
    obtain ⟨least, later⟩ := pairwise_cons.mp sorted
    obtain ⟨other, others⟩ := pairwise_cons.mp single
    cases rest with
    | nil => exact isChain_singleton _
    | cons second rest =>
      have room : first.1.counter.toNat + 1 < 2 ^ 64 := by
        have below := UInt64.le_iff_toNat_le.mp (least second mem_cons_self)
        have bound := second.1.counter.toNat_lt
        by_contra full
        refine other second mem_cons_self ⟨UInt64.toNat_inj.mp ?_, UInt64.toNat_inj.mp ?_⟩ <;>
          change _ = 2 ^ 64 - 1 <;> omega
      refine isChain_cons_cons.mpr ⟨⟨room, ?_⟩, ih later others⟩
      change (saturatingSub second.1.counter (first.1.counter + 1)).toNat = _
      rw [toNat_saturatingSub, UInt64.toNat_add]
      exact congrArg _ (Nat.mod_eq_of_lt room)

end

variable {win} {sender}

theorem mem_ofSender : place ∈ ofSender win sender ↔ place ∈ win.zipIdx ∧ place.1.sender = sender := by
  rw [ofSender, (sortBy_perm _ _).mem_iff, mem_filter, decide_eq_true_iff]

theorem mem_walk (member : a ∈ walk 0 none (ofSender win sender)) :
    a.place ∈ win.zipIdx ∧ a.m.sender = sender :=
  mem_ofSender.mp (map_walk (l := ofSender win sender) ▸ mem_map_of_mem member)

theorem mem_of_mem_zipIdx (there : place ∈ win.zipIdx) : place.1 ∈ win :=
  zipIdx_map_fst 0 win ▸ mem_map_of_mem there

theorem mem_marks : a ∈ marks win ↔ a ∈ walk 0 none (ofSender win a.m.sender) := by
  rw [marks, mem_flatMap]
  constructor
  · rintro ⟨sender, -, member⟩
    exact (mem_walk member).2 ▸ member
  · exact fun member => ⟨_, mem_dedup.mpr (mem_map_of_mem (mem_of_mem_zipIdx (mem_walk member).1)), member⟩

theorem nodup_zipIdx : win.zipIdx.Nodup := Nodup.of_map Prod.snd (by simp [nodup_range'])

theorem nodup_ofSender : (ofSender win sender).Nodup := (sortBy_perm _ _).nodup_iff.mpr (nodup_zipIdx.filter _)

theorem marks_perm : (marks win).map Mark.place ~ win.zipIdx := by
  have each : (marks win).map Mark.place = (win.map GroupMsg.sender).dedup.flatMap (ofSender win) := by
    simp only [marks, map_flatMap, map_walk]
  have distinct : ((win.map GroupMsg.sender).dedup.flatMap (ofSender win)).Nodup := by
    refine nodup_flatMap.mpr ⟨fun sender _ => nodup_ofSender, (nodup_dedup _).imp fun different place one two => ?_⟩
    exact different ((mem_ofSender.mp one).2.symm.trans (mem_ofSender.mp two).2)
  rw [each]
  refine (perm_ext_iff_of_nodup distinct nodup_zipIdx).mpr fun place => ?_
  simp only [mem_flatMap, mem_ofSender, mem_dedup, mem_map]
  constructor
  · rintro ⟨_, _, there, _⟩
    exact there
  · exact fun there => ⟨_, ⟨_, mem_of_mem_zipIdx there, rfl⟩, there, rfl⟩

/-- One sender's messages are shown as the loop went through them. -/
theorem filter_order : (order win).filter (·.m.sender = sender) = walk 0 none (ofSender win sender) := by
  have distinct : ((marks win).map Mark.index).Nodup := by
    have indices := (marks_perm : _ ~ win.zipIdx).map Prod.snd
    rw [map_map] at indices
    exact indices.nodup_iff.mpr (by simp [nodup_range'])
  have inside {a : Mark} : a ∈ (order win).filter (·.m.sender = sender) ↔ a ∈ walk 0 none (ofSender win sender) := by
    rw [mem_filter, order, (sortBy_perm _ _).mem_iff, mem_marks, decide_eq_true_iff]
    exact ⟨fun ⟨member, own⟩ => own ▸ member, fun member => ⟨(mem_walk member).2 ▸ member, (mem_walk member).2⟩⟩
  have known {a : Mark} (member : a ∈ walk 0 none (ofSender win sender)) : a ∈ marks win :=
    mem_marks.mpr ((mem_walk member).2 ▸ member)
  refine Perm.eq_of_pairwise (fun a b one two below above => ?_) ((pairwise_sortBy _ _).filter _)
    (pairwise_walk sender (pairwise_sortBy _ _) fun place there => (mem_ofSender.mp there).2)
    ((perm_ext_iff_of_nodup ?_ ?_).mpr fun a => inside)
  · have index : a.index = b.index := congrArg (fun key => (ofLex (ofLex (ofLex key).2).2).2) (le_antisymm below above)
    exact inj_on_of_nodup_map distinct (known (inside.mp one)) (known two) index
  · exact ((sortBy_perm _ _).nodup_iff.mpr distinct.of_map).filter _
  · exact Nodup.of_map Mark.place (by rw [map_walk]; exact nodup_ofSender)

/-! ## What is shown -/

def shownOf (shown : List (GroupMsg × UInt64)) (sender : B32) : List (GroupMsg × UInt64) :=
  shown.filter (·.1.sender = sender)

def peak (shown : List (GroupMsg × UInt64)) (sender : B32) : Nat :=
  (shownOf shown sender).foldl (fun running a => max running a.1.sentMs.toNat) 0

structure Displays (win : List GroupMsg) (shown : List (GroupMsg × UInt64)) : Prop where
  perm : shown.map Prod.fst ~ win
  counters : ∀ sender, (shownOf shown sender).Pairwise fun a b => a.1.counter ≤ b.1.counter
  times : ∀ one a two b, one ++ a :: two ++ [b] <+: shown →
    peak (one ++ [a]) a.1.sender ≤ peak (one ++ a :: two ++ [b]) b.1.sender
  first : ∀ sender, ∀ a ∈ (shownOf shown sender).head?, a.2 = 0
  gaps : ∀ sender, (shownOf shown sender).IsChain fun a b => a.1.counter.toNat + 1 < 2 ^ 64 ∧
    b.2.toNat = b.1.counter.toNat - (a.1.counter.toNat + 1)

theorem shownOf_displayOrder :
    shownOf (displayOrder win) sender = (walk 0 none (ofSender win sender)).map Mark.shown := by
  rw [← filter_order, shownOf, displayOrder, filter_map]
  rfl

theorem running_order (start : one ++ [a] <+: order win) :
    a.running = peak ((one ++ [a]).map Mark.shown) a.m.sender := by
  obtain ⟨two, split⟩ := start
  have own : walk 0 none (ofSender win a.m.sender) = _ := filter_order.symm
  rw [← split, append_assoc, singleton_append, filter_append, filter_cons_of_pos (by simp)] at own
  rw [running_walk own, peak, shownOf, filter_map, foldl_map, filter_append]
  congr 2
  simp [Mark.shown]

theorem counters_ofSender : (ofSender win sender).Pairwise fun a b => a.1.counter ≤ b.1.counter :=
  (pairwise_sortBy counterKey _).imp fun below => UInt64.le_iff_toNat_le.mpr (Prod.Lex.monotone_fst _ _ below)

/-- No sender has two messages with the last counter there is. -/
def Single (win : List GroupMsg) : Prop := win.Pairwise fun a b => a.sender = b.sender →
  ¬ (a.counter = 0xffffffffffffffff ∧ b.counter = 0xffffffffffffffff)

instance : Decidable (Single win) := inferInstanceAs (Decidable (Pairwise _ _))

theorem displays_of_single (single : Single win) : Displays win (displayOrder win) where
  perm := by
    have messages := (((sortBy_perm Mark.key (marks win)).map Mark.place).trans marks_perm).map Prod.fst
    rw [zipIdx_map_fst, map_map] at messages
    rw [displayOrder, map_map]
    exact messages
  counters sender := by
    have sorted : (ofSender win sender).Pairwise _ := counters_ofSender
    rw [← map_walk (l := ofSender win sender), pairwise_map] at sorted
    rw [shownOf_displayOrder, pairwise_map]
    exact sorted
  times one a two b := by
    rintro ⟨rest, whole⟩
    obtain ⟨front, later, split, before, -⟩ := map_eq_append_iff.mp whole.symm
    obtain ⟨front, last, rfl, before, tail⟩ := map_eq_append_iff.mp before
    obtain ⟨one, front, rfl, rfl, middle⟩ := map_eq_append_iff.mp before
    obtain ⟨a, two, rfl, rfl, rfl⟩ := map_eq_cons_iff.mp middle
    obtain ⟨b, rfl, rfl⟩ := map_eq_singleton_iff.mp tail
    have below : a.key ≤ b.key := by
      have sorted : (order win).Pairwise _ := pairwise_sortBy Mark.key (marks win)
      rw [split] at sorted
      exact (pairwise_append.mp sorted).1.rel_of_mem_append (by simp) mem_cons_self
    have first : one ++ [a] <+: order win := ⟨two ++ [b] ++ later, by simp [split]⟩
    have times : a.running ≤ b.running := Prod.Lex.monotone_fst _ _ below
    rw [running_order first, running_order ⟨later, split.symm⟩] at times
    simp only [map_append, map_cons, map_nil] at times
    exact times
  first sender := by
    rw [shownOf_displayOrder]
    cases ofSender win sender with
    | nil => simp [walk]
    | cons first rest => simp [walk, gapAfter, Mark.shown]
  gaps sender := by
    rw [shownOf_displayOrder, isChain_map]
    refine chain_walk counters_ofSender ?_
    rw [Single, ← zipIdx_map_fst 0 win, pairwise_map] at single
    refine ((sortBy_perm counterKey _).pairwise_iff fun apart both => apart both.symm).mpr ?_
    refine (single.filter _).imp_of_mem fun one two apart => apart ?_
    exact (of_decide_eq_true (mem_filter.mp one).2).trans (of_decide_eq_true (mem_filter.mp two).2).symm

theorem Displays.single (displays : Displays win shown) : Single win := by
  refine (displays.perm.pairwise_iff fun apart same both => apart same.symm both.symm).mp (pairwise_map.mpr ?_)
  refine pairwise_iff_forall_sublist.mpr fun {a b} pair same both => ?_
  have inside : [a, b] <+ shownOf shown a.1.sender := by
    have kept := pair.filter (·.1.sender = a.1.sender)
    simpa [shownOf, same] using kept
  -- a message that is not the last of its sender has a successor
  have room := (displays.gaps a.1.sender).imp fun _ _ next => next.1
  have trans : IsTrans (GroupMsg × UInt64) fun a _ => a.1.counter.toNat + 1 < 2 ^ 64 := ⟨fun _ _ _ first _ => first⟩
  have below := pairwise_iff_forall_sublist.mp room.pairwise inside
  rw [both.1] at below
  contradiction

theorem displayOrder_displays_iff (win : List GroupMsg) : Displays win (displayOrder win) ↔ Single win :=
  ⟨Displays.single, displays_of_single⟩

def sent (sender : UInt8) (counter sentMs : UInt64) : GroupMsg :=
  ⟨0, false, ByteVec.fill 32 sender, counter, ByteVec.fill 16 0, sentMs, sentMs, 1, "", none⟩

theorem displayOrder_displays_skewed :
    Displays [sent 1 4 50, sent 1 1 100, sent 2 1 70] [(sent 2 1 70, 0), (sent 1 1 100, 0), (sent 1 4 50, 2)] := by
  have shown : displayOrder [sent 1 4 50, sent 1 1 100, sent 2 1 70] =
      [(sent 2 1 70, 0), (sent 1 1 100, 0), (sent 1 4 50, 2)] := by decide +kernel
  exact shown ▸ (displayOrder_displays_iff _).mpr (by decide +kernel)

/-- Nothing lies between these two messages. -/
theorem gap_overflows : (displayOrder [sent 1 0xffffffffffffffff 50, sent 1 0xffffffffffffffff 60]).map Prod.snd =
    [0, 0xffffffffffffffff] := by decide +kernel

end Miasma.Chat.Group.Display
