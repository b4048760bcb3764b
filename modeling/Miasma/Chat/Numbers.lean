import Mathlib.Order.Interval.Finset.Nat
import Miasma.Chat.Group.State
import Miasma.Chat.Peer
import Miasma.Data.Run

namespace Miasma.Chat

open Data List

/-! The numbers applied from one sender, over whole histories of marks (`mark_seq` of
`chat/store.rs`, `mark` and `missing` of `chat/group/state.rs`). -/

/-- The last loop of a mark, with `none` for an overflow of `floor + 1`. -/
def raiseChecked : UInt64 → List UInt64 → Option (UInt64 × List UInt64)
  | floor, [] => some (floor, [])
  | floor, first :: rest =>
    if floor.toNat + 1 = 2 ^ 64 then none
    else if first = floor + 1 then raiseChecked first rest
    else some (floor, first :: rest)

/-- A mark on the two fields of the source. -/
def markChecked (fields : UInt64 × List UInt64) (number : UInt64) : Option (UInt64 × List UInt64) :=
  if number ≤ fields.1 then some fields
  else
    let kept := Applied.giveUp maxAbove fields.1 (Applied.insertNumber number fields.2)
    raiseChecked kept.1 kept.2

def Group.missing (vector : Group.SenderVec) : UInt64 := match vector.above.getLast? with
  | some hi => hi - vector.floor - .ofNat vector.above.length
  | none => 0

theorem raiseChecked_eq (sorted : (floor :: above).Pairwise (· < ·)) :
    raiseChecked floor above = some (Applied.raise floor above) := by
  induction above generalizing floor with
  | nil => rfl
  | cons first rest ih =>
    have low := UInt64.lt_iff_toNat_lt.mp (rel_of_pairwise_cons sorted mem_cons_self)
    have limit := first.toNat_lt
    rw [raiseChecked, if_neg (by omega), Applied.raise]
    split
    · exact ih (Pairwise.of_cons sorted)
    · rfl

theorem markChecked_eq {applied : Applied maxAbove} :
    markChecked (applied.floor, applied.above) number =
      some ((applied.mark number).floor, (applied.mark number).above) := by
  unfold markChecked
  split
  · rename_i low
    rw [Applied.mark_of_le (UInt64.not_lt.mpr low)]
  rename_i high
  have higher := UInt64.not_le.mp high
  rw [raiseChecked_eq (Applied.sorted_giveUp (Applied.sorted_insertNumber applied.sorted higher)), Applied.mark,
    dif_pos higher]

theorem run_markChecked (applied : Applied maxAbove) (marks : List UInt64) :
    run markChecked (applied.floor, applied.above) marks =
      some ((marks.foldl .mark applied).floor, (marks.foldl .mark applied).above) := by
  induction marks generalizing applied with
  | nil => rfl
  | cons number marks ih =>
    rw [run, markChecked_eq]
    exact ih (applied.mark number)

theorem recv_foldl (S : Suite) (peer : B32) (marks : List UInt64) :
    (marks.foldl .markSeq (PeerState.new S peer)).recv = marks.foldl .mark (Applied.none maxAbove) :=
  (foldl_hom PeerState.recv fun _ _ => rfl).symm

/-- The numbers that were not marked, between the floor and `hi`. -/
def unmarked (marks : List UInt64) (floor hi : UInt64) : Finset Nat :=
  (Finset.Ioo floor.toNat hi.toNat).filter (UInt64.ofNat · ∉ marks)

theorem highest_eq {applied : Applied bound} (tracked : applied.Tracked marks) (there : hi ∈ marks)
    (highest : ∀ number ∈ marks, number ≤ hi) (last : applied.above.getLast? = some top) : hi = top := by
  have inside := mem_of_getLast? last
  have low := rel_of_pairwise_cons applied.sorted inside
  have reaches := highest top (tracked.marked top inside)
  have member : hi ∈ applied.above := (Applied.isNew_eq_false.mp (tracked.covered hi there)).resolve_left
    fun under => UInt64.not_lt.mpr (UInt64.le_trans reaches under) low
  obtain ⟨front, split⟩ := getLast?_eq_some_iff.mp last
  have sorted := Pairwise.of_cons applied.sorted
  rw [split] at member sorted
  rcases mem_append.mp member with early | same
  · exact absurd ((pairwise_append.mp sorted).2.2 hi early top mem_cons_self) (UInt64.not_lt.mpr reaches)
  · exact mem_singleton.mp same

theorem unmarked_eq {applied : Applied bound} (tracked : applied.Tracked marks) (inside : hi ∈ applied.above) :
    unmarked marks applied.floor hi =
      Finset.Ioc applied.floor.toNat hi.toNat \ (applied.above.map UInt64.toNat).toFinset := by
  have limit := hi.toNat_lt
  ext n
  simp only [unmarked, Finset.mem_filter, Finset.mem_Ioo, Finset.mem_sdiff, Finset.mem_Ioc, mem_toFinset, mem_map]
  constructor
  · rintro ⟨⟨low, high⟩, absent⟩
    refine ⟨⟨low, Nat.le_of_lt high⟩, ?_⟩
    rintro ⟨number, member, rfl⟩
    exact absent (UInt64.ofNat_toNat.symm ▸ tracked.marked number member)
  · rintro ⟨⟨low, high⟩, absent⟩
    have small : (UInt64.ofNat n).toNat = n := UInt64.toNat_ofNat_of_lt' (Nat.lt_of_le_of_lt high limit)
    have different : n ≠ hi.toNat := fun same => absent ⟨hi, inside, same.symm⟩
    refine ⟨⟨low, Nat.lt_of_le_of_ne high different⟩, fun marked => ?_⟩
    rcases Applied.isNew_eq_false.mp (tracked.covered _ marked) with under | member
    · rw [UInt64.le_iff_toNat_le, small] at under
      omega
    · exact absent ⟨_, member, small⟩

theorem missing_eq (tracked : vector.Tracked marks) (there : hi ∈ marks)
    (highest : ∀ number ∈ marks, number ≤ hi) :
    (Group.missing vector).toNat = (unmarked marks vector.floor hi).card := by
  unfold Group.missing
  split
  · rename_i top last
    obtain rfl := highest_eq tracked there highest last
    have inside := mem_of_getLast? last
    have low := UInt64.lt_iff_toNat_lt.mp (rel_of_pairwise_cons vector.sorted inside)
    have distinct : (vector.above.map UInt64.toNat).Nodup :=
      (Pairwise.of_cons vector.sorted).map _ fun _ _ less => Nat.ne_of_lt (UInt64.lt_iff_toNat_lt.mp less)
    have subset : (vector.above.map UInt64.toNat).toFinset ⊆ Finset.Ioc vector.floor.toNat hi.toNat := by
      intro n member
      obtain ⟨number, above, rfl⟩ := mem_map.mp (mem_toFinset.mp member)
      exact Finset.mem_Ioc.mpr ⟨rel_of_pairwise_cons vector.sorted above, highest number (tracked.marked number above)⟩
    have few := Finset.card_le_card subset
    rw [toFinset_card_of_nodup distinct, length_map, Nat.card_Ioc] at few
    rw [unmarked_eq tracked inside, Finset.card_sdiff_of_subset subset, toFinset_card_of_nodup distinct, length_map,
      Nat.card_Ioc, UInt64.toNat_sub, UInt64.toNat_sub, UInt64.toNat_ofNat']
    have limit := hi.toNat_lt
    omega
  · rename_i empty
    have applied := Applied.isNew_eq_false.mp (tracked.covered hi there)
    rw [getLast?_eq_none_iff.mp empty] at applied
    have low := UInt64.le_iff_toNat_le.mp (applied.resolve_right not_mem_nil)
    rw [unmarked, Finset.Ioo_eq_empty (Nat.not_lt.mpr low)]
    rfl

/-- After any marks, the set is the one the source keeps without an overflow.  A marked number is
never new again, the floor never falls, and a number other than 0 that was not marked is new unless
the floor passed it when more than `maxAbove` later ones had been marked. -/
theorem applied_numbers_exact (S : Suite) (peer : B32) (marks more : List UInt64) :
    let st := marks.foldl .markSeq (PeerState.new S peer)
    let vector := marks.foldl .mark (default : Group.SenderVec)
    run markChecked (0, []) marks = some (st.recv.floor, st.recv.above) ∧ st.recv = vector ∧
    st.recv.above.Pairwise (· < ·) ∧ st.recv.above.length ≤ maxAbove ∧
    (∀ n ∈ st.recv.above, st.recv.floor.toNat + 1 < n.toNat) ∧
    (∀ n ∈ marks, (more.foldl .markSeq st).isNewSeq n = false) ∧
    st.recv.floor ≤ (more.foldl .markSeq st).recv.floor ∧
    (∀ n, n ∉ marks → n ≠ 0 → st.isNewSeq n = false → ∃ front, front <+: marks ∧
      n ≤ (front.foldl .markSeq (PeerState.new S peer)).recv.floor ∧ maxAbove < (front.filter (n < ·)).dedup.length) ∧
    (marks = [] → Group.missing vector = 0) ∧
    ∀ hi ∈ marks, (∀ n ∈ marks, n ≤ hi) →
      (Group.missing vector).toNat = (unmarked marks vector.floor hi).card := by
  intro st vector
  have recv := recv_foldl S peer
  have tracked := Applied.tracked_foldl maxAbove marks
  refine ⟨?_, recv marks, .of_cons st.recv.sorted, st.recv.bounded, ?_, fun n there => ?_, ?_,
    fun n absent nonzero old => ?_, ?_, fun hi there highest => missing_eq tracked there highest⟩
  · rw [recv marks]
    exact run_markChecked (.none maxAbove) marks
  · rw [recv marks]
    exact tracked.gap
  · have after := (Applied.tracked_foldl maxAbove (marks ++ more)).covered n (mem_append_left more there)
    rw [← recv, foldl_append] at after
    exact after
  · exact foldlRecOn more _ (motive := fun later : PeerState S => st.recv.floor ≤ later.recv.floor) (UInt64.le_refl _)
      fun later lower number _ => UInt64.le_trans lower (Applied.floor_le_mark later.recv number)
  · rw [PeerState.isNewSeq, recv marks] at old
    obtain ⟨front, inside, below, many⟩ := tracked.passed n absent nonzero old
    exact ⟨front, inside, recv front ▸ below, many⟩
  · rintro rfl
    rfl

/-- The number 0 is not new, although it was not marked and no floor was raised. -/
theorem zero_is_not_new : (0 : UInt64) ∉ ([] : List UInt64) ∧ (default : Group.SenderVec).isNew 0 = false ∧
    (default : Group.SenderVec).floor = 0 := by
  decide

end Miasma.Chat
