import Mathlib.Data.List.Dedup
import Mathlib.Data.List.Induction
import Mathlib.Data.List.Perm.Subperm

namespace Miasma.Data

open UInt64 List Pairwise

/-! Sets of applied numbers: those up to `floor` and those of `above`, which keeps `bound` at most. -/

structure Applied (bound : Nat) where
  floor : UInt64
  above : List UInt64
  sorted : (floor :: above).Pairwise (· < ·)
  bounded : above.length ≤ bound
deriving DecidableEq

namespace Applied

def insertNumber (number : UInt64) : List UInt64 → List UInt64
  | [] => [number]
  | first :: rest =>
    if number < first then number :: first :: rest
    else if number = first then first :: rest
    else first :: insertNumber number rest

/-- Drops numbers from the front, each becoming the floor, while there are more
than `bound`. -/
def giveUp (bound : Nat) : UInt64 → List UInt64 → UInt64 × List UInt64
  | floor, [] => (floor, [])
  | floor, first :: rest =>
    if (first :: rest).length > bound then giveUp bound first rest else (floor, first :: rest)

/-- Raises the floor over the numbers that follow it directly. -/
def raise : UInt64 → List UInt64 → UInt64 × List UInt64
  | floor, [] => (floor, [])
  | floor, first :: rest => if first = floor + 1 then raise first rest else (floor, first :: rest)

variable {bound : Nat} {floor number : UInt64} {above : List UInt64}

variable {other : UInt64}

theorem mem_insertNumber : other ∈ insertNumber number above ↔ other = number ∨ other ∈ above := by
  induction above with
  | nil => simp [insertNumber]
  | cons first rest ih =>
    simp only [insertNumber]
    split
    · simp
    split
    · rename_i same
      subst same
      simp
    simp only [mem_cons, ih]
    constructor
    all_goals
      rintro (same | same | later)
      · exact .inr (.inl same)
      · exact .inl same
      · exact .inr (.inr later)

theorem length_insertNumber_le : (insertNumber number above).length ≤ above.length + 1 := by
  induction above with
  | nil => simp [insertNumber]
  | cons first rest ih =>
    simp only [insertNumber]
    split
    · simp
    split
    · simp
    simp only [length_cons]
    omega

theorem length_giveUp_le : (giveUp bound floor above).2.length ≤ bound := by
  induction above generalizing floor with
  | nil => simp [giveUp]
  | cons first rest ih =>
    simp only [giveUp]
    split
    · exact ih
    rename_i within
    exact Nat.not_lt.mp within

/-- Giving up and raising the floor drop numbers from the front. -/
theorem giveUp_suffix : (giveUp bound floor above).1 :: (giveUp bound floor above).2 <:+ floor :: above := by
  induction above generalizing floor with
  | nil => exact suffix_rfl
  | cons first rest ih =>
    simp only [giveUp]
    split
    · exact ih.trans (suffix_cons floor _)
    · exact suffix_rfl

theorem raise_suffix : (raise floor above).1 :: (raise floor above).2 <:+ floor :: above := by
  induction above generalizing floor with
  | nil => exact suffix_rfl
  | cons first rest ih =>
    simp only [raise]
    split
    · exact ih.trans (suffix_cons floor _)
    · exact suffix_rfl

theorem length_raise_le : (raise floor above).2.length ≤ above.length :=
  Nat.le_of_succ_le_succ raise_suffix.length_le

section

variable (sorted : (floor :: above).Pairwise (· < ·))
include sorted

theorem sorted_insertNumber (higher : floor < number) : (floor :: insertNumber number above).Pairwise (· < ·) := by
  induction above generalizing floor with
  | nil => simpa [insertNumber] using higher
  | cons first rest ih =>
    have inner := of_cons sorted
    have low : floor < first := rel_of_pairwise_cons sorted mem_cons_self
    simp only [insertNumber]
    split
    · rename_i before
      refine .cons ?_ (.cons ?_ inner)
      · intro other member
        rcases mem_cons.mp member with rfl | later
        · exact higher
        · exact rel_of_pairwise_cons sorted later
      · intro other member
        rcases mem_cons.mp member with rfl | later
        · exact before
        · exact UInt64.lt_trans before (List.rel_of_pairwise_cons inner later)
    · split
      · exact sorted
      rename_i notBefore different
      have after : first < number :=
        UInt64.lt_of_le_of_ne (UInt64.not_lt.mp notBefore) (different ·.symm)
      have tail := ih inner after
      refine .cons ?_ tail
      intro other member
      rcases mem_cons.mp member with rfl | later
      · exact low
      · exact UInt64.lt_trans low (List.rel_of_pairwise_cons tail later)

theorem sorted_giveUp : ((giveUp bound floor above).1 :: (giveUp bound floor above).2).Pairwise (· < ·) :=
  sorted.sublist giveUp_suffix.sublist

theorem sorted_raise : ((raise floor above).1 :: (raise floor above).2).Pairwise (· < ·) :=
  sorted.sublist raise_suffix.sublist

/-- What stays above the floor does not follow it directly. -/
theorem raise_gap : ∀ other ∈ (raise floor above).2, (raise floor above).1.toNat + 1 < other.toNat := by
  induction above generalizing floor with
  | nil => nofun
  | cons first rest ih =>
    simp only [raise]
    split
    · exact ih (of_cons sorted)
    rename_i apart
    have low : floor < first := rel_of_pairwise_cons sorted mem_cons_self
    have gap : floor.toNat + 1 < first.toNat := by
      have limit := first.toNat_lt
      simp only [UInt64.lt_iff_toNat_lt, ← UInt64.toNat_inj, UInt64.toNat_add, reduceToNat] at low apart
      omega
    refine forall_mem_cons.mpr ⟨gap, fun other later => ?_⟩
    exact Nat.lt_trans gap (UInt64.lt_iff_toNat_lt.mp (List.rel_of_pairwise_cons (of_cons sorted) later))

end

def none (bound : Nat) : Applied bound := ⟨0, [], by simp, by simp⟩

instance : Inhabited (Applied bound) := ⟨none bound⟩

variable (applied : Applied bound)

def isNew (number : UInt64) : Bool := applied.floor < number && !applied.above.contains number

def mark (number : UInt64) : Applied bound := if higher : applied.floor < number then
    let kept := giveUp bound applied.floor (insertNumber number applied.above)
    { floor := (raise kept.1 kept.2).1
      above := (raise kept.1 kept.2).2
      sorted := sorted_raise (sorted_giveUp (sorted_insertNumber applied.sorted higher))
      bounded := Nat.le_trans length_raise_le length_giveUp_le }
  else applied

variable {applied : Applied bound}

theorem isNew_eq_false : applied.isNew other = false ↔ other ≤ applied.floor ∨ other ∈ applied.above := by
  simp [isNew, imp_iff_not_or, UInt64.not_lt]

theorem raise_covers (sorted : (floor :: above).Pairwise (· < ·)) :
    (other ≤ (raise floor above).1 ∨ other ∈ (raise floor above).2) ↔ (other ≤ floor ∨ other ∈ above) := by
  induction above generalizing floor with
  | nil => rfl
  | cons first rest ih =>
    simp only [raise]
    split
    · rename_i next
      have low : floor < first := rel_of_pairwise_cons sorted mem_cons_self
      have covers : other ≤ first ↔ other ≤ floor ∨ other = first := by
        subst next
        simp only [UInt64.le_iff_toNat_le, UInt64.lt_iff_toNat_lt, ← UInt64.toNat_inj,
          UInt64.toNat_add, UInt64.reduceToNat] at low ⊢
        omega
      rw [ih (of_cons sorted), covers, mem_cons, or_assoc]
    · rfl

theorem giveUp_of_length_le (within : above.length ≤ bound) : giveUp bound floor above = (floor, above) := by
  cases above with
  | nil => rfl
  | cons first rest => rw [giveUp, if_neg (Nat.not_lt.mpr within)]

theorem insertNumber_of_mem (sorted : above.Pairwise (· < ·)) (there : number ∈ above) :
    insertNumber number above = above := by
  induction above with
  | nil => cases there
  | cons first rest ih =>
    simp only [insertNumber]
    split
    · rename_i before
      rcases mem_cons.mp there with same | later
      · exact absurd before (same ▸ UInt64.lt_irrefl _)
      · exact absurd before (UInt64.lt_asymm (List.rel_of_pairwise_cons sorted later))
    · split
      · rfl
      rename_i different
      rcases mem_cons.mp there with same | later
      · exact absurd same different
      · rw [ih (of_cons sorted) later]

/-- Marking `number` gives up on no gap. -/
def Room (applied : Applied bound) (number : UInt64) : Prop :=
  applied.isNew number = true → applied.above.length < bound ∨ number = applied.floor + 1

instance (applied : Applied bound) (number : UInt64) : Decidable (applied.Room number) :=
  inferInstanceAs (Decidable (_ → _))

theorem isNew_default : (default : Applied bound).isNew other = false ↔ other = 0 := by
  have empty : (default : Applied bound) = none bound := rfl
  rw [isNew_eq_false, empty]
  simp [none]

theorem giveUp_keeps (sorted : (floor :: above).Pairwise (· < ·)) (covered : other ≤ floor ∨ other ∈ above) :
    other ≤ (giveUp bound floor above).1 ∨ other ∈ (giveUp bound floor above).2 := by
  induction above generalizing floor with
  | nil => exact covered
  | cons first rest ih =>
    simp only [giveUp]
    split
    · refine ih (of_cons sorted) ?_
      have low : floor < first := rel_of_pairwise_cons sorted mem_cons_self
      rcases covered with below | member
      · exact .inl (UInt64.le_trans below (UInt64.le_of_lt low))
      rcases mem_cons.mp member with rfl | later
      · exact .inl (UInt64.le_refl _)
      · exact .inr later
    · exact covered

theorem isNew_mark_of_covered (covered : applied.isNew other = false ∨ other = number) :
    (applied.mark number).isNew other = false := by
  simp only [isNew_eq_false] at covered ⊢
  unfold mark
  split
  · rename_i higher
    have sorted := sorted_insertNumber applied.sorted higher
    rw [raise_covers (sorted_giveUp sorted)]
    refine giveUp_keeps sorted ?_
    rw [mem_insertNumber]
    rcases covered with (below | member) | same
    · exact .inl below
    · exact .inr (.inr member)
    · exact .inr (.inl same)
  · rename_i low
    rcases covered with applied | same
    · exact applied
    · exact .inl (same ▸ UInt64.not_lt.mp low)

/-- A number that is passed over lies before every number of a full list. -/
theorem giveUp_passed (sorted : (floor :: above).Pairwise (· < ·)) (small : above.length ≤ bound + 1)
    (higher : floor < other) (absent : other ∉ above)
    (passed : other ≤ (giveUp bound floor above).1 ∨ other ∈ (giveUp bound floor above).2) :
    bound < above.length ∧ ∀ later ∈ above, other < later := by
  by_cases within : above.length ≤ bound
  · rw [giveUp_of_length_le within] at passed
    exact absurd passed (not_or.mpr ⟨UInt64.not_le.mpr higher, absent⟩)
  cases above with
  | nil => exact absurd (Nat.zero_le bound) within
  | cons first rest =>
    rw [giveUp, if_pos (Nat.not_le.mp within), giveUp_of_length_le (Nat.le_of_succ_le_succ small)] at passed
    obtain ⟨different, outside⟩ := not_or.mp (mem_cons.not.mp absent)
    have before : other < first := UInt64.lt_of_le_of_ne (passed.resolve_right outside) different
    refine ⟨Nat.not_le.mp within, forall_mem_cons.mpr ⟨before, fun later there => ?_⟩⟩
    exact UInt64.lt_trans before (List.rel_of_pairwise_cons (of_cons sorted) there)

theorem mark_of_le (low : ¬ applied.floor < number) : applied.mark number = applied := dif_neg low

/-- A mark drops numbers from the front of the list that has the new one. -/
theorem mark_suffix (higher : applied.floor < number) :
    (applied.mark number).floor :: (applied.mark number).above <:+
      applied.floor :: insertNumber number applied.above := by
  rw [mark, dif_pos higher]
  exact raise_suffix.trans giveUp_suffix

theorem floor_le_mark (applied : Applied bound) (number : UInt64) : applied.floor ≤ (applied.mark number).floor := by
  by_cases higher : applied.floor < number
  · rcases mem_cons.mp ((mark_suffix higher).subset mem_cons_self) with same | later
    · exact same ▸ UInt64.le_refl _
    · exact UInt64.le_of_lt (rel_of_pairwise_cons (sorted_insertNumber applied.sorted higher) later)
  · rw [mark_of_le higher]
    exact UInt64.le_refl _

theorem mem_above_mark (there : other ∈ (applied.mark number).above) : other = number ∨ other ∈ applied.above := by
  by_cases higher : applied.floor < number
  · refine mem_insertNumber.mp ((mem_cons.mp ((mark_suffix higher).subset (.tail _ there))).resolve_left ?_)
    rintro rfl
    have raised := floor_le_mark applied number
    exact UInt64.not_lt.mpr raised (rel_of_pairwise_cons (applied.mark number).sorted there)
  · rw [mark_of_le higher] at there
    exact .inr there

/-- A mark passes over a new number only where the set is full of later ones. -/
theorem mark_passed (new : applied.isNew other = true) (different : other ≠ number)
    (old : (applied.mark number).isNew other = false) :
    other ≤ (applied.mark number).floor ∧ applied.floor < number ∧
      bound < (insertNumber number applied.above).length ∧
        ∀ later ∈ insertNumber number applied.above, other < later := by
  obtain ⟨beyond, absent⟩ : applied.floor < other ∧ other ∉ applied.above := by simpa [isNew] using new
  have higher : applied.floor < number := by
    by_contra low
    rw [mark_of_le low, new] at old
    cases old
  have sorted := sorted_insertNumber applied.sorted higher
  have kept := isNew_eq_false.mp old
  refine ⟨kept.resolve_right fun there => (mem_above_mark there).elim different absent, higher, ?_⟩
  rw [mark, dif_pos higher, raise_covers (sorted_giveUp sorted)] at kept
  exact giveUp_passed sorted (Nat.le_trans length_insertNumber_le (Nat.succ_le_succ applied.bounded)) beyond
    (mem_insertNumber.not.mpr (not_or.mpr ⟨different, absent⟩)) kept

theorem isNew_mark (room : applied.Room number) :
    (applied.mark number).isNew other = false ↔ applied.isNew other = false ∨ other = number := by
  refine ⟨fun old => ?_, isNew_mark_of_covered⟩
  by_contra fresh
  obtain ⟨unknown, different⟩ := not_or.mp fresh
  have new := Bool.of_not_eq_false unknown
  obtain ⟨-, higher, full, later⟩ := mark_passed new different old
  have absent : number ∉ applied.above := fun there => by
    rw [insertNumber_of_mem (of_cons applied.sorted) there] at full
    exact Nat.not_le.mpr full applied.bounded
  rcases room (by simp [isNew, higher, absent]) with short | next
  · exact Nat.not_le.mpr full (Nat.le_trans length_insertNumber_le short)
  have low : applied.floor < other := (by simpa [isNew] using new : _ ∧ _).1
  have before := later number (mem_insertNumber.mpr (.inl rfl))
  simp only [next, UInt64.lt_iff_toNat_lt, UInt64.toNat_add, reduceToNat] at low before
  omega

/-- What a set says about the numbers marked so far: one that was not marked is new, unless more
than `bound` later ones had been marked when the floor passed it. -/
structure Tracked (marks : List UInt64) (applied : Applied bound) : Prop where
  marked : ∀ other ∈ applied.above, other ∈ marks
  gap : ∀ other ∈ applied.above, applied.floor.toNat + 1 < other.toNat
  covered : ∀ other ∈ marks, applied.isNew other = false
  passed : ∀ other, other ∉ marks → other ≠ 0 → applied.isNew other = false →
    ∃ front, front <+: marks ∧ other ≤ (front.foldl mark (none bound)).floor ∧
      bound < (front.filter (other < ·)).dedup.length

theorem Tracked.mark (tracked : Tracked marks applied) (reached : marks.foldl mark (none bound) = applied) :
    Tracked (marks ++ [number]) (applied.mark number) where
  marked other there := by
    rcases mem_above_mark there with rfl | old
    · exact mem_append_right _ mem_cons_self
    · exact mem_append_left _ (tracked.marked other old)
  gap := by
    by_cases higher : applied.floor < number
    · rw [Applied.mark, dif_pos higher]
      exact raise_gap (sorted_giveUp (sorted_insertNumber applied.sorted higher))
    · rw [mark_of_le higher]
      exact tracked.gap
  covered := forall_mem_append.mpr ⟨fun other there => isNew_mark_of_covered (.inl (tracked.covered other there)),
    forall_mem_singleton.mpr (isNew_mark_of_covered (.inr rfl))⟩
  passed other unmarked nonzero old := by
    obtain ⟨outside, different⟩ : other ∉ marks ∧ other ≠ number := by simpa using unmarked
    cases before : applied.isNew other with
    | false =>
      obtain ⟨front, inside, facts⟩ := tracked.passed other outside nonzero before
      exact ⟨front, inside.trans (prefix_append _ _), facts⟩
    | true =>
      obtain ⟨low, higher, full, later⟩ := mark_passed before different old
      refine ⟨marks ++ [number], prefix_rfl, by simpa [reached] using low, Nat.lt_of_lt_of_le full ?_⟩
      have distinct := (of_cons (sorted_insertNumber applied.sorted higher)).imp UInt64.ne_of_lt
      refine (subperm_of_subset distinct fun each there => ?_).length_le
      rw [mem_dedup, mem_filter, mem_append, mem_singleton]
      refine ⟨?_, decide_eq_true (later each there)⟩
      exact (mem_insertNumber.mp there).symm.imp_left (tracked.marked each)

theorem tracked_foldl (bound : Nat) (marks : List UInt64) : Tracked marks (marks.foldl mark (none bound)) := by
  induction marks using reverseRecOn with
  | nil =>
    refine ⟨nofun, nofun, nofun, fun other _ nonzero old => absurd ?_ nonzero⟩
    exact isNew_default.mp old
  | append_singleton marks number ih =>
    rw [foldl_append]
    exact ih.mark rfl


/-- The set with the given parts, when they are in order and within the bound. -/
def ofParts? (bound : Nat) (floor : UInt64) (above : List UInt64) : Option (Applied bound) :=
  if valid : (floor :: above).Pairwise (· < ·) ∧ above.length ≤ bound then
    some ⟨floor, above, valid.1, valid.2⟩
  else Option.none

@[simp] theorem ofParts?_parts : ofParts? bound applied.floor applied.above = some applied := by
  simp [ofParts?, applied.sorted, applied.bounded]

end Applied

end Miasma.Data
