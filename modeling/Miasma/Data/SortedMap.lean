import Mathlib.Order.Lattice
import Mathlib.Data.List.Basic

namespace Miasma.Data

open List

/-! Finite maps as lists in strictly ascending key order.

The list is the iteration order of the map, and two maps with the same bindings
are equal.
-/

universe u v

structure SortedMap (κ : Type u) (α : Type v) [LT κ] where
  entries : List (κ × α)
  sorted : entries.Pairwise (·.1 < ·.1)

namespace SortedMap

def insertEntry [LinearOrder κ] (key : κ) (value : α) : List (κ × α) → List (κ × α)
  | [] => [(key, value)]
  | (other, held) :: rest =>
    if key < other then (key, value) :: (other, held) :: rest
    else if key = other then (key, value) :: rest
    else (other, held) :: insertEntry key value rest

variable {κ : Type u} {α : Type v} [LinearOrder κ] {second first : SortedMap κ α}

theorem ext_entries (same : first.entries = second.entries) : first = second := by
  cases first
  cases same
  rfl

instance [DecidableEq α] : DecidableEq (SortedMap κ α) := fun first second =>
  decidable_of_iff (first.entries = second.entries) ⟨ext_entries, congrArg entries⟩

def empty : SortedMap κ α := ⟨[], .nil⟩

variable {key other : κ} {value : α} {list : List (κ × α)}

theorem key_mem_insertEntry (member : other ∈ (insertEntry key value list).map Prod.fst) :
    other = key ∨ other ∈ list.map Prod.fst := by
  induction list with
  | nil => simpa [insertEntry] using member
  | cons head rest ih =>
    simp only [insertEntry] at member
    split at member
    · simpa using member
    split at member
    · rcases mem_cons.mp member with same | later
      · exact .inl same
      · exact .inr (mem_cons_of_mem _ later)
    · rcases mem_cons.mp member with same | later
      · exact .inr (same ▸ mem_cons_self)
      · exact (ih later).imp_right (mem_cons_of_mem _)

theorem sorted_insertEntry (sorted : list.Pairwise (·.1 < ·.1)) :
    (insertEntry key value list).Pairwise (·.1 < ·.1) := by
  induction list with
  | nil => exact pairwise_singleton _ _
  | cons head rest ih =>
    have above : ∀ {entry}, entry ∈ rest → head.1 < entry.1 := rel_of_pairwise_cons sorted
    simp only [insertEntry]
    split
    · rename_i before
      refine .cons ?_ sorted
      intro entry member
      rcases mem_cons.mp member with rfl | later
      · exact before
      · exact lt_trans before (above later)
    split
    · rename_i same
      subst same
      exact .cons (fun entry member => above member) (Pairwise.of_cons sorted)
    rename_i notBefore different
    refine .cons ?_ (ih (Pairwise.of_cons sorted))
    intro entry member
    rcases key_mem_insertEntry (mem_map_of_mem member) with same | later
    · rw [same]
      exact lt_of_le_of_ne (not_lt.mp notBefore) (different ·.symm)
    · obtain ⟨held, inRest, equal⟩ := mem_map.mp later
      exact equal ▸ above inRest

def insert (map : SortedMap κ α) (key : κ) (value : α) : SortedMap κ α :=
  ⟨insertEntry key value map.entries, sorted_insertEntry map.sorted⟩

def erase (map : SortedMap κ α) (key : κ) : SortedMap κ α :=
  ⟨map.entries.filter (·.1 ≠ key), map.sorted.filter _⟩

def filter (map : SortedMap κ α) (keep : κ × α → Bool) : SortedMap κ α :=
  ⟨map.entries.filter keep, map.sorted.filter _⟩

def map {β : Type*} (m : SortedMap κ α) (f : α → β) : SortedMap κ β :=
  ⟨m.entries.map (fun entry => (entry.1, f entry.2)), pairwise_map.mpr m.sorted⟩

variable (map : SortedMap κ α)

def get? (key : κ) : Option α := map.entries.lookup key

def contains (key : κ) : Bool := (map.get? key).isSome

def size : Nat := map.entries.length

def keys : List κ := map.entries.map Prod.fst

def values : List α := map.entries.map Prod.snd

@[simp] theorem get?_empty : (empty : SortedMap κ α).get? key = none := rfl

theorem lookup_cons_eq :
    ((key, value) :: rest).lookup other = if other = key then some value else rest.lookup other := by
  by_cases same : other = key
  · simp [same]
  have different : (other == key) = false := beq_eq_false_iff_ne.mpr same
  simp [lookup_cons, different, same]

theorem lookup_insertEntry :
    (insertEntry key value list).lookup other = if other = key then some value else list.lookup other := by
  induction list with
  | nil => simp only [insertEntry, lookup_cons_eq]
  | cons head rest ih =>
    obtain ⟨held, kept⟩ := head
    simp only [insertEntry]
    split
    · simp only [lookup_cons_eq]
    split
    · rename_i equal
      subst equal
      simp only [lookup_cons_eq]
      split <;> rfl
    · rename_i different
      simp only [lookup_cons_eq, ih]
      by_cases same : other = held
      · subst same
        have distinct : other ≠ key := fun equal => different equal.symm
        simp [distinct]
      · simp [same]

@[simp] theorem get?_insert_self : (map.insert key value).get? key = some value := by
  simp [get?, insert, lookup_insertEntry]

theorem get?_insert :
    (map.insert key value).get? other = if other = key then some value else map.get? other := by
  simp only [get?, insert, lookup_insertEntry]

variable {map : SortedMap κ α}

theorem get?_insert_of_ne (different : other ≠ key) : (map.insert key value).get? other = map.get? other := by
  rw [get?_insert, if_neg different]

theorem get?_insert_cases (found : (map.insert key value).get? other = some held) :
    other = key ∧ held = value ∨ other ≠ key ∧ map.get? other = some held := by
  rw [get?_insert] at found
  split at found
  · exact .inl ⟨‹_›, (Option.some.inj found).symm⟩
  · exact .inr ⟨‹_›, found⟩

theorem lookup_filter_ne :
    (list.filter (·.1 ≠ key)).lookup other = if other = key then none else list.lookup other := by
  induction list with
  | nil => simp
  | cons head rest ih =>
    obtain ⟨held, kept⟩ := head
    by_cases removed : held = key
    · subst removed
      simp only [ne_eq, not_true_eq_false, decide_false, Bool.false_eq_true, not_false_eq_true,
        filter_cons_of_neg, lookup_cons_eq] at ih ⊢
      rw [ih]
      split <;> rfl
    · simp only [ne_eq, removed, not_false_eq_true, decide_true, filter_cons_of_pos, lookup_cons_eq] at ih ⊢
      rw [ih]
      by_cases same : other = held
      · subst same
        simp [removed]
      · simp [same]

theorem get?_erase {map : SortedMap κ α} :
    (map.erase key).get? other = if other = key then none else map.get? other := by
  simp only [get?, erase, lookup_filter_ne]

theorem get?_of_erase (found : (map.erase key).get? other = some value) : map.get? other = some value := by
  rw [get?_erase] at found
  split at found
  · cases found
  · exact found

theorem lookup_eq_some_iff (sorted : list.Pairwise (·.1 < ·.1)) :
    list.lookup key = some value ↔ (key, value) ∈ list := by
  induction list with
  | nil => simp
  | cons head rest ih =>
    obtain ⟨held, kept⟩ := head
    have above : ∀ {entry}, entry ∈ rest → held < entry.1 := rel_of_pairwise_cons sorted
    have inner := ih (Pairwise.of_cons sorted)
    rw [lookup_cons_eq]
    by_cases same : key = held
    · subst same
      simp only [if_true, Option.some.injEq, mem_cons, Prod.mk.injEq, true_and]
      constructor
      · exact fun equal => .inl equal.symm
      rintro (equal | later)
      · exact equal.symm
      · exact absurd (above later) (lt_irrefl _)
    · simp [inner, same]

theorem get?_eq_some_iff : map.get? key = some value ↔ (key, value) ∈ map.entries := lookup_eq_some_iff map.sorted

theorem nodup_entries (map : SortedMap κ α) : map.entries.Nodup := by
  refine Pairwise.imp ?_ map.sorted
  rintro entry other below rfl
  exact lt_irrefl _ below

theorem ext_get? (same : ∀ key, first.get? key = second.get? key) : first = second := by
  have members : ∀ entry, entry ∈ first.entries ↔ entry ∈ second.entries := by
    rintro ⟨key, value⟩
    rw [← get?_eq_some_iff, ← get?_eq_some_iff, same]
  have shuffled : first.entries.Perm second.entries :=
    (perm_ext_iff_of_nodup first.nodup_entries second.nodup_entries).mpr members
  refine ext_entries (shuffled.eq_of_pairwise ?_ first.sorted second.sorted)
  intro one other _ _ below above
  exact absurd (lt_trans below above) (lt_irrefl _)

theorem insert_of_get? (found : map.get? key = some value) : map.insert key value = map := by
  apply ext_get?
  intro other
  rw [get?_insert]
  split
  · rename_i same
    rw [same, found]
  · rfl

theorem insert_eq_iff : map.insert key value = map ↔ map.get? key = some value :=
  ⟨fun same => same ▸ get?_insert_self map, insert_of_get?⟩

variable {keep : κ × α → Bool}

theorem get?_of_filter (found : (map.filter keep).get? key = some value) : map.get? key = some value :=
  get?_eq_some_iff.mpr (mem_of_mem_filter (get?_eq_some_iff.mp found))

theorem get?_filter (found : map.get? key = some value) (kept : keep (key, value) = true) :
    (map.filter keep).get? key = some value :=
  get?_eq_some_iff.mpr (mem_filter.mpr ⟨get?_eq_some_iff.mp found, kept⟩)

theorem get?_map {m : SortedMap κ α} {f : α → β} : (m.map f).get? key = (m.get? key).map f := by
  simp only [get?, map]
  induction m.entries with
  | nil => rfl
  | cons entry rest ih =>
    rw [map_cons, lookup_cons_eq, ih]
    rw [lookup_cons_eq]
    split <;> rfl

theorem get?_foldl_insert {values : List β} {keyOf : β → κ} {valueOf : β → α}
    (found : (values.foldl (fun map item => map.insert (keyOf item) (valueOf item)) map).get? key = some value) :
    map.get? key = some value ∨ ∃ item ∈ values, valueOf item = value := by
  induction values generalizing map with
  | nil => exact .inl found
  | cons head rest ih =>
    rcases ih found with old | ⟨item, member, same⟩
    · rcases get?_insert_cases old with ⟨-, same⟩ | ⟨-, old⟩
      · exact .inr ⟨head, mem_cons_self, same.symm⟩
      · exact .inl old
    · exact .inr ⟨item, mem_cons_of_mem head member, same⟩

theorem mem_values_iff : value ∈ map.values ↔ ∃ key, map.get? key = some value := by
  simp only [values, mem_map, get?_eq_some_iff, Prod.exists, exists_eq_right]

theorem filter_values_erase {keep : α → Bool} (dropped : ∀ value, map.get? key = some value → keep value = false) :
    (map.erase key).values.filter keep = map.values.filter keep := by
  simp only [values, erase, filter_map, filter_filter]
  refine congrArg _ (filter_congr fun entry member => ?_)
  by_cases same : entry.1 = key
  · simp [dropped entry.2 (get?_eq_some_iff.mpr (same ▸ member))]
  · simp [same]

theorem size_erase_lt (present : map.get? key = some value) : (map.erase key).size < map.size :=
  length_filter_lt_length_iff_exists.mpr ⟨(key, value), get?_eq_some_iff.mp present, by simp⟩

theorem length_insertEntry_le : (insertEntry key value list).length ≤ list.length + 1 := by
  induction list with
  | nil => simp [insertEntry]
  | cons head rest ih =>
    simp only [insertEntry]
    split
    · simp
    split
    · simp
    simp only [length_cons]
    omega

theorem size_insert_le {map : SortedMap κ α} : (map.insert key value).size ≤ map.size + 1 :=
  length_insertEntry_le

theorem length_insertEntry_of_mem (sorted : list.Pairwise (·.1 < ·.1))
    (present : (key, held) ∈ list) : (insertEntry key value list).length = list.length := by
  induction list with
  | nil => contradiction
  | cons head rest ih =>
    have above : ∀ {entry}, entry ∈ rest → head.1 < entry.1 := rel_of_pairwise_cons sorted
    simp only [insertEntry]
    rcases mem_cons.mp present with same | later
    · cases same
      rw [if_neg (lt_irrefl key), if_pos rfl]
      rfl
    · have below := above later
      have notBefore : ¬ key < head.1 := lt_asymm below
      have different : key ≠ head.1 := fun same => lt_irrefl _ (same ▸ below)
      simp [notBefore, different, ih (Pairwise.of_cons sorted) later]

theorem size_insert_of_contains (present : map.contains key = true) : (map.insert key value).size = map.size := by
  obtain ⟨held, found⟩ := Option.isSome_iff_exists.mp present
  exact length_insertEntry_of_mem map.sorted (get?_eq_some_iff.mp found)

theorem insertEntry_of_above
    (above : ∀ entry ∈ list, entry.1 < key) : insertEntry key value list = list ++ [(key, value)] := by
  induction list with
  | nil => rfl
  | cons head rest ih =>
    simp only [forall_mem_cons] at above
    have notBefore : ¬ key < head.1 := lt_asymm above.1
    have different : key ≠ head.1 := fun same => lt_irrefl _ (same ▸ above.1)
    simp only [insertEntry, notBefore, different, if_false, ih above.2, cons_append]

/-- The map with the given bindings; a later binding of a key wins. -/
def ofList (list : List (κ × α)) : SortedMap κ α := list.foldl (fun map entry => map.insert entry.1 entry.2) empty

theorem foldl_insert_entries (front rest : List (κ × α))
    (sorted : (front ++ rest).Pairwise (·.1 < ·.1))
    (map : SortedMap κ α) (held : map.entries = front) :
    (rest.foldl (fun map entry => map.insert entry.1 entry.2) map).entries = front ++ rest := by
  induction rest generalizing front map with
  | nil => simpa using held
  | cons head rest ih =>
    have above : ∀ entry ∈ front, entry.1 < head.1 := by
      intro entry member
      exact (pairwise_append.mp sorted).2.2 entry member head mem_cons_self
    have next : (map.insert head.1 head.2).entries = front ++ [head] := by
      simp only [insert, held, insertEntry_of_above above]
    have tail := ih (front ++ [head]) (by simpa using sorted) (map.insert head.1 head.2) next
    simpa using tail

@[simp] theorem ofList_entries (map : SortedMap κ α) : ofList map.entries = map :=
  ext_entries (foldl_insert_entries [] map.entries map.sorted empty rfl)

end SortedMap

end Miasma.Data
