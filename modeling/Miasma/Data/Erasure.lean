import Mathlib.Data.List.Perm.Subperm
import Mathlib.Data.List.Range
import Miasma.Data.Keyed

namespace Miasma.Data

open List Prod

/-! Erasure codes: lists cut into pieces of one length, of which enough give the others back. -/

/-! ## Pieces of one length -/

section Pieces

variable {α : Type*}

/-- `Vec::resize`. -/
def resize (list : List α) (len : Nat) (fill : α) : List α := (list ++ replicate (len - list.length) fill).take len

@[simp] theorem length_resize {fill : α} : (resize list len fill).length = len := by
  simp only [resize, length_take, length_append, length_replicate]
  omega

variable {list : List α} {len : Nat}

theorem take_resize (fits : list.length ≤ len) (fill : α) : (resize list len fill).take list.length = list := by
  simp [resize, take_take, Nat.min_eq_left fits]

def chunks (len : Nat) : Nat → List α → List (List α)
  | 0, _ => []
  | count + 1, list => list.take len :: chunks len count (list.drop len)

@[simp] theorem length_chunks {len count : Nat} : (chunks len count list).length = count := by
  induction count generalizing list with
  | zero => rfl
  | succ count ih => simp [chunks, ih]

theorem length_of_mem_chunks {count : Nat} (exact : list.length = len * count)
    (member : piece ∈ chunks len count list) : piece.length = len := by
  induction count generalizing list with
  | zero => cases member
  | succ count ih =>
    have room : list.length = len * count + len := by rw [exact, Nat.mul_succ]
    rcases mem_cons.mp member with here | later
    · rw [here, length_take]
      omega
    refine ih ?_ later
    rw [length_drop]
    omega

theorem flatten_chunks {count : Nat} (exact : list.length = len * count) :
    (chunks len count list).flatten = list := by
  induction count generalizing list with
  | zero => simpa [chunks, eq_comm] using exact
  | succ count ih =>
    have rest : (list.drop len).length = len * count := by
      rw [length_drop, exact, Nat.mul_succ]
      omega
    rw [chunks, flatten_cons, ih rest, take_append_drop]

end Pieces

/-! ## Pieces by index -/

section Indexed

variable {α κ : Type*} [DecidableEq κ]

/-- A map filled with `or_insert`: of the pairs with one key the first is kept. -/
def firstWins : List (κ × α) → List (κ × α)
  | [] => []
  | pair :: rest => pair :: (firstWins rest).filter (·.1 ≠ pair.1)

def valueAt (map : List (κ × α)) (k : κ) : Option α := (map.find? (·.1 = k)).map snd

variable {list : List (κ × α)}

theorem mem_of_mem_firstWins (member : pair ∈ firstWins list) : pair ∈ list := by
  induction list with
  | nil => exact member
  | cons first rest ih =>
    rcases mem_cons.mp member with here | later
    · exact here ▸ mem_cons_self
    · exact mem_cons_of_mem _ (ih (mem_of_mem_filter later))

theorem distinct_firstWins (list : List (κ × α)) : Distinct fst (firstWins list) := by
  induction list with
  | nil => exact Distinct.nil
  | cons first rest ih =>
    refine Distinct.cons_iff.mpr ⟨?_, ih.filter⟩
    intro held member
    simpa using (mem_filter.mp member).2

theorem firstWins_of_distinct (distinct : Distinct fst list) : firstWins list = list := by
  induction list with
  | nil => rfl
  | cons first rest ih =>
    obtain ⟨fresh, distinct⟩ := Distinct.cons_iff.mp distinct
    rw [firstWins, ih distinct, filter_eq_self.mpr]
    intro held member
    simpa using fresh held member

variable {map : List (κ × α)}

theorem valueAt_of_mem (distinct : Distinct fst map) (member : pair ∈ map) :
    valueAt map pair.1 = some pair.2 := by
  simp [valueAt, distinct.find?_eq_some_iff.mpr ⟨member, rfl⟩]

theorem valueAt_eq_none_iff : valueAt map k = none ↔ ∀ pair ∈ map, pair.1 ≠ k := by
  simp [valueAt]

theorem mem_of_valueAt (found : valueAt map k = some value) : (k, value) ∈ map := by
  obtain ⟨pair, here, same⟩ := Option.map_eq_some_iff.mp found
  have keyed : pair.1 = k := by simpa using find?_some here
  have member := mem_of_find?_eq_some here
  rwa [← keyed, ← same]

variable {map : List (Nat × α)} {bound : Nat}

section

variable (distinct : Distinct fst map) (below : ∀ pair ∈ map, pair.1 < bound)
include distinct below

theorem subperm_range : (map.map fst).Subperm (range bound) := by
  refine subperm_of_subset distinct ?_
  intro k member
  obtain ⟨pair, there, rfl⟩ := mem_map.mp member
  exact mem_range.mpr (below pair there)

theorem length_le_of_below : map.length ≤ bound := by
  simpa using (subperm_range distinct below).length_le

theorem valueAt_isSome_of_full (full : map.length = bound) (inside : k < bound) : (valueAt map k).isSome := by
  have all : (map.map fst).Perm (range bound) :=
    (subperm_range distinct below).perm_of_length_le (by simp [full])
  obtain ⟨pair, there, rfl⟩ := mem_map.mp (all.mem_iff.mpr (mem_range.mpr inside))
  rw [valueAt_of_mem distinct there]
  rfl

end

end Indexed

/-! ## Codes -/

/-- Any `originals` of the `originals + spares` pieces of a code give the missing originals
back, whatever the order they are given in. -/
structure Restores {ε σ : Type*} (encode : List σ → Except ε (List σ))
    (decode : List (Nat × σ) → List (Nat × σ) → Except ε (Nat → Option σ)) (fits : σ → Prop)
    (originals spares : Nat) : Prop where
  encodes : ∀ {pieces : List σ}, pieces.length = originals → (∀ piece ∈ pieces, fits piece) →
    ∃ more, encode pieces = .ok more ∧ more.length = spares ∧ ∀ piece ∈ more, fits piece
  decodes : ∀ {pieces more : List σ} {present extra : List (Nat × σ)},
    pieces.length = originals → (∀ piece ∈ pieces, fits piece) → encode pieces = .ok more →
    Distinct fst present → (∀ pair ∈ present, pieces[pair.1]? = some pair.2) →
    Distinct fst extra → (∀ pair ∈ extra, more[pair.1]? = some pair.2) →
    present.length + extra.length = originals → present.length < originals →
    ∃ restored, decode present extra = .ok restored ∧
      ∀ i < originals, (∀ pair ∈ present, pair.1 ≠ i) → restored i = pieces[i]?

/-- Any `threshold` of the parts dealt of a secret, in any order, give the secret back. -/
def Combines {ε σ τ : Type*} (dealt : List σ) (recover : List σ → Except ε τ) (threshold parts : Nat)
    (secret : τ) : Prop :=
  dealt.length = parts ∧ ∀ chosen : List (Nat × σ), Distinct fst chosen →
    (∀ pair ∈ chosen, dealt[pair.1]? = some pair.2) → chosen.length = threshold →
    recover (chosen.map snd) = .ok secret

end Miasma.Data
