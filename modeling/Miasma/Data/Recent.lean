import Mathlib.Data.List.Basic

namespace Miasma.Data

open List

/-! Bounded logs: the suffix `recent bound full` of everything that was ever appended. -/

/-- The newest `bound` entries of `full`, oldest first. -/
def recent (bound : Nat) (full : List α) : List α := full.drop (full.length - bound)

variable {bound : Nat} {full : List α}

theorem recent_suffix : recent bound full <:+ full := drop_suffix _ _

theorem mem_recent_append (inside : entry ∈ recent bound (old ++ new)) : entry ∈ old ∨ entry ∈ new :=
  mem_append.mp (recent_suffix.subset inside)

theorem length_recent (bound : Nat) (full : List α) : (recent bound full).length = min bound full.length := by
  simp only [recent, length_drop]
  omega

theorem recent_of_length_le (short : full.length ≤ bound) : recent bound full = full := by
  have none : full.length - bound = 0 := by omega
  rw [recent, none, drop_zero]

theorem recent_ne_nil (positive : 0 < bound) (some : full ≠ []) : recent bound full ≠ [] := by
  intro empty
  have length := length_recent bound full
  have count := length_pos_iff.mpr some
  rw [empty, length_nil] at length
  omega

theorem getLast?_recent (positive : 0 < bound) : (recent bound full).getLast? = full.getLast? := by
  rw [recent, getLast?_drop]
  split
  · have empty : full = [] := length_eq_zero_iff.mp (by omega)
    simp [empty]
  · rfl

theorem recent_concat (positive : 0 < bound) (entry : α) : recent bound (full ++ [entry]) =
      if (recent bound full ++ [entry]).length > bound then (recent bound full ++ [entry]).tail
      else recent bound full ++ [entry] := by
  have length := length_recent bound full
  by_cases long : bound ≤ full.length
  · have beyond : (recent bound full ++ [entry]).length > bound := by simp; omega
    have shift : (full ++ [entry]).length - bound = full.length - bound + 1 := by simp; omega
    have inside : full.length - bound + 1 ≤ full.length := by omega
    rw [if_pos beyond, recent, shift, drop_append_of_le_length inside,
      tail_append_of_ne_nil (recent_ne_nil positive (by rintro rfl; simp at long; omega)),
      recent, tail_drop]
  · have under : ¬ (recent bound full ++ [entry]).length > bound := by simp; omega
    rw [if_neg under, recent_of_length_le (by simp; omega), recent_of_length_le (by omega)]

theorem dropLast_recent (some : full ≠ []) :
    (recent bound full).dropLast = full.dropLast.drop (full.length - bound) := by
  have count := length_pos_iff.mpr some
  rw [recent, dropLast_eq_take, dropLast_eq_take, length_drop, drop_take]
  congr 1
  omega

theorem recent_replace (positive : 0 < bound) (some : full ≠ []) :
    recent bound (full.dropLast ++ [entry]) = (recent bound full).dropLast ++ [entry] := by
  have count := length_pos_iff.mpr some
  have same : (full.dropLast ++ [entry]).length = full.length := by
    simp only [length_append, length_dropLast, length_singleton]
    omega
  have inside : full.length - bound ≤ full.dropLast.length := by
    rw [length_dropLast]
    omega
  rw [recent, same, drop_append_of_le_length inside, dropLast_recent some]

theorem getLast?_dropLast_recent (room : 1 < bound) :
    (recent bound full).dropLast.getLast? = full.dropLast.getLast? := by
  by_cases some : full = []
  · simp [some, recent]
  rw [dropLast_recent some, getLast?_drop]
  split
  · rename_i short
    rw [length_dropLast] at short
    have empty : full.dropLast = [] := length_eq_zero_iff.mp (by
      rw [length_dropLast]
      omega)
    simp [empty]
  · rfl

end Miasma.Data
