import Mathlib.Algebra.Ring.Nat
import Mathlib.Data.List.Nodup

namespace Miasma.Data

open List

/-! Lists whose elements have distinct keys. -/

variable {α κ : Type*} {key : α → κ} {list other : List α} {value : α} {k : κ}

def Distinct (key : α → κ) (list : List α) : Prop := (list.map key).Nodup

namespace Distinct

theorem nil : Distinct key [] := nodup_nil

theorem cons_iff : Distinct key (value :: list) ↔ (∀ held ∈ list, key held ≠ key value) ∧ Distinct key list := by
  simp [Distinct]

section

variable (distinct : Distinct key list)
include distinct

theorem sublist (part : other.Sublist list) : Distinct key other := Nodup.sublist (part.map key) distinct

theorem filter : Distinct key (list.filter keep) := distinct.sublist filter_sublist

theorem concat (fresh : ∀ held ∈ list, key held ≠ key value) : Distinct key (list ++ [value]) := by
  simp only [Distinct, map_append, map_cons, map_nil]
  refine Nodup.append distinct (nodup_singleton _) ?_
  intro k there here
  obtain ⟨held, member, same⟩ := mem_map.mp there
  rw [mem_singleton] at here
  exact fresh held member (same.trans here)

theorem map (kept : ∀ value, key (f value) = key value) : Distinct key (list.map f) := by
  have same : key ∘ f = key := funext kept
  simpa [Distinct, map_map, same] using distinct

theorem unique (there : value ∈ list) (here : held ∈ list) (same : key value = key held) : value = held :=
  inj_on_of_nodup_map distinct there here same

end

theorem image {tag : β → ι} (distinct : Distinct key list)
    (apart : ∀ value ∈ list, ∀ held ∈ list, tag (f value) = tag (f held) → key value = key held) :
    Distinct tag (list.map f) := by
  rw [Distinct, map_map]
  refine Nodup.map_on ?_ (Nodup.of_map key distinct)
  intro value there held here same
  exact distinct.unique there here (apart value there held here same)

variable [DecidableEq κ]

theorem find?_eq_some_iff (distinct : Distinct key list) :
    list.find? (key · = k) = some value ↔ value ∈ list ∧ key value = k := by
  constructor
  · intro found
    exact ⟨mem_of_find?_eq_some found, by simpa using find?_some found⟩
  intro ⟨there, same⟩
  cases found : list.find? (key · = k) with
  | none =>
    have absent := find?_eq_none.mp found value there
    simp [same] at absent
  | some held =>
    have here := mem_of_find?_eq_some found
    have keyed : key held = k := by simpa using find?_some found
    rw [distinct.unique there here (same.trans keyed.symm)]

theorem eraseP_eq_filter (distinct : Distinct key list) :
    list.eraseP (key · = k) = list.filter (key · ≠ k) := by
  induction list with
  | nil => rfl
  | cons value rest ih =>
    obtain ⟨fresh, distinct⟩ := cons_iff.mp distinct
    by_cases same : key value = k
    · have untouched : rest.filter (key · ≠ k) = rest := by
        apply filter_eq_self.mpr
        intro held there
        have different := fresh held there
        rw [same] at different
        simpa using different
      rw [eraseP_cons_of_pos (by simpa using same), filter_cons_of_neg (by simpa using same), untouched]
    · rw [eraseP_cons_of_neg (by simpa using same), filter_cons_of_pos (by simpa using same), ih distinct]

end Distinct

variable [DecidableEq κ]

def updateFirst (key : α → κ) (k : κ) (f : α → α) : List α → List α
  | [] => []
  | value :: rest => if key value = k then f value :: rest else value :: updateFirst key k f rest

variable {f : α → α}

theorem updateFirst_of_absent (absent : ∀ value ∈ list, key value ≠ k) : updateFirst key k f list = list := by
  induction list with
  | nil => rfl
  | cons value rest ih =>
    obtain ⟨first, later⟩ := forall_mem_cons.mp absent
    rw [updateFirst, if_neg first, ih later]

theorem Distinct.updateFirst_eq_map (distinct : Distinct key list) (k : κ) (f : α → α) :
    updateFirst key k f list = list.map (fun value => if key value = k then f value else value) := by
  induction list with
  | nil => rfl
  | cons value rest ih =>
    obtain ⟨fresh, distinct⟩ := Distinct.cons_iff.mp distinct
    simp only [updateFirst, map_cons]
    split
    · rename_i same
      have untouched : rest.map (fun value => if key value = k then f value else value) = rest := by
        apply (map_congr_left _).trans (map_id rest)
        intro held there
        have different := fresh held there
        rw [same] at different
        simp [different]
      rw [untouched]
    · rw [ih distinct]

theorem mem_updateFirst (member : value ∈ updateFirst key k f list) :
    value ∈ list ∨ ∃ held ∈ list, key held = k ∧ value = f held := by
  induction list with
  | nil => cases member
  | cons first rest ih =>
    simp only [updateFirst] at member
    split at member
    · rename_i same
      rcases mem_cons.mp member with here | later
      · exact .inr ⟨first, mem_cons_self, same, here⟩
      · exact .inl (mem_cons_of_mem _ later)
    · rcases mem_cons.mp member with here | later
      · exact .inl (here ▸ mem_cons_self)
      rcases ih later with old | ⟨held, there, facts⟩
      · exact .inl (mem_cons_of_mem _ old)
      · exact .inr ⟨held, mem_cons_of_mem _ there, facts⟩

theorem sum_updateFirst (weight : α → Nat) (found : list.find? (key · = k) = some value) :
    ((updateFirst key k f list).map weight).sum + weight value = (list.map weight).sum + weight (f value) := by
  induction list with
  | nil => cases found
  | cons first rest ih =>
    by_cases same : key first = k
    · rw [find?_cons_of_pos (by simpa using same)] at found
      cases found
      simp only [updateFirst, same, if_true, map_cons, sum_cons]
      omega
    · rw [find?_cons_of_neg (by simpa using same)] at found
      have rest := ih found
      simp only [updateFirst, same, if_false, map_cons, sum_cons]
      omega

theorem sum_eraseP (weight : α → Nat) (found : list.find? (key · = k) = some value) :
    ((list.eraseP (key · = k)).map weight).sum + weight value = (list.map weight).sum := by
  induction list with
  | nil => cases found
  | cons first rest ih =>
    by_cases same : key first = k
    · rw [find?_cons_of_pos (by simpa using same)] at found
      cases found
      rw [eraseP_cons_of_pos (by simpa using same), map_cons, sum_cons]
      omega
    · rw [find?_cons_of_neg (by simpa using same)] at found
      have rest := ih found
      rw [eraseP_cons_of_neg (by simpa using same)]
      simp only [map_cons, sum_cons]
      omega

theorem Distinct.sum_remove {weight : α → Nat} (distinct : Distinct key list) (there : value ∈ list) :
    ((list.filter (key · ≠ key value)).map weight).sum + weight value = (list.map weight).sum := by
  have found := distinct.find?_eq_some_iff.mpr ⟨there, rfl⟩
  rw [← distinct.eraseP_eq_filter]
  exact sum_eraseP weight found

end Miasma.Data
