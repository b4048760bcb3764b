import Mathlib.Logic.Basic

namespace Miasma.Data

/-! Results of code that can also panic.  A sequence stops where its first part stops. -/

inductive Checked (ε α : Type u) where
  | ok (value : α)
  | error (e : ε)
  | panic
deriving DecidableEq

namespace Checked

variable {ε α β : Type u}

protected def bind (first : Checked ε α) (next : α → Checked ε β) : Checked ε β := match first with
  | .ok value => next value
  | .error e => .error e
  | .panic => .panic

instance : Monad (Checked ε) where
  pure := .ok
  bind := Checked.bind

@[simp] theorem pure_eq (value : α) : (pure value : Checked ε α) = .ok value := rfl

@[simp] theorem ok_bind (value : α) (next : α → Checked ε β) : (ok value >>= next) = next value := rfl

@[simp] theorem error_bind {next : α → Checked ε β} : ((error e : Checked ε α) >>= next) = .error e := rfl

@[simp] theorem panic_bind {next : α → Checked ε β} : ((panic : Checked ε α) >>= next) = .panic := rfl

variable {first : Checked ε α} {next : α → Checked ε β}

theorem bind_eq_ok_iff :
    (first >>= next) = .ok result ↔ ∃ value, first = .ok value ∧ next value = .ok result := by
  cases first <;> simp

theorem bind_eq_panic_iff :
    (first >>= next) = .panic ↔ first = .panic ∨ ∃ value, first = .ok value ∧ next value = .panic := by
  cases first <;> simp

theorem bind_ne_panic (safe : first ≠ .panic)
    (after : ∀ value, first = .ok value → next value ≠ .panic) : (first >>= next) ≠ .panic := by
  rw [Ne, bind_eq_panic_iff]
  rintro (stops | ⟨value, same, stops⟩)
  · exact safe stops
  · exact after value same stops

/-- A call that reports its failures. -/
def ofExcept : Except ε α → Checked ε α
  | .ok value => .ok value
  | .error e => .error e

@[simp] theorem ofExcept_ok (value : α) : ofExcept (.ok value : Except ε α) = .ok value := rfl

@[simp] theorem ofExcept_error : ofExcept (.error e : Except ε α) = .error e := rfl

@[simp] theorem ofExcept_ne_panic (result : Except ε α) : ofExcept result ≠ .panic := by
  cases result <;> simp

@[simp] theorem ofExcept_eq_ok_iff {value : α} : ofExcept result = .ok value ↔ result = .ok value := by
  cases result <;> simp

/-- A lookup that must succeed: an index of a slice, a key of a map. -/
def expect : Option α → Checked ε α
  | some value => .ok value
  | none => .panic

@[simp] theorem expect_some (value : α) : (expect (some value) : Checked ε α) = .ok value := rfl

@[simp] theorem expect_eq_ok_iff : (expect found : Checked ε α) = .ok value ↔ found = some value := by
  cases found <;> simp [expect]

@[simp] theorem expect_eq_panic_iff : (expect found : Checked ε α) = .panic ↔ found = none := by
  cases found <;> simp [expect]

/-- `&list[..count]`. -/
def firsts (list : List α) (count : Nat) : Checked ε (List α) :=
  if count ≤ list.length then .ok (list.take count) else .panic

variable {list : List α}

theorem firsts_of_le (enough : count ≤ list.length) :
    (firsts list count : Checked ε (List α)) = .ok (list.take count) := if_pos enough

/-- `first - second` of unsigned numbers. -/
def sub {ε : Type} (first second : Nat) : Checked ε Nat := if second ≤ first then .ok (first - second) else .panic

theorem sub_of_le {ε : Type} {first second : Nat} (below : second ≤ first) :
    (sub first second : Checked ε Nat) = .ok (first - second) := if_pos below

/-- The results of one call for each element, in order, up to the first failure. -/
def each (call : α → Checked ε β) : List α → Checked ε (List β)
  | [] => .ok []
  | value :: rest => do
    let result ← call value
    let results ← each call rest
    return result :: results

variable {call : α → Checked ε β}

theorem each_ne_panic (safe : ∀ value ∈ list, call value ≠ .panic) : each call list ≠ .panic := by
  induction list with
  | nil => simp [each]
  | cons value rest ih =>
    refine bind_ne_panic (safe value (by simp)) fun result _ => ?_
    refine bind_ne_panic (ih fun other member => safe other (by simp [member])) fun results _ => ?_
    simp

theorem each_eq_ok (calls : ∀ value ∈ list, call value = .ok (f value)) :
    each call list = .ok (list.map f) := by
  induction list with
  | nil => rfl
  | cons value rest ih =>
    have later := ih fun other member => calls other (by simp [member])
    simp [each, calls value (by simp), later]

end Checked

end Miasma.Data
