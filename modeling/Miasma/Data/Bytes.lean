import Mathlib.Tactic.Ring

namespace Miasma.Data

open List

/-! Lists that grow at their end, fixed-width byte arrays and big-endian integers. -/

theorem mem_snoc : a ∈ list ++ [last] ↔ a ∈ list ∨ a = last := by simp

theorem getElem?_snoc (found : (list ++ [last])[k]? = some a) :
    list[k]? = some a ∨ k = list.length ∧ a = last := by
  grind

theorem forall_mem_snoc {p : α → Prop} (old : ∀ a ∈ list, p a) (new : p last) :
    ∀ a ∈ list ++ [last], p a :=
  forall_mem_append.mpr ⟨old, forall_mem_singleton.mpr new⟩

abbrev Bytes := List UInt8

structure ByteVec (n : Nat) where
  toList : Bytes
  length_toList : toList.length = n
deriving DecidableEq

/-- `[u8; 16]`. -/
abbrev B16 := ByteVec 16

/-- `[u8; 32]`. -/
abbrev B32 := ByteVec 32

namespace ByteVec

-- by name, for the definitions that look keys up
instance : LawfulBEq (ByteVec 32) := inferInstance

theorem ext_toList {left right : ByteVec n} (same : left.toList = right.toList) : left = right := by
  cases left
  cases same
  rfl

def fill (n : Nat) (byte : UInt8) : ByteVec n := ⟨replicate n byte, by simp⟩

instance : Inhabited (ByteVec n) := ⟨fill n 0⟩

/-- Byte arrays are compared lexicographically, as Rust compares `[u8; n]`. -/
instance : LT (ByteVec n) := ⟨fun left right => left.toList < right.toList⟩

instance (left right : ByteVec n) : Decidable (left < right) :=
  inferInstanceAs (Decidable (left.toList < right.toList))

instance : LinearOrder (ByteVec n) where
  le left right := ¬ right < left
  le_refl value := List.lt_irrefl value.toList
  le_trans first second third less more := List.le_trans less more
  le_antisymm left right notLess notGreater := ext_toList (List.le_antisymm notLess notGreater)
  le_total left right := by
    by_cases less : right < left
    · exact .inr (fun greater => List.lt_irrefl _ (List.lt_trans less greater))
    · exact .inl less
  lt_iff_le_not_ge left right :=
    ⟨fun less => ⟨fun greater => List.lt_irrefl _ (List.lt_trans less greater), fun keep => keep less⟩,
      fun both => Decidable.of_not_not both.2⟩
  toDecidableLE left right := inferInstanceAs (Decidable (¬ right < left))
  toDecidableEq := inferInstance
  toDecidableLT left right := inferInstance

def ofList? (n : Nat) (bytes : Bytes) : Option (ByteVec n) :=
  if exact : bytes.length = n then some ⟨bytes, exact⟩ else none

@[simp] theorem ofList?_toList (value : ByteVec n) : ofList? n value.toList = some value := by
  simp [ofList?, value.length_toList]

end ByteVec

/-- The last `width` base-256 digits of `value`, most significant first. -/
def toBE : Nat → Nat → Bytes
  | 0, _ => []
  | width + 1, value => UInt8.ofNat (value / 256 ^ width) :: toBE width value

variable (width value : Nat)

def toLE : Bytes := (toBE width value).reverse

variable (bytes : Bytes)

def ofBE : Nat := bytes.foldl (fun total byte => total * 256 + byte.toNat) 0

def ofLE : Nat := ofBE bytes.reverse

@[simp] theorem length_toBE : (toBE width value).length = width := by
  induction width with
  | zero => rfl
  | succ width ih => simp [toBE, ih]

private theorem foldl_toBE (width value start : Nat) :
    (toBE width value).foldl (fun total byte => total * 256 + byte.toNat) start =
      start * 256 ^ width + value % 256 ^ width := by
  induction width generalizing start with
  | zero => simp [toBE, Nat.mod_one]
  | succ width ih =>
    have digit : (UInt8.ofNat (value / 256 ^ width)).toNat = value / 256 ^ width % 256 := by
      simp
    have split : value % 256 ^ (width + 1) = value % 256 ^ width + 256 ^ width * (value / 256 ^ width % 256) := by
      rw [pow_succ, Nat.mod_mul]
    simp only [toBE, foldl_cons, ih, digit]
    rw [split, pow_succ]
    ring

theorem ofBE_toBE : ofBE (toBE width value) = value % 256 ^ width := by
  simp [ofBE, foldl_toBE]

theorem ofBE_toBE_of_lt {width value : Nat} (bound : value < 256 ^ width) : ofBE (toBE width value) = value := by
  rw [ofBE_toBE, Nat.mod_eq_of_lt bound]

@[simp] theorem length_toLE : (toLE width value).length = width := by
  simp [toLE]

theorem toLE_inj {width left right : Nat} (fits : left < 256 ^ width) (fit : right < 256 ^ width)
    (same : toLE width left = toLE width right) : left = right := by
  rw [← ofBE_toBE_of_lt fits, ← ofBE_toBE_of_lt fit, reverse_inj.mp same]

theorem ofLE_toLE_of_lt {width value : Nat} (bound : value < 256 ^ width) : ofLE (toLE width value) = value := by
  rw [ofLE, toLE, reverse_reverse, ofBE_toBE_of_lt bound]

private theorem foldl_ofBE (start : Nat) :
    bytes.foldl (fun total byte => total * 256 + byte.toNat) start = start * 256 ^ bytes.length + ofBE bytes := by
  induction bytes generalizing start with
  | nil => simp [ofBE]
  | cons byte rest ih =>
    rw [ofBE, foldl_cons, foldl_cons, ih, ih (0 * 256 + byte.toNat), length_cons, pow_succ]
    ring

theorem ofBE_cons : ofBE (byte :: rest) = byte.toNat * 256 ^ rest.length + ofBE rest := by
  rw [ofBE, foldl_cons, foldl_ofBE, Nat.zero_mul, Nat.zero_add]

theorem ofBE_lt : ofBE bytes < 256 ^ bytes.length := by
  induction bytes with
  | nil => simp [ofBE]
  | cons byte rest ih =>
    have small : byte.toNat + 1 ≤ 256 := byte.toNat_lt
    have room := Nat.mul_le_mul_right (256 ^ rest.length) small
    rw [Nat.add_mul, Nat.one_mul] at room
    rw [ofBE_cons, length_cons, pow_succ, Nat.mul_comm (256 ^ rest.length)]
    omega

/-- The digits above the last `width` do not show. -/
private theorem toBE_add (width high value : Nat) : toBE width (high * 256 ^ width + value) = toBE width value := by
  induction width generalizing high with
  | zero => rfl
  | succ width ih =>
    have digit : (high * 256 ^ (width + 1) + value) / 256 ^ width = high * 256 + value / 256 ^ width := by
      rw [pow_succ, Nat.mul_comm (256 ^ width), ← Nat.mul_assoc, Nat.mul_comm _ (256 ^ width),
        Nat.mul_add_div (Nat.pow_pos (by decide))]
    have rest : high * 256 ^ (width + 1) + value = high * 256 * 256 ^ width + value := by
      ring
    rw [toBE, toBE, digit, rest, ih]
    congr 1
    apply UInt8.toNat_inj.mp
    simp

theorem toBE_mod {width value : Nat} : toBE width (value % 256 ^ width) = toBE width value := by
  rw [← toBE_add width (value / 256 ^ width), Nat.mul_comm, Nat.div_add_mod]

theorem toBE_ofBE : toBE bytes.length (ofBE bytes) = bytes := by
  induction bytes with
  | nil => rfl
  | cons byte rest ih =>
    have top : ofBE (byte :: rest) / 256 ^ rest.length = byte.toNat := by
      rw [ofBE_cons, Nat.mul_comm, Nat.mul_add_div (Nat.pow_pos (by decide)),
        Nat.div_eq_of_lt (ofBE_lt rest), Nat.add_zero]
    rw [length_cons, toBE, top, ofBE_cons, toBE_add, ih, UInt8.ofNat_toNat]

theorem toLE_ofLE : toLE bytes.length (ofLE bytes) = bytes := by
  rw [toLE, ofLE, ← length_reverse, toBE_ofBE, reverse_reverse]

/-- The UTF-8 bytes of a string, and the strings a byte list is valid for. -/
def utf8 (text : String) : Bytes := text.toByteArray.data.toList

def ofUtf8? : Option String := String.fromUTF8? ⟨bytes.toArray⟩

@[simp] theorem ofUtf8?_utf8 : ofUtf8? (utf8 text) = some text := by
  simp [ofUtf8?, utf8, String.fromUTF8?, String.fromUTF8, text.isValidUTF8]

theorem utf8_of_ofUtf8? (found : ofUtf8? bytes = some text) : utf8 text = bytes := by
  unfold ofUtf8? String.fromUTF8? at found
  split at found
  · cases found
    rfl
  · contradiction

@[simp] theorem length_utf8 : (utf8 text).length = text.utf8ByteSize := by
  rfl

/-! Arithmetic that stops at the ends of the range. -/

def saturatingSub (first second : UInt64) : UInt64 := if second ≤ first then first - second else 0

def saturatingMul (first second : UInt64) : UInt64 :=
  if first.toNat * second.toNat < 2 ^ 64 then first * second else 0xffffffffffffffff

end Miasma.Data
