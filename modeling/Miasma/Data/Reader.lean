import Miasma.Data.Bytes

namespace Miasma.Data

open List

/-! A bounds-checked cursor over a byte list.

`Reads reader bytes value` says that `reader` takes exactly `bytes` off the front of any input
and returns `value`. -/

abbrev Reader (α : Type) := StateT Bytes Option α

namespace Reader

/-- A value already at hand, or failure. -/
def lift (value : Option α) : Reader α := fun input => value.map (·, input)

def bytes (count : Nat) : Reader Bytes := fun input =>
  if input.length < count then none else some (input.take count, input.drop count)

def arr (n : Nat) : Reader (ByteVec n) := do
  lift (ByteVec.ofList? n (← bytes n))

def number (width : Nat) : Reader Nat := do
  return ofBE (← bytes width)

def u8 : Reader UInt8 := do return UInt8.ofNat (← number 1)

def u16 : Reader UInt16 := do return UInt16.ofNat (← number 2)

def u32 : Reader UInt32 := do return UInt32.ofNat (← number 4)

def u64 : Reader UInt64 := do return UInt64.ofNat (← number 8)

def text (count : Nat) : Reader String := do
  lift (ofUtf8? (← bytes count))

def times (reader : Reader α) : Nat → Reader (List α)
  | 0 => pure []
  | count + 1 => do
    let first ← reader
    let rest ← times reader count
    return first :: rest

def check (condition : Prop) [Decidable condition] : Reader Unit := if condition then pure () else failure

/-- A list after its length in one byte, or in two. -/
def list8 (least most : Nat) (reader : Reader α) : Reader (List α) := do
  let count ← u8
  check (least ≤ count.toNat ∧ count.toNat ≤ most)
  times reader count.toNat

def list16 (most : Nat) (reader : Reader α) : Reader (List α) := do
  let count ← u16
  check (count.toNat ≤ most)
  times reader count.toNat

/-- Text after its length in one byte, or in two. -/
def text8 (most : Nat) : Reader String := do
  let count ← u8
  check (count.toNat ≤ most)
  text count.toNat

def text16 (least most : Nat) : Reader String := do
  let count ← u16
  check (least ≤ count.toNat ∧ count.toNat ≤ most)
  text count.toNat

def complete (reader : Reader α) (input : Bytes) : Option α := match reader input with
  | some (value, []) => some value
  | _ => none

end Reader

open Reader

def putU8 (value : UInt8) : Bytes := toBE 1 value.toNat

def putU16 (value : UInt16) : Bytes := toBE 2 value.toNat

def putU32 (value : UInt32) : Bytes := toBE 4 value.toNat

def putU64 (value : UInt64) : Bytes := toBE 8 value.toNat

def putList8 (write : α → Bytes) (values : List α) : Bytes :=
  putU8 (UInt8.ofNat values.length) ++ values.flatMap write

def putList16 (write : α → Bytes) (values : List α) : Bytes :=
  putU16 (UInt16.ofNat values.length) ++ values.flatMap write

def putText8 (text : String) : Bytes := putU8 (UInt8.ofNat text.utf8ByteSize) ++ utf8 text

def putText16 (text : String) : Bytes := putU16 (UInt16.ofNat text.utf8ByteSize) ++ utf8 text

def Reads (reader : Reader α) (bytes : Bytes) (value : α) : Prop :=
  ∀ rest, reader (bytes ++ rest) = some (value, rest)

variable {reader : Reader α} {bytes : Bytes} {value : α}

theorem Reads.complete (reads : Reads reader bytes value) : reader.complete bytes = some value := by
  have whole := reads []
  rw [append_nil] at whole
  simp only [Reader.complete, whole]

theorem Reads.pure : Reads (Pure.pure value) [] value := fun _ => rfl

variable {first : Reader α} {next : α → Reader β} {front : Bytes} {result : β}

theorem Reads.bind (head : Reads first front value) (tail : Reads (next value) back result) :
    Reads (first >>= next) (front ++ back) result := by
  intro rest
  change (first (front ++ back ++ rest) >>= fun pair => next pair.1 pair.2) = _
  rw [append_assoc, head]
  exact tail rest

theorem Reads.map (wrap : α → β) (reads : Reads reader bytes value) :
    Reads (reader >>= fun value => Pure.pure (wrap value)) bytes (wrap value) := by
  have read : Reads (reader >>= fun value => Pure.pure (wrap value)) (bytes ++ []) (wrap value) :=
    reads.bind Reads.pure
  rwa [append_nil] at read

theorem Reads.lift {value : Option α} {result : α} (present : value = some result) :
    Reads (Reader.lift value) [] result := by
  intro rest
  simp [Reader.lift, present]

theorem Reads.convert {convert : α → Option β} (reads : Reads reader bytes value)
    (converted : convert value = some result) :
    Reads (reader >>= fun value => Reader.lift (convert value)) bytes result := by
  have read : Reads (reader >>= fun value => Reader.lift (convert value)) (bytes ++ []) result :=
    reads.bind (Reads.lift converted)
  rwa [append_nil] at read

variable {condition : Prop}

theorem Reads.check [Decidable condition] {next : Unit → Reader α} (holds : condition)
    (reads : Reads (next ()) bytes value) :
    Reads (Reader.check condition >>= next) bytes value := by
  intro rest
  rw [Reader.check, if_pos holds]
  exact reads rest

theorem reads_bytes : Reads (Reader.bytes front.length) front front := by
  intro rest
  have enough : ¬ (front ++ rest).length < front.length := by simp
  simp only [Reader.bytes, if_neg enough, take_left, drop_left]

variable {count : Nat}

theorem reads_bytes_of_length (width : front.length = count) : Reads (Reader.bytes count) front front :=
  width ▸ reads_bytes

theorem reads_arr {value : ByteVec n} : Reads (Reader.arr n) value.toList value :=
  (reads_bytes_of_length value.length_toList).convert value.ofList?_toList

theorem reads_number {width value : Nat} (bound : value < 256 ^ width) :
    Reads (Reader.number width) (toBE width value) value := by
  have read := (reads_bytes_of_length (length_toBE width value)).map ofBE
  rwa [ofBE_toBE_of_lt bound] at read

theorem reads_u8 (value : UInt8) : Reads u8 (putU8 value) value := by
  have read : Reads u8 (putU8 value) _ := (reads_number value.toNat_lt).map UInt8.ofNat
  rwa [UInt8.ofNat_toNat] at read

theorem Reader.u8_cons (byte : UInt8) (rest : Bytes) : u8 (byte :: rest) = some (byte, rest) := by
  have read := reads_u8 byte rest
  have single : putU8 byte = [byte] := by simp [putU8, toBE]
  rwa [single] at read

theorem reads_u16 {value : UInt16} : Reads u16 (putU16 value) value := by
  have read : Reads u16 (putU16 value) _ := (reads_number value.toNat_lt).map UInt16.ofNat
  rwa [UInt16.ofNat_toNat] at read

theorem reads_u32 {value : UInt32} : Reads u32 (putU32 value) value := by
  have read : Reads u32 (putU32 value) _ := (reads_number value.toNat_lt).map UInt32.ofNat
  rwa [UInt32.ofNat_toNat] at read

theorem reads_u64 {value : UInt64} : Reads u64 (putU64 value) value := by
  have read : Reads u64 (putU64 value) _ := (reads_number value.toNat_lt).map UInt64.ofNat
  rwa [UInt64.ofNat_toNat] at read

theorem reads_text {value : String} : Reads (text (utf8 value).length) (utf8 value) value :=
  reads_bytes.convert ofUtf8?_utf8

variable {write : α → Bytes}

theorem reads_times (each : ∀ value ∈ values, Reads reader (write value) value) :
    Reads (times reader values.length) (values.flatMap write) values := by
  induction values with
  | nil => exact Reads.pure
  | cons first rest ih =>
    have head := each first (by simp)
    have tail := ih (fun value member => each value (by simp [member]))
    exact head.bind (tail.map (first :: ·))

variable {values : List α}

theorem toNat_ofNat_length8 (bound : values.length < 256) : (UInt8.ofNat values.length).toNat = values.length :=
  Nat.mod_eq_of_lt bound

theorem toNat_ofNat_length16 (bound : values.length < 65536) : (UInt16.ofNat values.length).toNat = values.length :=
  Nat.mod_eq_of_lt bound

variable {least most : Nat}

theorem reads_list8 (lower : least ≤ values.length) (upper : values.length ≤ most) (fits : most < 256)
    (each : ∀ value ∈ values, Reads reader (write value) value) :
    Reads (list8 least most reader) (putList8 write values) values := by
  have count := toNat_ofNat_length8 (Nat.lt_of_le_of_lt upper fits)
  refine (reads_u8 _).bind (Reads.check ?_ ?_)
  · rw [count]
    exact ⟨lower, upper⟩
  · rw [count]
    exact reads_times each

theorem reads_list16 (upper : values.length ≤ most) (fits : most < 65536)
    (each : ∀ value ∈ values, Reads reader (write value) value) :
    Reads (list16 most reader) (putList16 write values) values := by
  have count := toNat_ofNat_length16 (Nat.lt_of_le_of_lt upper fits)
  refine reads_u16.bind (Reads.check ?_ ?_)
  · rwa [count]
  rw [count]
  exact reads_times each

theorem reads_text8 {value : String} (upper : value.utf8ByteSize ≤ most)
    (fits : most < 256) : Reads (Reader.text8 most) (putText8 value) value := by
  have count : (UInt8.ofNat value.utf8ByteSize).toNat = value.utf8ByteSize :=
    Nat.mod_eq_of_lt (Nat.lt_of_le_of_lt upper fits)
  refine (reads_u8 _).bind (Reads.check ?_ ?_)
  · rwa [count]
  rw [count]
  exact reads_text

theorem reads_text16 {value : String} (lower : least ≤ value.utf8ByteSize)
    (upper : value.utf8ByteSize ≤ most) (fits : most < 65536) :
    Reads (Reader.text16 least most) (putText16 value) value := by
  have count : (UInt16.ofNat value.utf8ByteSize).toNat = value.utf8ByteSize :=
    Nat.mod_eq_of_lt (Nat.lt_of_le_of_lt upper fits)
  refine reads_u16.bind (Reads.check ?_ ?_)
  · rw [count]
    exact ⟨lower, upper⟩
  · rw [count]
    exact reads_text

/-! A reader that fails on every input that starts with the given bytes. -/

def Fails (reader : Reader α) (bytes : Bytes) : Prop := ∀ rest, reader (bytes ++ rest) = none

theorem Fails.complete (fails : Fails reader bytes) : reader.complete bytes = none := by
  have whole := fails []
  rw [append_nil] at whole
  simp only [Reader.complete, whole]

theorem Reads.bindFails (head : Reads first front value) (tail : Fails (next value) back) :
    Fails (first >>= next) (front ++ back) := by
  intro rest
  change (first (front ++ back ++ rest) >>= fun pair => next pair.1 pair.2) = _
  rw [append_assoc, head]
  exact tail rest

theorem Fails.check [Decidable condition] {next : Unit → Reader α} (holds : condition) (fails : Fails (next ()) bytes) :
    Fails (Reader.check condition >>= next) bytes := by
  intro rest
  rw [Reader.check, if_pos holds]
  exact fails rest

theorem fails_lift : Fails (Reader.lift none >>= next) bytes := fun _ => rfl

theorem Fails.bind (fails : Fails first front) : Fails (first >>= next) front := by
  intro rest
  change (first (front ++ rest) >>= fun pair => next pair.1 pair.2) = _
  rw [fails]
  rfl

theorem Fails.append (fails : Fails reader front) : Fails reader (front ++ back) := by
  intro rest
  rw [append_assoc]
  exact fails _

theorem fails_text (broken : ofUtf8? front = none) : Fails (text front.length) front := by
  intro rest
  change (Reader.bytes front.length (front ++ rest) >>= fun pair => Reader.lift (ofUtf8? pair.1) pair.2) = _
  rw [reads_bytes]
  change Reader.lift (ofUtf8? front) rest = none
  rw [broken]
  rfl

/-! What a reader can return, whatever its input. -/

variable {input rest : Bytes}

theorem Reader.bind_eq_some : (first >>= next) input = some (result, rest) ↔
    ∃ value mid, first input = some (value, mid) ∧ next value mid = some (result, rest) := by
  change (first input >>= fun pair => next pair.1 pair.2) = _ ↔ _
  simp [Option.bind_eq_some_iff]

def Yields (reader : Reader α) (good : α → Prop) : Prop :=
  ∀ input value rest, reader input = some (value, rest) → good value

variable {good : α → Prop}

theorem Yields.complete (yields : Yields reader good) (read : reader.complete input = some value) : good value := by
  unfold Reader.complete at read
  split at read
  · rename_i result found
    cases read
    exact yields input value [] found
  · contradiction

theorem Yields.bind {good : β → Prop} (each : ∀ value, Yields (next value) good) : Yields (first >>= next) good := by
  intro input value rest read
  obtain ⟨field, mid, -, later⟩ := bind_eq_some.mp read
  exact each field mid value rest later

theorem yields_pure (holds : good value) : Yields (Pure.pure value : Reader α) good := by
  intro input result rest read
  cases read
  exact holds

theorem Yields.check [Decidable condition] {next : Unit → Reader α}
    (each : condition → Yields (next ()) good) : Yields (Reader.check condition >>= next) good := by
  intro input value rest read
  by_cases met : condition
  · rw [Reader.check, if_pos met] at read
    exact each met input value rest read
  · rw [Reader.check, if_neg met] at read
    contradiction

variable {option : Option α}

theorem yields_lift (holds : ∀ value, option = some value → good value) : Yields (Reader.lift option) good := by
  intro input value rest read
  cases option with
  | none => contradiction
  | some held =>
    cases read
    exact holds value rfl

theorem yields_times (yields : Yields reader good) :
    Yields (times reader count) (fun values => ∀ value ∈ values, good value) := by
  induction count with
  | zero =>
    intro input values rest read
    cases read
    simp
  | succ count ih =>
    intro input values rest read
    obtain ⟨first, mid, taken, later⟩ := bind_eq_some.mp read
    obtain ⟨tail, back, more, same⟩ := bind_eq_some.mp later
    cases same
    exact forall_mem_cons.mpr ⟨yields input first mid taken, ih mid tail rest more⟩

theorem yields_list8 (yields : Yields reader good) :
    Yields (list8 least most reader) (fun values => ∀ value ∈ values, good value) :=
  Yields.bind fun _ => Yields.bind fun _ => yields_times yields

/-! A reader that, with `front` before its input, takes exactly what `write` gives for its value. -/

def Spells (reader : Reader α) (front : Bytes) (write : α → Bytes) : Prop :=
  ∀ input value rest, reader input = some (value, rest) → front ++ input = write value ++ rest

theorem Spells.complete (spells : Spells reader [] write)
    (read : reader.complete input = some value) : write value = input := by
  unfold Reader.complete at read
  split at read
  · rename_i result found
    cases read
    have whole := spells input value [] found
    rw [append_nil] at whole
    exact whole.symm
  · contradiction

theorem Spells.pure (same : write value = front) : Spells (Pure.pure value : Reader α) front write := by
  rintro input result rest ⟨⟩
  rw [same]

variable {writes : β → Bytes}

theorem Spells.bind (head : Spells first [] write)
    (tail : ∀ value, Spells (next value) (front ++ write value) writes) : Spells (first >>= next) front writes := by
  intro input result rest read
  obtain ⟨value, mid, taken, later⟩ := bind_eq_some.mp read
  have whole : input = write value ++ mid := head input value mid taken
  rw [whole, ← append_assoc]
  exact tail value mid result rest later

theorem Spells.check [Decidable condition] {next : Unit → Reader α}
    (spells : condition → Spells (next ()) front write) : Spells (Reader.check condition >>= next) front write := by
  intro input value rest read
  by_cases met : condition
  · rw [Reader.check, if_pos met] at read
    exact spells met input value rest read
  · rw [Reader.check, if_neg met] at read
    contradiction

theorem Reader.lift_eq_some : Reader.lift option input = some (value, rest) ↔ option = some value ∧ input = rest := by
  cases option <;> simp [Reader.lift]

theorem spells_lift (each : ∀ value, option = some value → write value = front) :
    Spells (Reader.lift option) front write := by
  intro input value rest read
  obtain ⟨found, rfl⟩ := lift_eq_some.mp read
  rw [each value found]

theorem Spells.lift (each : ∀ value, option = some value → Spells (next value) front writes) :
    Spells (Reader.lift option >>= next) front writes := by
  intro input result rest read
  obtain ⟨value, mid, taken, later⟩ := bind_eq_some.mp read
  obtain ⟨found, rfl⟩ := lift_eq_some.mp taken
  exact each value found input result rest later

theorem Spells.take {next : Bytes → Reader α}
    (each : ∀ taken, taken.length = count → Spells (next taken) (front ++ taken) write) :
    Spells (Reader.bytes count >>= next) front write := by
  intro input result rest read
  obtain ⟨taken, mid, found, later⟩ := bind_eq_some.mp read
  unfold Reader.bytes at found
  split at found
  · contradiction
  cases found
  have whole := each (input.take count) (by simp; omega) _ result rest later
  rwa [append_assoc, take_append_drop] at whole

theorem spells_arr : Spells (Reader.arr n) [] ByteVec.toList := .take fun taken _ => spells_lift fun value found => by
  unfold ByteVec.ofList? at found
  split at found
  · cases found
    rfl
  · contradiction

theorem spells_number : Spells (Reader.number width) [] (toBE width) :=
  .take fun taken length => .pure (length ▸ toBE_ofBE taken)

theorem spells_u8 : Spells u8 [] putU8 := spells_number.bind fun _ => .pure toBE_mod

theorem spells_u16 : Spells u16 [] putU16 := spells_number.bind fun _ => .pure toBE_mod

theorem spells_u32 : Spells u32 [] putU32 := spells_number.bind fun _ => .pure toBE_mod

theorem spells_u64 : Spells u64 [] putU64 := spells_number.bind fun _ => .pure toBE_mod

theorem spells_text8 : Spells (Reader.text8 most) [] putText8 :=
  spells_u8.bind fun count => .check fun _ => (.take fun taken length => spells_lift fun text found => by
    rw [putText8, ← length_utf8, utf8_of_ofUtf8? taken found, length, UInt8.ofNat_toNat]
    rfl)

theorem spells_text16 : Spells (Reader.text16 least most) [] putText16 :=
  spells_u16.bind fun count => .check fun _ => (.take fun taken length => spells_lift fun text found => by
    rw [putText16, ← length_utf8, utf8_of_ofUtf8? taken found, length, UInt16.ofNat_toNat]
    rfl)

theorem Spells.times (spells : Spells reader [] write)
    (read : times reader count input = some (values, rest)) :
    values.length = count ∧ input = values.flatMap write ++ rest := by
  induction count generalizing input values with
  | zero =>
    cases read
    exact ⟨rfl, rfl⟩
  | succ count ih =>
    obtain ⟨first, mid, taken, later⟩ := bind_eq_some.mp read
    obtain ⟨tail, back, more, same⟩ := bind_eq_some.mp later
    cases same
    obtain ⟨length, whole⟩ := ih more
    have head : input = write first ++ mid := spells input first mid taken
    rw [head, whole, flatMap_cons, append_assoc, length_cons, length]
    exact ⟨rfl, rfl⟩

theorem spells_list8 (spells : Spells reader [] write) : Spells (list8 least most reader) [] (putList8 write) := by
  refine spells_u8.bind fun count => .check fun _ input values rest read => ?_
  obtain ⟨length, whole⟩ := spells.times read
  rw [putList8, length, UInt8.ofNat_toNat, whole, append_assoc]
  rfl

end Miasma.Data
