import Miasma.State.Written
import Miasma.Data.Run

namespace Miasma.State

open Data List LogWriter Lengths

/-! Logs that are written, synced, cut off by crashes and continued.  A crash keeps every synced
byte and tears what was written since. -/

/-- What a crash does to the bytes that were not synced. -/
inductive Loss where
  | cut (keep : Nat)
  | zeros (position : Nat)

def Loss.of (loss : Loss) (bytes : Bytes) : Bytes := match loss with
  | .cut keep => bytes.take keep
  | .zeros position => zeroFrom position bytes

structure LogState where
  file : Bytes
  synced : Nat
  writer : Option LogWriter
  /-- The records appended to the log as it was last continued. -/
  appended : List Bytes
  /-- How many records were in the log at the last sync. -/
  durable : Nat

inductive LogEvent where
  | openAppend (salt : B16)
  | append (random : B16) (plain : Bytes)
  | sync
  | close
  | crash (loss : Loss)

namespace LogState

def empty : LogState := ⟨[], 0, none, [], 0⟩

variable (s : LogState)

/-- Cutting a file is followed by a sync; starting one is not. -/
def continued (left : Bytes) (writer : LogWriter) : LogState where
  file := left
  synced := if s.file.length < logHeaderLen then 0
    else if left.length < s.file.length then left.length else s.synced
  writer := some writer
  appended := s.appended.take writer.seq
  durable := s.durable

def step (C : Ciphers) (keys : StateKeys) (label : Label) : LogEvent → Option LogState
  | .openAppend salt =>
    match openAppend C keys label salt (some s.file) with
    | .error _ => some { s with writer := none }
    | .ok (left, writer) => some (s.continued left writer)
  | .append random plain =>
    match s.writer with
    | none => none
    | some writer =>
      match writer.append C random plain s.file with
      | .error _ => some s
      | .ok (file, writer) =>
        some { s with file, writer := some writer, appended := s.appended ++ [plain] }
  | .sync =>
    match s.writer with
    | none => none
    | some _ => some { s with synced := s.file.length, durable := s.appended.length }
  | .close => some { s with writer := none }
  | .crash loss =>
    let left := s.file.take s.synced ++ loss.of (s.file.drop s.synced)
    some { s with file := left, synced := left.length, writer := none }

/-- Where the records end, each with its length, its nonce and its tag. -/
def endOf (records : List Bytes) : Nat :=
  logHeaderLen + (records.map fun plain => 4 + minBody + plain.length).sum

/-- The ways a crash tears a log that its readers know: it cuts off the end, though not
inside the header; it leaves zeros from inside the salt of the header or from where a record
starts; or it leaves zeros inside the last record, behind its length, when there is one before it. -/
def Tears (loss : Loss) : Prop := match loss with
  | .cut keep => s.file.length ≤ s.synced + keep ∨ s.synced + keep = 0 ∨ logHeaderLen ≤ s.synced + keep
  | .zeros position =>
    s.file.length ≤ s.synced + position ∨
      logHeaderLen - 16 ≤ s.synced + position ∧ s.synced + position < logHeaderLen ∨
      (∃ count ≤ s.appended.length, s.synced + position = endOf (s.appended.take count)) ∨
      2 ≤ s.appended.length ∧ endOf s.appended.dropLast + 4 ≤ s.synced + position

instance (s : LogState) : (loss : Loss) → Decidable (s.Tears loss)
  | .cut _ => inferInstanceAs (Decidable (_ ∨ _))
  | .zeros _ => inferInstanceAs (Decidable (_ ∨ _))

def Allowed (s : LogState) : LogEvent → Prop
  | .crash loss => s.Tears loss
  | _ => True

instance (s : LogState) : (event : LogEvent) → Decidable (s.Allowed event)
  | .crash loss => inferInstanceAs (Decidable (s.Tears loss))
  | .openAppend _ | .append _ _ | .sync | .close => inferInstanceAs (Decidable True)

/-- What is behind the records a read returns. -/
def Stops (C : Ciphers) (core : Core) (count : Nat) (tail : Bytes) : Prop :=
  core.lengths.head tail = .ended ∨ core.lengths.head tail = .torn ∨
    ∃ body, tail = frame body ∧ core.lengths.Within body ∧ core.openBody C count body = none ∧ 0 < count

/-- A log with a header: the records that are read, the bodies they were sealed to and what
is behind them. -/
structure Holds (C : Ciphers) (keys : StateKeys) (label : Label) (s : LogState) (core : Core)
    (records bodies : List Bytes) (tail : Bytes) : Prop where
  of : core.Of C keys label
  file : s.file = core.header ++ frames bodies ++ tail
  sealed : core.Sealed C 0 records bodies
  stops : Stops C core records.length tail
  known : records <+: s.appended
  durable : s.durable ≤ records.length
  synced : s.synced ≤ s.file.length
  kept : 0 < s.durable → logHeaderLen + (frames (bodies.take s.durable)).length ≤ s.synced
  /-- Only a log that is being written has bytes that are not synced. -/
  active : s.synced < s.file.length → tail = [] ∧ records = s.appended
  writer : ∀ w, s.writer = some w → tail = [] ∧ records = s.appended ∧ w.core = core ∧ w.seq = records.length

def Sound (C : Ciphers) (keys : StateKeys) (label : Label) (s : LogState) : Prop :=
  (s.file = [] ∧ s.synced = 0 ∧ s.writer = none ∧ s.durable = 0) ∨
    ∃ core records bodies tail, Holds C keys label s core records bodies tail

variable {s} {C : Ciphers} {keys : StateKeys} {label : Label} {core : Core}
  {records bodies : List Bytes} {tail : Bytes} {seq : Nat}

theorem head_ended (ended : core.lengths.head tail = .ended) : tail = [] := by
  by_contra some
  have size : tail.length ≠ 0 := fun none => some (length_eq_zero_iff.mp none)
  simp only [Lengths.head, if_neg size] at ended
  split at ended
  · cases ended
  split at ended
  all_goals split at ended <;> cases ended

theorem fullRead_of_stops (faithful : C.Faithful) (of : core.Of C keys label)
    (sealed : core.Sealed C 0 records bodies) (stops : Stops C core records.length tail) :
    ∃ torn, fullRead C keys label (core.header ++ frames bodies ++ tail) =
      .ok ⟨records, logHeaderLen + (frames bodies).length, torn⟩ := by
  rw [append_assoc]
  rcases stops with ended | torn | ⟨body, rfl, within, closed, some⟩
  · rw [head_ended ended, append_nil]
    exact ⟨false, fullRead_written faithful of sealed⟩
  · have laid : core.lengths.Laid (frames bodies ++ tail) bodies tail :=
      laid_frames (sealed.within faithful) (by simp [torn])
    have read := sealed.readBodies_append faithful tail logHeaderLen []
    rw [append_nil] at read
    refine ⟨true, ?_⟩
    rw [fullRead_header of laid, read]
    simp [Core.readBodies, torn, Except.map]
  · have all : ∀ other ∈ bodies ++ [body], core.lengths.Within other :=
      forall_mem_snoc (sealed.within faithful) within
    have laid : core.lengths.Laid (frames (bodies ++ [body]) ++ []) (bodies ++ [body]) [] :=
      Lengths.laid_frames all (by simp [Lengths.head])
    rw [frames_append, append_nil, frames_cons, frames_nil, append_nil] at laid
    refine ⟨true, ?_⟩
    rw [fullRead_header of laid, sealed.readBodies_append faithful [] logHeaderLen [body]]
    simp [Core.readBodies, closed, some, Except.map]

/-! ## What each event keeps -/

/-- Zeros in the body of a record that was sealed do not pass for the record. -/
def Unforged (C : Ciphers) : Prop :=
  ∀ (core : Core) (seq : Nat) (plain body : Bytes) (position : Nat), core.Seals C seq plain body →
    zeroFrom position body ≠ body → core.openBody C seq (zeroFrom position body) = none

theorem length_frames_take_le (bodies : List Bytes) (count : Nat) :
    (frames (bodies.take count)).length ≤ (frames bodies).length := by
  have whole := congrArg frames (bodies.take_append_drop count)
  rw [frames_append] at whole
  rw [← whole, length_append]
  omega

namespace Holds

theorem ne_nil (holds : Holds C keys label s core records bodies tail) : s.file ≠ [] := by
  intro none
  have size := congrArg length (holds.file.symm.trans none)
  have header : 0 < logHeaderLen := by decide
  simp at size
  omega

section

variable (faithful : C.Faithful) (holds : Holds C keys label s core records bodies tail)
include faithful holds

theorem fullRead :
    ∃ torn, State.fullRead C keys label s.file = .ok ⟨records, logHeaderLen + (frames bodies).length, torn⟩ := by
  rw [holds.file]
  exact fullRead_of_stops faithful holds.of holds.sealed holds.stops

theorem openAppend (salt : B16) : ∃ last, openAppend C keys label salt (some s.file) =
      .ok (core.header ++ frames bodies, ⟨core, records.length, last⟩) := by
  obtain ⟨torn, read⟩ := holds.fullRead faithful
  obtain ⟨writer, continued, count, last, drawn, parsed, derived⟩ := openAppend_of_fullRead read holds.ne_nil salt
  have kept : s.file.take (logHeaderLen + (frames bodies).length) = core.header ++ frames bodies := by
    rw [holds.file]
    exact take_left' (by simp)
  have header : s.file.take logHeaderLen = core.header := by
    rw [holds.file, append_assoc]
    exact take_left' (length_header core)
  obtain ⟨rfl, of⟩ := holds.of
  rw [header, parseHeader_header] at parsed
  cases parsed
  cases derived.symm.trans of
  refine ⟨writer.last, ?_⟩
  rw [continued, kept]
  cases writer
  cases count
  rfl

end

end Holds

variable {next : LogState}

theorem sound_openAppend (faithful : C.Faithful) (sound : Sound C keys label s)
    (stepped : s.step C keys label (.openAppend salt) = some next) : Sound C keys label next := by
  rcases sound with ⟨empty, synced, writer, durable⟩ | ⟨core, records, bodies, tail, holds⟩
  · simp only [step, empty] at stepped
    cases derived : Core.new C keys label salt with
    | error e =>
      have refused : openAppend C keys label salt (some []) = .error e := by
        simp only [openAppend, createFile, derived]
        rfl
      rw [refused] at stepped
      cases stepped
      exact .inl ⟨rfl, synced, rfl, durable⟩
    | ok core =>
      have created : openAppend C keys label salt (some []) = .ok (core.header, ⟨core, 0, logHeaderLen⟩) := by
        simp only [openAppend, createFile, derived]
        rfl
      rw [created] at stepped
      cases stepped
      refine .inr ⟨core, [], [], [], ?_⟩
      exact {
        of := Core.of_new derived
        file := by simp [continued]
        sealed := .nil
        stops := .inl (by simp [Lengths.head])
        known := nil_prefix
        durable := by simp [continued, durable]
        synced := by simp [continued, empty, show 0 < logHeaderLen by decide]
        kept := fun some => by simp [continued, durable] at some
        active := fun _ => ⟨rfl, by simp [continued]⟩
        writer := by
          rintro w ⟨⟩
          exact ⟨rfl, by simp [continued], rfl, rfl⟩ }
  · obtain ⟨last, opened⟩ := holds.openAppend faithful salt
    simp only [step, opened] at stepped
    cases stepped
    have same : s.appended.take records.length = records := (prefix_iff_eq_take.mp holds.known).symm
    have long : ¬ s.file.length < logHeaderLen := by
      rw [holds.file]
      simp
    refine .inr ⟨core, records, bodies, [], ?_⟩
    exact { holds with
      file := by simp [continued]
      stops := .inl (by simp [Lengths.head])
      known := by simp [continued, same]
      synced := by
        have before := holds.synced
        simp only [continued, if_neg long]
        split
        · exact Nat.le_refl _
        · omega
      kept := fun some => by
        have before := holds.kept some
        simp only [continued, if_neg long]
        split
        · have fewer := length_frames_take_le bodies s.durable
          simp
          omega
        · exact before
      active := fun _ => ⟨rfl, same.symm⟩
      writer := by
        rintro w ⟨⟩
        exact ⟨rfl, same.symm, rfl, rfl⟩ }

theorem sound_append (faithful : C.Faithful) (sound : Sound C keys label s)
    (stepped : s.step C keys label (.append random plain) = some next) : Sound C keys label next := by
  cases open_ : s.writer with
  | none => simp [step, open_] at stepped
  | some writer =>
    rcases sound with ⟨_, _, closed, _⟩ | ⟨core, records, bodies, tail, holds⟩
    · rw [open_] at closed
      cases closed
    obtain ⟨rfl, whole, rfl, count⟩ := holds.writer writer open_
    simp only [step, open_] at stepped
    cases appended : writer.append C random plain s.file with
    | error =>
      rw [appended] at stepped
      cases stepped
      exact .inr ⟨writer.core, records, bodies, [], holds⟩
    | ok result =>
      obtain ⟨left, later⟩ := result
      rw [appended] at stepped
      cases stepped
      obtain ⟨body, seals, rfl, rfl⟩ := append_ok faithful appended
      have size := holds.sealed.length
      refine .inr ⟨writer.core, records ++ [plain], bodies ++ [body], [], ?_⟩
      exact {
        of := holds.of
        file := by
          simp only [holds.file, frames_append, frames_cons, frames_nil, append_nil, append_assoc]
        sealed := holds.sealed.concat (by rwa [Nat.zero_add, ← count])
        stops := .inl (by simp [Lengths.head])
        known := by simp [whole]
        durable := by
          have before := holds.durable
          simp
          omega
        synced := by
          have before := holds.synced
          simp
          omega
        kept := fun some => by
          have before := holds.kept some
          have fewer := holds.durable
          change logHeaderLen + (frames ((bodies ++ [body]).take s.durable)).length ≤ s.synced
          rwa [take_append_of_le_length (by omega)]
        active := fun _ => ⟨rfl, by rw [whole]⟩
        writer := by
          rintro w ⟨⟩
          exact ⟨rfl, by rw [whole], rfl, by simp [count]⟩ }

theorem sound_sync (sound : Sound C keys label s)
    (stepped : s.step C keys label .sync = some next) : Sound C keys label next := by
  cases open_ : s.writer with
  | none => simp [step, open_] at stepped
  | some writer =>
    rcases sound with ⟨_, _, closed, _⟩ | ⟨core, records, bodies, tail, holds⟩
    · rw [open_] at closed
      cases closed
    obtain ⟨rfl, whole, rfl, count⟩ := holds.writer writer open_
    simp only [step, open_] at stepped
    cases stepped
    have size := holds.sealed.length
    refine .inr ⟨writer.core, records, bodies, [], ?_⟩
    exact { holds with
      durable := by rw [whole]
      synced := Nat.le_refl _
      kept := fun _ => by
        rw [← whole, ← size, take_length, holds.file]
        simp
      active := fun _ => ⟨rfl, whole⟩
      writer := by
        rintro w ⟨⟩
        exact ⟨rfl, whole, rfl, count⟩ }

theorem sound_close (sound : Sound C keys label s) : Sound C keys label { s with writer := none } := by
  rcases sound with ⟨empty, synced, _, durable⟩ | ⟨core, records, bodies, tail, holds⟩
  · exact .inl ⟨empty, synced, rfl, durable⟩
  · exact .inr ⟨core, records, bodies, tail, { holds with writer := by rintro w ⟨⟩ }⟩

/-! ## What a crash keeps -/

theorem length_frames_take_lt (less : fewer < more) (inside : more ≤ bodies.length) :
    (frames (bodies.take fewer)).length < (frames (bodies.take more)).length := by
  have whole := congrArg frames ((bodies.take more).take_append_drop fewer)
  rw [frames_append, take_take, Nat.min_eq_left (Nat.le_of_lt less)] at whole
  rw [← whole, length_append]
  cases rest : (bodies.take more).drop fewer with
  | nil =>
    have size := drop_eq_nil_iff.mp rest
    rw [length_take] at size
    omega
  | cons body others => simp

theorem endOf_sealed (faithful : C.Faithful) (sealed : core.Sealed C seq records bodies) :
    endOf records = logHeaderLen + (frames bodies).length := by
  rw [endOf]
  congr 1
  induction sealed with
  | nil => rfl
  | cons first rest ih =>
    have size := first.length faithful
    simp only [map_cons, sum_cons, ih, frames_cons, length_append, length_frame, size]
    omega

namespace Holds

variable {left : Bytes}

theorem of_crash (rest : Bytes) (of : core.Of C keys label)
    (known : fewer <+: s.appended) (sealed : core.Sealed C 0 fewer others)
    (stops : Stops C core fewer.length rest) (durable : s.durable ≤ fewer.length)
    (file : left = core.header ++ frames others ++ rest) :
    Sound C keys label { s with file := left, synced := left.length, writer := none } := by
  refine .inr ⟨core, fewer, others, rest, ?_⟩
  exact {
    of, known, file, sealed, stops, durable
    synced := Nat.le_refl _
    kept := fun _ => by
      have less := length_frames_take_le others s.durable
      rw [file]
      simp
      omega
    active := fun less => absurd less (Nat.lt_irrefl _)
    writer := by rintro w ⟨⟩ }

theorem unharmed (holds : Holds C keys label s core records bodies tail) :
    Sound C keys label { s with synced := s.file.length, writer := none } :=
  of_crash tail holds.of holds.known holds.sealed holds.stops holds.durable holds.file

theorem cut (faithful : C.Faithful) (holds : Holds C keys label s core records bodies tail)
    (tears : s.Tears (.cut keep)) (taken : left = s.file.take (s.synced + keep)) :
    Sound C keys label { s with file := left, synced := left.length, writer := none } := by
  by_cases all : s.file.length ≤ s.synced + keep
  · rw [taken, take_of_length_le all]
    exact holds.unharmed
  obtain ⟨rfl, whole⟩ := holds.active (by omega)
  have size := holds.sealed.length
  rcases tears.resolve_left all with none | some
  · have durable : s.durable = 0 := by
      by_contra positive
      have kept := holds.kept (Nat.pos_of_ne_zero positive)
      have header : 0 < logHeaderLen := by decide
      omega
    rw [taken, none]
    exact .inl ⟨rfl, rfl, rfl, durable⟩
  obtain ⟨kept, part, inside, same, stops, most⟩ :=
    take_frames (holds.sealed.within faithful) (s.synced + keep - logHeaderLen)
  have first := prefix_iff_eq_take.mp inside
  have sealed := holds.sealed.take kept.length
  rw [← first] at sealed
  refine of_crash part holds.of (( take_prefix _ _).trans holds.known) sealed ?_ ?_ ?_
  · rcases stops with ended | torn
    · exact .inl ended
    · exact .inr (.inl torn)
  · rw [← sealed.length]
    by_cases positive : 0 < s.durable
    · have long := holds.kept positive
      have fewer := holds.durable
      have within := (most _ ( take_prefix s.durable bodies) (by omega)).length_le
      rw [length_take] at within
      omega
    · omega
  · rw [taken, holds.file, append_nil, take_append, take_of_length_le (by simpa using some),
      length_header, same, append_assoc]

/-- Zeros from inside the salt on: a log of another salt, without records. -/
theorem resalted (holds : Holds C keys label s core records bodies []) (salted : logHeaderLen - 16 ≤ position)
    (short : position < logHeaderLen) (zeroed : left = zeroFrom position s.file) (unsynced : s.synced < logHeaderLen) :
    Sound C keys label { s with file := left, synced := left.length, writer := none } := by
  obtain ⟨rfl, derived⟩ := holds.of
  obtain ⟨docKey, found, -⟩ := bind_ok_iff.mp derived
  let salt : B16 := ⟨zeroFrom (position - 6) core.salt.toList, by simp [core.salt.length_toList]⟩
  have other : Core.new C keys core.label salt = .ok ⟨C.deriveStateLogKey docKey salt, core.label, salt⟩ := by
    rw [Core.new, found]
    rfl
  have durable : s.durable = 0 := by
    by_contra positive
    have kept := holds.kept (Nat.pos_of_ne_zero positive)
    omega
  refine of_crash (replicate (frames bodies).length 0) (Core.of_new other) nil_prefix .nil ?_ (by simp [durable]) ?_
  · rcases core.lengths.head_zeros (frames bodies).length with ended | torn
    · exact .inl ended
    · exact .inr (.inl torn)
  · have front : (logMagic ++ [logVersion, core.label.id]).length = 6 := rfl
    rw [zeroed, holds.file, append_nil, Core.header, append_assoc, zeroFrom_append _ _ _ (by rw [front]; exact salted),
      front, zeroFrom_append_of_le _ _ _ (by rw [core.salt.length_toList]; simp only [logHeaderLen] at short; omega)]
    simp [Core.header, salt]

theorem zeros (faithful : C.Faithful) (unforged : Unforged C)
    (holds : Holds C keys label s core records bodies tail) (tears : s.Tears (.zeros position))
    (zeroed : left = zeroFrom (s.synced + position) s.file) :
    Sound C keys label { s with file := left, synced := left.length, writer := none } := by
  by_cases all : s.file.length ≤ s.synced + position
  · rw [zeroed, zeroFrom_of_le all]
    exact holds.unharmed
  obtain ⟨rfl, whole⟩ := holds.active (by omega)
  have size := holds.sealed.length
  have total := congrArg length holds.file
  rw [append_nil, length_append, length_header] at total
  rcases tears.resolve_left all with ⟨salted, short⟩ | ⟨count, inside, starts⟩ | ⟨two, starts⟩
  · exact holds.resalted salted short zeroed (by omega)
  · -- Zeros from the start of a record on: the records before it are left.
    rw [← whole] at inside starts
    have sealed := holds.sealed.take count
    have starts := starts.trans (endOf_sealed faithful sealed)
    have file : s.file = core.header ++ frames (bodies.take count) ++ frames (bodies.drop count) := by
      rw [holds.file, append_nil, append_assoc, ← frames_append, take_append_drop]
    refine of_crash (replicate (frames (bodies.drop count)).length 0) holds.of (( take_prefix _ _).trans holds.known)
      sealed ?_ ?_ ?_
    · rcases core.lengths.head_zeros (frames (bodies.drop count)).length with ended | torn
      · exact .inl ended
      · exact .inr (.inl torn)
    · rw [length_take, Nat.min_eq_left inside]
      by_contra more
      have positive : 0 < s.durable := by omega
      have kept := holds.kept positive
      have longer := length_frames_take_lt (Nat.not_le.mp more) (by rw [size]; exact holds.durable)
      omega
    · rw [zeroed, file, zeroFrom_append _ _ _ (by simp; omega)]
      have none : s.synced + position - (core.header ++ frames (bodies.take count)).length = 0 := by
        simp
        omega
      rw [none]
      simp [zeroFrom]
  · -- Zeros inside the last record: it no longer opens, or nothing was lost.
    rw [← whole] at two starts
    rcases bodies.eq_nil_or_concat' with rfl | ⟨init, body, rfl⟩
    · simp at size
      omega
    obtain ⟨more, last, rfl⟩ : ∃ more last, records = more ++ [last] :=
      (records.eq_nil_or_concat').resolve_left fun none => by simp [none] at two
    obtain ⟨before, seals⟩ := holds.sealed.last
    rw [dropLast_concat, endOf_sealed faithful before] at starts
    rw [Nat.zero_add] at seals
    have file : s.file = core.header ++ frames init ++ frame body := by
      rw [holds.file]
      simp
    have torn : left = core.header ++ frames init ++
        frame (zeroFrom (s.synced + position - (core.header ++ frames init).length - 4) body) := by
      rw [zeroed, file, zeroFrom_append _ _ _ (by simp; omega), frame, zeroFrom_append _ _ _ (by simp; omega),
        length_toLE, frame, length_zeroFrom]
    by_cases same : zeroFrom (s.synced + position - (core.header ++ frames init).length - 4) body = body
    · rw [same, ← file] at torn
      rw [torn]
      exact holds.unharmed
    refine of_crash _ holds.of ((prefix_append _ _).trans holds.known) before (.inr (.inr ⟨_, rfl, ?_, ?_, ?_⟩)) ?_ torn
    · have within := seals.within faithful
      simpa [Within] using within
    · exact unforged core _ _ _ _ seals same
    · simp at two
      omega
    by_contra longer
    have bound := holds.durable
    have kept := holds.kept (by omega)
    rw [take_of_length_le (by rw [size]; simp at bound ⊢; omega)] at kept
    omega

end Holds

theorem sound_crash (faithful : C.Faithful) (unforged : Unforged C) (sound : Sound C keys label s)
    (tears : s.Tears loss) (stepped : s.step C keys label (.crash loss) = some next) :
    Sound C keys label next := by
  cases stepped
  rcases sound with ⟨empty, synced, _, durable⟩ | ⟨core, records, bodies, tail, holds⟩
  · have lost : s.file.take s.synced ++ loss.of (s.file.drop s.synced) = [] := by
      cases loss <;> simp [empty, Loss.of, zeroFrom]
    rw [lost]
    exact .inl ⟨rfl, rfl, rfl, durable⟩
  have synced := holds.synced
  cases loss with
  | cut => exact holds.cut faithful tears take_add.symm
  | zeros position =>
    refine holds.zeros faithful unforged tears ?_
    have whole := zeroFrom_append (s.synced + position) (s.file.take s.synced)
      (s.file.drop s.synced) (by rw [length_take]; omega)
    rw [take_append_drop, length_take, Nat.min_eq_left synced, Nat.add_sub_cancel_left] at whole
    exact whole.symm

theorem sound_step (faithful : C.Faithful) (unforged : Unforged C) (sound : Sound C keys label s)
    (allowed : s.Allowed event) (stepped : s.step C keys label event = some next) :
    Sound C keys label next := by
  cases event with
  | openAppend => exact sound_openAppend faithful sound stepped
  | append => exact sound_append faithful sound stepped
  | sync => exact sound_sync sound stepped
  | close =>
    cases stepped
    exact sound_close sound
  | crash => exact sound_crash faithful unforged sound allowed stepped

end LogState

open LogState

/-- A log survives the crashes that tear its end as `Tears` says.

A full read returns a prefix of the appended records that has all that were synced, and all of
them while the log is being written; continuing the log goes on with exactly these. -/
theorem log_survives_torn_ends {C : Ciphers} (faithful : C.Faithful) (unforged : Unforged C)
    (stateKey : B32) (label : Label) {events : List LogEvent} {s : LogState}
    (torn : Along (fun s => LogState.step s C ⟨some stateKey⟩ label) Allowed .empty events)
    (ran : run (fun s => LogState.step s C ⟨some stateKey⟩ label) .empty events = some s) :
    ∃ read, fullRead C ⟨some stateKey⟩ label s.file = .ok read ∧ read.records <+: s.appended ∧
      s.durable ≤ read.records.length ∧ (s.writer.isSome → read.records = s.appended) ∧
      ∀ salt, ∃ left writer, openAppend C ⟨some stateKey⟩ label salt (some s.file) =
          .ok (left, writer) ∧ writer.seq = read.records.length ∧
        ∃ again, fullRead C ⟨some stateKey⟩ label left = .ok again ∧ again.records = read.records := by
  have start : Sound C ⟨some stateKey⟩ label .empty := .inl ⟨rfl, rfl, rfl, rfl⟩
  have sound : Sound C ⟨some stateKey⟩ label s := invariant_of_run (sound_step faithful unforged) start torn ran
  rcases sound with ⟨empty, _, closed, durable⟩ | ⟨core, records, bodies, tail, holds⟩
  · refine ⟨⟨[], 0, false⟩, by rw [empty]; rfl, nil_prefix, by simp [durable], by simp [closed], ?_⟩
    intro salt
    obtain ⟨core, derived⟩ : ∃ core, Core.new C ⟨some stateKey⟩ label salt = .ok core := ⟨_, rfl⟩
    refine ⟨core.header, ⟨core, 0, logHeaderLen⟩, ?_, rfl, ?_⟩
    · simp only [empty, openAppend, createFile, derived]
      rfl
    have read := fullRead_written faithful (Core.of_new derived) .nil
    rw [frames_nil, append_nil] at read
    exact ⟨_, read, rfl⟩
  · obtain ⟨torn, read⟩ := holds.fullRead faithful
    refine ⟨_, read, holds.known, holds.durable, ?_, ?_⟩
    · intro writing
      obtain ⟨writer, open_⟩ := Option.isSome_iff_exists.mp writing
      exact (holds.writer writer open_).2.1
    · intro salt
      obtain ⟨last, opened⟩ := holds.openAppend faithful salt
      exact ⟨_, _, opened, rfl, _, fullRead_written faithful holds.of holds.sealed, rfl⟩

/-! ## Two records behind a synced one -/

namespace Torn

def key : B32 := .fill 32 7

/-- One record is synced, two more are not. -/
def appends : List LogEvent :=
  [.openAppend (.fill 16 3), .append (.fill 16 9) [1], .sync, .append (.fill 16 9) [2], .append (.fill 16 9) [3]]

def after (events : List LogEvent) : Option LogState :=
  run (fun s => LogState.step s Ciphers.plain ⟨some key⟩ .contacts) .empty events

/-- Zeros from inside the first of the two on: the log is no longer read. -/
theorem zeros_across_records_are_damage : ∃ s, after (appends ++ [.crash (.zeros 10)]) = some s ∧
      fullRead Ciphers.plain ⟨some key⟩ .contacts s.file = .error .authentication := by
  have found : (after (appends ++ [.crash (.zeros 10)])).map
      (fun s => fullRead Ciphers.plain ⟨some key⟩ .contacts s.file) = some (.error .authentication) := by
    decide +kernel
  exact Option.map_eq_some_iff.mp found

theorem plain_faithful : Ciphers.plain.Faithful := by
  intro key nonce aad plain ciphertext tag sealed
  cases sealed
  exact ⟨rfl, rfl⟩

theorem plain_unforged : Unforged Ciphers.plain := by
  intro core seq plain body position seals changed
  have size := seals.length plain_faithful
  have inside : position < body.length := by
    by_contra past
    exact changed (zeroFrom_of_le (Nat.not_lt.mp past))
  -- The last byte is zero now, and no byte of a tag is.
  have zero : (zeroFrom position body)[body.length - 1]? = some 0 := by
    rw [zeroFrom, getElem?_append_right (by rw [length_take]; omega), getElem?_replicate,
      if_pos (by rw [length_take]; omega)]
  have tag : (zeroFrom position body).drop ((zeroFrom position body).length - tagLen) ≠ replicate tagLen 1 := by
    intro same
    have last := congrArg (·[tagLen - 1]?) same
    have behind : body.length - tagLen + (tagLen - 1) = body.length - 1 := by
      simp only [minBody, tagLen] at size ⊢
      omega
    simp only [getElem?_drop, length_zeroFrom, behind, zero] at last
    cases last
  simp only [Core.openBody]
  split
  · rfl
  split
  · exact if_neg tag
  · rfl

/-- Zeros inside the second of the two: it is dropped, and the log goes on behind the first. -/
theorem last_record_torn : ∃ s, after (appends ++ [.crash (.zeros 60)]) = some s ∧ s.durable = 1 ∧
      ∃ read, fullRead Ciphers.plain ⟨some key⟩ .contacts s.file = .ok read ∧
        read.records <+: s.appended ∧ s.durable ≤ read.records.length := by
  obtain ⟨s, ran, one⟩ : ∃ s, after (appends ++ [.crash (.zeros 60)]) = some s ∧ s.durable = 1 :=
    Option.map_eq_some_iff.mp (by decide +kernel)
  obtain ⟨read, reads, known, durable, _⟩ := log_survives_torn_ends plain_faithful plain_unforged key .contacts
    (by decide +kernel) ran
  exact ⟨s, ran, one, read, reads, known, durable⟩

end Torn

end Miasma.State
