import Miasma.State.Log
import Miasma.Data.Framed
import Mathlib.Data.List.Basic

namespace Miasma.State

open Data List

/-! What the two walks over a log find: each is a function of the bodies and of the tail. -/

namespace Core

variable (core : Core)

def lengths : Lengths where
  least := minBody
  most := core.maxBody
  positive := by decide
  fits := by
    have bound := core.label.maxRecordBytes_le
    simp only [maxBody, nonceLen, tagLen]
    omega

/-- Reading the bodies from number `seq` on, the first of them at `offset`. -/
def readBodies (C : Ciphers) (tail : Bytes) : Nat → Nat → List Bytes → Except StateError FullRead
  | _, offset, [] =>
    match core.lengths.head tail with
    | .ended => .ok ⟨[], offset, false⟩
    | .torn => .ok ⟨[], offset, true⟩
    | _ => .error (.corrupt offset)
  | seq, offset, body :: bodies =>
    match core.openBody C seq body with
    | some plain =>
      (readBodies C tail (seq + 1) (offset + 4 + body.length) bodies).map fun read =>
        { read with records := plain :: read.records }
    | none =>
      if bodies = [] ∧ tail = [] ∧ 0 < seq then .ok ⟨[], offset, true⟩ else .error .authentication

/-- Continuing behind the bodies: the last must open, or the one before it. -/
def scanBodies (C : Ciphers) (tail : Bytes) (bodies : List Bytes) : Except StateError Scan :=
  let offset := logHeaderLen + (frames bodies).length
  if core.lengths.head tail = .corrupt then .error (.corrupt offset)
  else
    match bodies.reverse with
    | [] => .ok ⟨0, offset⟩
    | [last] =>
      if (core.openBody C 0 last).isSome then .ok ⟨1, offset⟩ else .error .authentication
    | last :: before :: _ =>
      if (core.openBody C (bodies.length - 1) last).isSome then .ok ⟨bodies.length, offset⟩
      else if (core.openBody C (bodies.length - 2) before).isSome then
        .ok ⟨bodies.length - 1, logHeaderLen + (frames bodies.dropLast).length⟩
      else .error .authentication

end Core

variable {C : Ciphers} {core : Core} {keys : StateKeys} {label : Label} {bytes tail : Bytes}
  {bodies : List Bytes}

/-! ## The reader -/

namespace LogReader

variable {reader : LogReader}

theorem nextRecord_eq (keyed : reader.core = some core) (going : reader.done = false)
    (rest : reader.offset + reader.rest.length = reader.fileLen) :
    reader.nextRecord C = match core.lengths.head reader.rest with
      | .ended => (.ok none, reader.finished)
      | .torn => (.ok none, reader.tear)
      | .corrupt => (.error (.corrupt reader.offset), reader.finished)
      | .frame body behind =>
        match core.openBody C reader.seq body with
        | some plain => (.ok (some plain),
            { reader with seq := reader.seq + 1, offset := reader.offset + 4 + body.length, rest := behind })
        | none =>
          if behind = [] ∧ 0 < reader.seq then (.ok none, reader.tear)
          else (.error .authentication, reader.finished) := by
  have remaining : reader.fileLen - reader.offset = reader.rest.length := by omega
  have all : (reader.rest.drop 4).take (reader.rest.length - 4) = reader.rest.drop 4 := take_of_length_le (by simp)
  simp only [nextRecord, keyed, going, remaining, all, Lengths.head, or_self, Bool.false_eq_true, if_false]
  split
  · rfl
  split
  · rfl
  generalize len : ofLE (reader.rest.take 4) = bodyLen
  by_cases fits : bodyLen < minBody ∨ core.maxBody < bodyLen
  · have unfit : bodyLen < core.lengths.least ∨ core.lengths.most < bodyLen := fits
    rw [if_pos fits, if_pos unfit]
    split <;> rfl
  have fit : ¬ (bodyLen < core.lengths.least ∨ core.lengths.most < bodyLen) := fits
  rw [if_neg fits, if_neg fit]
  by_cases short : reader.rest.length < 4 + bodyLen
  · rw [if_pos (.inl short), if_pos short]
  have size : ((reader.rest.drop 4).take bodyLen).length = bodyLen := by
    rw [length_take, length_drop]
    omega
  have ends : reader.offset + 4 + bodyLen = reader.fileLen ↔ reader.rest.drop (4 + bodyLen) = [] := by
    rw [drop_eq_nil_iff]
    omega
  rw [if_neg (by rw [length_drop]; omega), if_neg short, drop_drop]
  simp only [size]
  cases core.openBody C reader.seq ((reader.rest.drop 4).take bodyLen) with
  | some plain => rfl
  | none => exact if_congr (and_congr_left' ends) rfl rfl

theorem drain_eq (reader : LogReader) (laid : core.lengths.Laid bytes bodies tail)
    (enough : bodies.length < fuel) (keyed : reader.core = some core) (going : reader.done = false)
    (whole : reader.torn = none) (rest : reader.rest = bytes)
    (len : reader.offset + bytes.length = reader.fileLen) :
    ((reader.drain C fuel).map fun (records, last) =>
        (⟨records, last.torn.getD last.offset, last.torn.isSome⟩ : FullRead)) =
      core.readBodies C tail reader.seq reader.offset bodies := by
  induction laid generalizing reader fuel with
  | @stop tail last =>
    cases fuel with
    | zero => simp at enough
    | succ fuel =>
      simp only [drain, nextRecord_eq keyed going (rest ▸ len), rest, Core.readBodies]
      cases found : core.lengths.head tail with
      | ended => simp [finished, whole, Except.map]
      | torn => simp [tear, Except.map]
      | corrupt => rfl
      | frame body behind => exact absurd found (last body behind)
  | @next bytes body behind bodies tail found more ih =>
    cases fuel with
    | zero => simp at enough
    | succ fuel =>
      obtain ⟨_, rfl⟩ := Lengths.frame_of_head found
      simp only [drain, nextRecord_eq keyed going (rest ▸ len), rest, found, Core.readBodies]
      cases opened : core.openBody C reader.seq body with
      | some plain =>
        simp only
        rw [← ih { reader with
            seq := reader.seq + 1, offset := reader.offset + 4 + body.length, rest := behind }
          (by simpa using enough) keyed going whole rfl (by simp at len ⊢; omega)]
        cases drain C fuel _ <;> rfl
      | none =>
        simp only [more.eq_nil_iff, and_assoc]
        by_cases ends : bodies = [] ∧ tail = [] ∧ 0 < reader.seq
        · simp only [if_pos ends]
          rfl
        · simp only [if_neg ends]
          rfl

end LogReader

theorem length_lt_of_laid {file : Bytes} (laid : core.lengths.Laid (file.drop logHeaderLen) bodies tail) :
    bodies.length < file.length + 1 := by
  have size := congrArg length laid.parts
  have each (bodies : List Bytes) : bodies.length ≤ (frames bodies).length := by
    induction bodies with
    | nil => simp
    | cons body bodies ih =>
      simp
      omega
  have few := each bodies
  simp at size
  omega

theorem fullRead_eq (laid : core.lengths.Laid (file.drop logHeaderLen) bodies tail)
    (long : logHeaderLen ≤ file.length) (parsed : parseHeader (file.take logHeaderLen) label = .ok salt)
    (derived : Core.new C keys label salt = .ok core) :
    fullRead C keys label file = core.readBodies C tail 0 logHeaderLen bodies := by
  have some : file.length ≠ 0 := by
    have header : 0 < logHeaderLen := by decide
    omega
  have opened : LogReader.open C keys label file =
      .ok ⟨.some core, 0, logHeaderLen, file.length, none, false, file.drop logHeaderLen⟩ := by
    rw [LogReader.open, if_neg some, if_neg (Nat.not_lt.mpr long), parsed]
    change (Core.new C keys label salt >>= _) = _
    rw [derived]
    rfl
  have drained := LogReader.drain_eq (C := C)
    ⟨.some core, 0, logHeaderLen, file.length, none, false, file.drop logHeaderLen⟩ laid
    (length_lt_of_laid laid) rfl rfl rfl rfl (by simp; omega)
  rw [fullRead, opened, ← drained]
  change (LogReader.drain C (file.length + 1) _ >>= _) = _
  cases LogReader.drain C (file.length + 1) _ <;> rfl

/-! ## The writer -/

namespace LogWriter

theorem walk_succ (len : w.offset + bytes.length = fileLen) :
    walk core fileLen (fuel + 1) bytes w = match core.lengths.head bytes with
      | .ended | .torn => .ok w
      | .corrupt => .error (.corrupt w.offset)
      | .frame body behind => walk core fileLen fuel behind (w.over body) := by
  have remaining : fileLen - w.offset = bytes.length := by omega
  have all : (bytes.drop 4).take (bytes.length - 4) = bytes.drop 4 := take_of_length_le (by simp)
  simp only [walk, remaining, all, Lengths.head]
  by_cases none : bytes.length = 0
  · rw [if_pos (.inl none), if_pos none]
  by_cases few : bytes.length < 4
  · rw [if_pos (.inr few), if_neg none, if_pos few]
  rw [if_neg (not_or.mpr ⟨none, few⟩), if_neg none, if_neg few]
  generalize len : ofLE (bytes.take 4) = bodyLen
  by_cases fits : bodyLen < minBody ∨ core.maxBody < bodyLen
  · have unfit : bodyLen < core.lengths.least ∨ core.lengths.most < bodyLen := fits
    rw [if_pos fits, if_pos unfit]
    split <;> rfl
  · have fit : ¬ (bodyLen < core.lengths.least ∨ core.lengths.most < bodyLen) := fits
    rw [if_neg fits, if_neg fit]
    by_cases short : bytes.length < 4 + bodyLen
    · rw [if_pos short, if_pos short]
    · rw [if_neg short, if_neg short, drop_drop]

theorem walk_eq (laid : core.lengths.Laid bytes bodies tail) (enough : bodies.length < fuel)
    (len : w.offset + bytes.length = fileLen) :
    walk core fileLen fuel bytes w =
      if core.lengths.head tail = .corrupt then .error (.corrupt (w.offset + (frames bodies).length))
      else .ok (bodies.foldl Walk.over w) := by
  induction laid generalizing w fuel with
  | @stop tail last =>
    cases fuel with
    | zero => simp at enough
    | succ fuel =>
      rw [walk_succ len]
      cases found : core.lengths.head tail with
      | ended | torn | corrupt => rfl
      | frame body behind => exact absurd found (last body behind)
  | @next bytes body behind bodies tail found more ih =>
    cases fuel with
    | zero => simp at enough
    | succ fuel =>
      obtain ⟨_, rfl⟩ := Lengths.frame_of_head found
      rw [walk_succ len, found]
      simp only
      rw [ih (by simpa using enough) (by simp [Walk.over] at len ⊢; omega)]
      simp [Walk.over, Nat.add_assoc]

theorem offset_foldl_over : (bodies.foldl Walk.over w).offset = w.offset + (frames bodies).length := by
  induction bodies generalizing w with
  | nil => rfl
  | cons body bodies ih =>
    rw [foldl_cons, ih]
    simp [Walk.over, Nat.add_assoc]

theorem count_foldl_over {bodies : List Bytes} :
    (bodies.foldl Walk.over w).count = w.count + bodies.length := by
  induction bodies generalizing w with
  | nil => rfl
  | cons body bodies ih =>
    rw [foldl_cons, ih, length_cons]
    simp only [Walk.over]
    omega

section

variable {file : Bytes} (laid : core.lengths.Laid (file.drop logHeaderLen) bodies tail)
    (long : logHeaderLen ≤ file.length)
include laid long

theorem scan_eq : scan C core file = core.scanBodies C tail bodies := by
  have walked := walk_eq (w := ⟨logHeaderLen, 0, none, none⟩) laid (length_lt_of_laid laid)
    (by simp; omega : logHeaderLen + (file.drop logHeaderLen).length = file.length)
  rw [scan, walked, Core.scanBodies]
  by_cases bad : core.lengths.head tail = .corrupt
  · rw [if_pos bad, if_pos bad]
    rfl
  rw [if_neg bad, if_neg bad]
  rcases bodies.eq_nil_or_concat' with rfl | ⟨bodies, last, rfl⟩
  · rfl
  rcases bodies.eq_nil_or_concat' with rfl | ⟨more, before, rfl⟩
  · simp [Walk.over, Nat.add_assoc]
    rfl
  simp only [foldl_append, foldl_cons, foldl_nil, Walk.over, offset_foldl_over,
    count_foldl_over, reverse_append, reverse_cons, reverse_nil, nil_append,
    cons_append, frames_append, frames_cons, frames_nil, length_append, length_frame,
    length_nil, length_cons, dropLast_concat, Nat.zero_add, Nat.add_zero, Nat.add_assoc]
  rfl

theorem openAppend_eq (drawn : B16) (parsed : parseHeader (file.take logHeaderLen) label = .ok salt)
    (derived : Core.new C keys label salt = .ok core) :
    openAppend C keys label drawn (some file) = (core.scanBodies C tail bodies).map fun found =>
        (file.take found.validLen, ⟨core, found.count, found.validLen⟩) := by
  rw [openAppend, Option.getD_some, if_neg (Nat.not_lt.mpr long), parsed]
  change (Core.new C keys label salt >>= _) = _
  rw [derived]
  change (scan C core file >>= _) = _
  rw [scan_eq laid long]
  cases core.scanBodies C tail bodies <;> rfl

end

end LogWriter

end Miasma.State
