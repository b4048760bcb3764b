import Miasma.State.Laid
import Miasma.Data.Outcome

namespace Miasma.State

open Data List LogWriter

/-! What a reader and a writer make of the same file.  The reader takes a bad record for torn only
at the very end of the file; the writer opens the last records only, and does not ask for that. -/

@[simp] theorem length_header (core : Core) : core.header.length = logHeaderLen := by
  simp [Core.header, core.salt.length_toList, logHeaderLen, show logMagic.length = 4 from rfl]

variable {C : Ciphers} {core : Core} {tail : Bytes} {bodies : List Bytes} {read : FullRead}

namespace Core

/-- The last of the records opens, which shows that the key is the right one. -/
def Trusted (core : Core) (C : Ciphers) (bodies : List Bytes) : Prop :=
  ∃ front last, bodies = front ++ [last] ∧ (core.openBody C front.length last).isSome

theorem readBodies_ok {seq offset : Nat} (done : core.readBodies C tail seq offset bodies = .ok read) :
    ∃ kept, (∀ i body, kept[i]? = some body → (core.openBody C (seq + i) body).isSome) ∧
      read.records.length = kept.length ∧ read.validLen = offset + (frames kept).length ∧
      ((bodies = kept ∧ core.lengths.head tail ≠ .corrupt) ∨
        ∃ last, bodies = kept ++ [last] ∧ tail = [] ∧ 0 < seq + kept.length ∧
          core.openBody C (seq + kept.length) last = none) := by
  induction bodies generalizing seq offset read with
  | nil =>
    refine ⟨[], by simp, ?_⟩
    simp only [readBodies] at done
    split at done
    · cases done
      rename_i clean
      exact ⟨rfl, rfl, .inl ⟨rfl, by simp [clean]⟩⟩
    · cases done
      rename_i torn
      exact ⟨rfl, rfl, .inl ⟨rfl, by simp [torn]⟩⟩
    · cases done
  | cons body bodies ih =>
    simp only [readBodies] at done
    cases opened : core.openBody C seq body with
    | some plain =>
      rw [opened] at done
      cases rest : core.readBodies C tail (seq + 1) (offset + 4 + body.length) bodies with
      | error =>
        rw [rest] at done
        cases done
      | ok =>
        rw [rest] at done
        cases done
        obtain ⟨kept, opens, count, len, shape⟩ := ih rest
        refine ⟨body :: kept, ?_, by simp [count], by simp [len, Nat.add_assoc], ?_⟩
        · intro i other there
          cases i with
          | zero =>
            cases there
            simp [opened]
          | succ i =>
            have later := opens i other there
            rwa [Nat.add_assoc, Nat.add_comm 1] at later
        · rcases shape with ⟨rfl, clean⟩ | ⟨last, rfl, empty, some, fails⟩
          · exact .inl ⟨rfl, clean⟩
          refine .inr ⟨last, rfl, empty, by simp, ?_⟩
          rwa [length_cons, Nat.add_comm kept.length, ← Nat.add_assoc]
    | none =>
      rw [opened] at done
      simp only at done
      split at done
      · rename_i ends
        obtain ⟨rfl, rfl, some⟩ := ends
        cases done
        exact ⟨[], by simp, rfl, rfl, .inr ⟨body, rfl, rfl, some, opened⟩⟩
      · cases done

theorem trusted_snoc {last : Bytes} :
    core.Trusted C (bodies ++ [last]) ↔ (core.openBody C bodies.length last).isSome := by
  constructor
  · rintro ⟨front, other, same, opens⟩
    obtain ⟨rfl, rfl⟩ := concat_inj.mp (by simpa using same)
    exact opens
  · exact fun opens => ⟨bodies, last, rfl, opens⟩

theorem scanBodies_snoc {last : Bytes} : core.scanBodies C tail (bodies ++ [last]) = .ok found ↔
    core.lengths.head tail ≠ .corrupt ∧ if (core.openBody C bodies.length last).isSome
      then found = ⟨bodies.length + 1, logHeaderLen + (frames (bodies ++ [last])).length⟩
      else core.Trusted C bodies ∧ found = ⟨bodies.length, logHeaderLen + (frames bodies).length⟩ := by
  rw [scanBodies, ite_ok_iff]
  refine and_congr_right fun _ => ?_
  rcases bodies.eq_nil_or_concat' with rfl | ⟨more, before, rfl⟩
  · have none : ¬ core.Trusted C [] := by simp [Trusted]
    simp only [nil_append, reverse_cons, reverse_nil, length_nil, none, false_and]
    split <;> simp [eq_comm]
  · rw [trusted_snoc]
    simp only [reverse_append, reverse_cons, reverse_nil, nil_append, cons_append, length_append, length_cons,
      length_nil, Nat.zero_add, dropLast_concat, Nat.add_sub_cancel]
    rw [show more.length + 1 + 1 - 2 = more.length by omega]
    split_ifs with opens trusted
    · rw [Except.ok.injEq, eq_comm]
    · rw [Except.ok.injEq, eq_comm, and_iff_right trusted]
    · simp [trusted]

theorem scanBodies_of_readBodies (done : core.readBodies C tail 0 logHeaderLen bodies = .ok read) :
    core.scanBodies C tail bodies = .ok ⟨read.records.length, read.validLen⟩ := by
  obtain ⟨kept, opens, count, len, shape⟩ := readBodies_ok done
  simp only [Nat.zero_add] at opens shape
  rw [count, len]
  rcases shape with ⟨rfl, clean⟩ | ⟨last, rfl, rfl, some, fails⟩
  · rcases bodies.eq_nil_or_concat' with rfl | ⟨bodies, last, rfl⟩
    · rw [scanBodies, if_neg clean]
      rfl
    have opened := opens bodies.length last (by simp)
    exact scanBodies_snoc.mpr ⟨clean, by simp [opened]⟩
  · refine scanBodies_snoc.mpr ⟨by simp [Lengths.head], ?_⟩
    rcases kept.eq_nil_or_concat' with rfl | ⟨more, before, rfl⟩
    · simp at some
    rw [if_neg (by rw [fails]; exact Bool.false_ne_true)]
    exact ⟨⟨more, before, rfl, opens more.length before (by simp)⟩, rfl⟩

end Core

variable {keys : StateKeys} {label : Label} {file : Bytes}

theorem fullRead_ok (done : fullRead C keys label file = .ok read) :
    file = [] ∨ ∃ core salt bodies tail, logHeaderLen ≤ file.length ∧
      parseHeader (file.take logHeaderLen) label = .ok salt ∧ Core.new C keys label salt = .ok core ∧
      core.lengths.Laid (file.drop logHeaderLen) bodies tail ∧
      core.readBodies C tail 0 logHeaderLen bodies = .ok read := by
  by_cases empty : file.length = 0
  · exact .inl (length_eq_zero_iff.mp empty)
  obtain ⟨reader, opened, rest⟩ := bind_ok_iff.mp done
  by_cases short : file.length < logHeaderLen
  · rw [LogReader.open, if_neg empty, if_pos short] at opened
    split at opened <;> cases opened
  rw [LogReader.open, if_neg empty, if_neg short] at opened
  obtain ⟨salt, parsed, opened⟩ := bind_ok_iff.mp opened
  obtain ⟨core, derived, _⟩ := bind_ok_iff.mp opened
  obtain ⟨bodies, tail, laid⟩ := Lengths.laid_exists core.lengths (file.drop logHeaderLen)
  have long := Nat.not_lt.mp short
  exact .inr ⟨core, salt, bodies, tail, long, parsed, derived, laid,
    (fullRead_eq laid long parsed derived).symm.trans done⟩

theorem openAppend_of_fullRead (done : fullRead C keys label file = .ok read)
    (some : file ≠ []) (drawn : B16) :
    ∃ writer, openAppend C keys label drawn (.some file) = .ok (file.take read.validLen, writer) ∧
      writer.seq = read.records.length ∧ writer.last = read.validLen ∧
      ∃ salt, parseHeader (file.take logHeaderLen) label = .ok salt ∧
        Core.new C keys label salt = .ok writer.core := by
  rcases fullRead_ok done with empty | ⟨core, salt, bodies, tail, long, parsed, derived, laid, reads⟩
  · exact absurd empty some
  refine ⟨⟨core, read.records.length, read.validLen⟩, ?_, rfl, rfl, salt, parsed, derived⟩
  rw [openAppend_eq laid long drawn parsed derived, Core.scanBodies_of_readBodies reads]
  rfl

namespace Damaged

def stateKeys : StateKeys := ⟨some (.fill 32 7)⟩

def logCore : Core := ⟨.fill 32 7, .contacts, .fill 16 3⟩

/-- The record with this number and one byte in it. -/
def written (seq : Nat) (byte : UInt8) : Bytes :=
  match record ⟨logCore, seq, 0⟩ Ciphers.plain (.fill 16 9) [byte] with
  | .ok bytes => bytes
  | .error _ => []

/-- The tag of the second record is damaged, and three bytes of a third follow it. -/
def log : Bytes := logCore.header ++ written 0 10 ++ (written 1 11).dropLast ++ [0] ++ (written 2 12).take 3

end Damaged

end Miasma.State
