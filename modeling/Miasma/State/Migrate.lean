import Miasma.State.Agreement
import Miasma.Data.Crash
import Miasma.Data.Run
import Mathlib.Data.List.DropRight

namespace Miasma.State

open Data Program List

/-! Converting a plaintext state file to the protected form (`state_crypto/migrate.rs`, `doc.rs`).
A run can be cut off at each of its steps and is run again. -/

/-! ## Documents -/

def docMagic : Bytes := utf8 "MSD1"
def docVersion : UInt8 := 1
def docHeaderLen : Nat := 4 + 1 + 1 + nonceLen

def docAad (label : Label) (context : Bytes) : Bytes := docMagic ++ [docVersion, label.id] ++ context

def sealDocument (C : Ciphers) (keys : StateKeys) (label : Label) (context plain : Bytes)
    (nonce : ByteVec nonceLen) : Except StateError Bytes := do
  if label.maxDocumentBytes < plain.length then .error (.tooLarge plain.length label.maxDocumentBytes)
  else
    let key ← keys.docKey C label
    match C.sealDetached key nonce (docAad label context) plain with
    | none => .error .authentication
    | some (ciphertext, tag) =>
        return docMagic ++ [docVersion, label.id] ++ nonce.toList ++ ciphertext ++ tag.toList

def readDocument (C : Ciphers) (keys : StateKeys) (label : Label) (context file : Bytes) :
    Except StateError Bytes :=
  let limit := label.maxDocumentBytes + docHeaderLen + tagLen
  if limit < file.length then .error (.tooLarge file.length limit)
  else if file.length < docHeaderLen + tagLen then
    if file.take 4 = docMagic.take (min file.length 4) then .error .truncated else .error .notProtected
  else if file.take 4 ≠ docMagic then .error .notProtected
  else
    match file.drop 4, ByteVec.ofList? nonceLen ((file.drop 6).take nonceLen) with
    | version :: id :: rest, some nonce =>
        if version ≠ docVersion then .error (.unsupportedVersion version)
        else if id ≠ label.id then .error (.wrongLabel label.id id)
        else do
          let key ← keys.docKey C label
          let body := rest.drop nonceLen
          match C.openDetached key nonce (docAad label context) (body.take (body.length - tagLen))
              (body.drop (body.length - tagLen)) with
          | some plain => return plain
          | none => .error .authentication
    | _, _ => .error .truncated

/-! ## Lines -/

def newline : UInt8 := 10

def splitLines : Bytes → List Bytes
  | [] => []
  | byte :: rest =>
      if byte = newline then [] :: splitLines rest
      else
        match splitLines rest with
        | [] => [[byte]]
        | line :: lines => (byte :: line) :: lines

def isWhitespace (byte : UInt8) : Bool := byte = 32 || byte = 9 || byte = 10 || byte = 12 || byte = 13

def stripped (line : Bytes) : Bytes := line.rdropWhile (· = 13)

/-- `for_each_line`: the lines that are kept.  Blank ones are left out, and so are those that are
longer than a record. -/
def keptLines (maxRecord : Nat) (file : Bytes) : List Bytes :=
  (((splitLines file).filter (·.length < maxRecord + 2)).map stripped).filter fun line =>
    !line.all isWhitespace && line.length ≤ maxRecord

def writeLog (C : Ciphers) (random : Nat → B16) :
    LogWriter → Bytes → List Bytes → Except StateError Bytes
  | _, file, [] => .ok file
  | writer, file, line :: lines => do
      let (file, writer) ← writer.append C (random writer.seq) line file
      writeLog C random writer file lines

/-! ## One file -/

inductive Sniffed where
  | missing | empty | plain
  | document (id : UInt8)
  | log (id : UInt8)
deriving DecidableEq

def sniff : Option Bytes → Sniffed
  | none => .missing
  | some [] => .empty
  | some (file@(_ :: _)) =>
      match file.drop 5 with
      | [] => .plain
      | id :: _ =>
          if file.take 4 = docMagic then .document id
          else if file.take 4 = logMagic then .log id
          else .plain

inductive Outcome where
  | absent | removedEmpty | alreadyProtected | migrated | recovered

/-- The file, its plaintext renamed aside, and its protected copy. -/
structure Names where
  path : Option Bytes
  old : Option Bytes
  staged : Option Bytes

structure Draws where
  nonce : ByteVec nonceLen
  salt : B16
  random : Nat → B16

/-- A form of protected file: what makes one, what compares it with the plaintext, what it holds, and whether
one that is there will do. -/
structure Form (Content : Type) where
  label : Label
  make : Draws → Bytes → Except StateError Bytes
  verify : Bytes → Bytes → Except StateError Unit
  read : Bytes → Except StateError Content
  want : Bytes → Content
  ok : Bytes → Bool

def mismatch : StateError := .migration "protected copy does not match the original"

def documentForm (C : Ciphers) (keys : StateKeys) (label : Label) (context : Bytes) : Form Bytes where
  label := label
  make draws plain := sealDocument C keys label context plain draws.nonce
  verify plain file := do
    if (← readDocument C keys label context file) ≠ plain then .error mismatch else .ok ()
  read := readDocument C keys label context
  want := id
  ok file := (readDocument C keys label context file).isOk

/-- The digest of the records, step by step `digest_step`. -/
def digest (blake3 : Bytes → B32) (records : List Bytes) : B32 :=
  blake3 (records.flatMap fun record => toLE 8 record.length ++ record)

def logForm (blake3 : Bytes → B32) (C : Ciphers) (keys : StateKeys) (label : Label) : Form (List Bytes) where
  label := label
  make draws plain := do
    let (file, writer) ← LogWriter.createFile C keys label draws.salt
    writeLog C draws.random writer file (keptLines label.maxRecordBytes plain)
  verify plain file := do
    let read ← fullRead C keys label file
    let lines := keptLines label.maxRecordBytes plain
    if read.records.length ≠ lines.length ∨ read.torn ∨ digest blake3 read.records ≠ digest blake3 lines then
      .error mismatch
    else .ok ()
  read file := do
    let read ← fullRead C keys label file
    if read.torn ∨ file = [] then .error mismatch else return read.records
  want := keptLines label.maxRecordBytes
  ok file := (LogReader.open C keys label file).isOk

/-- What is drawn, and what a file passes through while it is written or overwritten. -/
structure Passing where
  draws : Draws
  staging : List Bytes
  overwriting : List Bytes

abbrev Converting (α : Type) := Program Names Nat StateError α

variable {Content : Type} (F : Form Content) (W : Passing)

def overwriteAndRemoveOld : Converting Unit := do
  writeThrough (fun s => W.overwriting.map fun part => { s with old := some part }) fun s => { s with old := none }

/-- The source of a conversion, and whether it is the plaintext renamed aside; or the outcome. -/
def pickSource : Converting (Except Outcome (Bytes × Bool)) := do
  let s ← reading fun s : Names => s
  match s.old with
  | some old =>
      if ((sniff s.path matches .document _ | .log _) : Bool) && (s.path.any F.ok) then
        overwriteAndRemoveOld W
        return .error .recovered
      else return .ok (old, true)
  | none =>
      match sniff s.path with
      | .missing => return .error .absent
      | .empty =>
          write fun s => { s with path := none }
          return .error .removedEmpty
      | .document id | .log id =>
          if id ≠ F.label.id then fail (.wrongLabel F.label.id id) else return .error .alreadyProtected
      | .plain => return .ok (s.path.getD [], false)

def swapIn (sourceIsOld : Bool) : Converting Unit := do
  if !sourceIsOld then write fun s => { s with old := s.path, path := none }
  write fun s => { s with path := s.staged, staged := none }
  overwriteAndRemoveOld W

/-- The copy is staged and read back before anything is destroyed. -/
def convertFrom (plain : Bytes) (sourceIsOld : Bool) : Converting Outcome := do
  let file ← ofExcept (F.make W.draws plain)
  writeThrough (fun s => W.staging.map fun part => { s with staged := some part })
    fun s => { s with staged := some file }
  match F.verify plain file with
  | .error e =>
      write fun s => { s with staged := none }
      fail e
  | .ok () =>
      swapIn W sourceIsOld
      return if sourceIsOld then .recovered else .migrated

/-- `document_locked` and `log_locked`. -/
def convert : Converting Outcome := do
  match ← pickSource F W with
  | .error done => return done
  | .ok (plain, sourceIsOld) => convertFrom F W plain sourceIsOld

/-! ## Nothing is lost -/

namespace Form

variable (plain : Bytes)

def Protects (file : Option Bytes) : Prop := ∃ bytes, file = some bytes ∧ F.read bytes = .ok (F.want plain)

/-- The content is in the protected file, in the staged one or in an intact plaintext copy. -/
def Recoverable (s : Names) : Prop :=
  F.Protects plain s.path ∨ F.Protects plain s.staged ∨ s.path = some plain ∨ s.old = some plain

def Done (s : Names) : Prop := F.Protects plain s.path ∧ s.old = none ∧ s.staged = none

/-- Where the conversion of a plaintext can stand. -/
def Underway (s : Names) : Prop :=
  s.path = some plain ∧ s.old = none ∨ s.path = none ∧ s.old = some plain ∨ F.Protects plain s.path ∧ s.staged = none

/-- What can be read will do, and is seen to be protected. -/
def Sound : Prop := ∀ file content, F.read file = .ok content → F.ok file = true ∧
    (sniff (some file) = .document F.label.id ∨ sniff (some file) = .log F.label.id)

/-- What is made with these draws and compares as the plaintext reads as it. -/
def Exact (draws : Draws) : Prop :=
  ∀ file, F.make draws plain = .ok file → F.verify plain file = .ok () → F.read file = .ok (F.want plain)

end Form

variable {F W} {plain : Bytes} {s : Names} {t : Nat}

variable {post : Unit → Names → Nat → Prop}

theorem ensures_overwriteAndRemoveOld (done : F.Protects plain s.path)
    (staged : s.staged = none) (ended : ∀ t, post () { s with old := none } t) :
    Ensures (overwriteAndRemoveOld W) (F.Underway plain) (fun _ => F.Underway plain) post s t := by
  simp only [overwriteAndRemoveOld, ensures_writeThrough, mem_map]
  refine ⟨?_, .inr (.inr ⟨done, staged⟩), ended t⟩
  rintro left ⟨part, _, rfl⟩
  exact .inr (.inr ⟨done, staged⟩)

theorem ensures_swapIn {sourceIsOld : Bool}
    (source : (if sourceIsOld then s.old else s.path) = some plain) (staged : F.Protects plain s.staged)
    (ended : ∀ s t, F.Done plain s → post () s t) :
    Ensures (swapIn W sourceIsOld) (F.Underway plain) (fun _ => F.Underway plain) post s t := by
  have swapped : ∀ {s : Names} {t}, F.Protects plain s.staged → Ensures
      (write (fun s => { s with path := s.staged, staged := none }) >>= fun _ => overwriteAndRemoveOld W)
      (F.Underway plain) (fun _ => F.Underway plain) post s t := by
    intro s t staged
    rw [ensures_bind, ensures_write]
    exact ⟨.inr (.inr ⟨staged, rfl⟩), ensures_overwriteAndRemoveOld staged rfl fun t => ended _ t ⟨staged, rfl, rfl⟩⟩
  cases sourceIsOld with
  | true => exact swapped staged
  | false =>
    simp only [swapIn, Bool.not_false, if_true]
    rw [ensures_bind, ensures_write]
    exact ⟨.inr (.inl ⟨rfl, source⟩), swapped staged⟩

theorem ensures_convertFrom {sourceIsOld : Bool} (exact : F.Exact plain W.draws)
    (source : (if sourceIsOld then s.old else s.path) = some plain)
    (staging : ∀ staged, F.Underway plain { s with staged }) :
    Ensures (convertFrom F W plain sourceIsOld) (F.Underway plain) (fun _ => F.Underway plain)
      (fun _ s _ => F.Done plain s) s t := by
  rw [convertFrom, ensures_bind, ensures_ofExcept]
  split
  · rename_i file made
    simp only [ensures_bind, ensures_writeThrough, mem_map]
    refine ⟨?_, staging _, ?_⟩
    · rintro left ⟨part, _, rfl⟩
      exact staging _
    split
    · simp only [ensures_bind, ensures_write, ensures_fail]
      exact ⟨staging none, staging none⟩
    rename_i verified
    rw [ensures_bind]
    exact ensures_swapIn source ⟨file, rfl, exact file made verified⟩ fun s t done => (ensures_pure _).mpr done
  · exact staging s.staged

/-- From wherever a conversion stopped, the next one loses nothing on its way and finishes it. -/
theorem ensures_convert (sound : F.Sound) (exact : F.Exact plain W.draws) (unprotected : sniff (some plain) = .plain)
    (here : F.Underway plain s) :
    Ensures (convert F W) (F.Underway plain) (fun _ => F.Underway plain) (fun _ s _ => F.Done plain s) s t := by
  simp only [convert, pickSource, ensures_bind, ensures_reading]
  rcases here with ⟨path, old⟩ | ⟨path, old⟩ | ⟨⟨file, path, read⟩, staged⟩
  · simp only [old, path, unprotected, ensures_pure]
    exact ensures_convertFrom exact path fun _ => .inl ⟨path, old⟩
  · simp only [old, path, sniff, Option.any_none, Bool.and_false, Bool.false_eq_true, if_false, ensures_pure]
    exact ensures_convertFrom exact old fun _ => .inr (.inl ⟨path, old⟩)
  obtain ⟨ok, seen⟩ := sound file _ read
  have protects : F.Protects plain s.path := ⟨file, path, read⟩
  cases old : s.old with
  | some bytes =>
    simp only [path]
    rw [if_pos (by rcases seen with seen | seen <;> simp [seen, ok]), ensures_bind]
    refine ensures_overwriteAndRemoveOld protects staged fun t => ?_
    simp only [ensures_pure]
    exact ⟨protects, rfl, staged⟩
  | none =>
    rcases seen with seen | seen <;> simp only [path, seen, ne_eq, not_true_eq_false, if_false, ensures_pure] <;>
      exact ⟨protects, old, staged⟩

/-! ## The two forms -/

theorem sniff_of_header {version id : UInt8} (behind : file.drop 4 = version :: id :: rest) :
    (file.take 4 = docMagic → sniff (some file) = .document id) ∧
      (file.take 4 = logMagic → sniff (some file) = .log id) := by
  have next : file.drop 5 = id :: rest := by rw [← drop_drop (i := 1) (j := 4), behind]; rfl
  cases file with
  | nil => cases next
  | cons byte file =>
    simp only [sniff, next]
    refine ⟨fun magic => if_pos magic, fun magic => ?_⟩
    rw [if_neg (by rw [magic]; decide), if_pos magic]

variable {C : Ciphers} {keys : StateKeys} {label : Label} {context : Bytes}

theorem sound_documentForm : (documentForm C keys label context).Sound := by
  intro file content read
  refine ⟨by simp [documentForm, show readDocument C keys label context file = .ok content from read, Except.isOk,
    Except.toBool], .inl ?_⟩
  simp only [documentForm, readDocument] at read
  split at read
  · cases read
  split at read
  · split at read <;> cases read
  split at read
  · cases read
  rename_i magic
  split at read
  · rename_i version id rest nonce behind _
    split at read
    · cases read
    split at read
    · cases read
    rename_i same
    rw [Decidable.not_not.mp same] at behind
    exact (sniff_of_header behind).1 (Decidable.not_not.mp magic)
  · cases read

theorem exact_documentForm : (documentForm C keys label context).Exact plain draws := by
  intro file _ verified
  obtain ⟨back, read, same⟩ := bind_ok_iff.mp verified
  rw [← Decidable.not_not.mp (ite_ok_iff.mp same).1]
  exact read

theorem parseHeader_ok (parsed : parseHeader h label = .ok salt) :
    h.take 4 = logMagic ∧ ∃ rest, h.drop 4 = logVersion :: label.id :: rest := by
  simp only [parseHeader] at parsed
  split at parsed
  · cases parsed
  rename_i magic
  refine ⟨Decidable.not_not.mp magic, ?_⟩
  split at parsed
  · rename_i version id rest behind
    split at parsed
    · cases parsed
    rename_i known
    split at parsed
    · cases parsed
    rename_i same
    rw [behind, Decidable.not_not.mp known, Decidable.not_not.mp same]
    exact ⟨rest, rfl⟩
  · cases parsed

theorem sound_logForm : (logForm blake3 C keys label).Sound := by
  intro file content read
  obtain ⟨found, full, rest⟩ := bind_ok_iff.mp read
  obtain ⟨clean, _⟩ := ite_ok_iff.mp rest
  have some : file ≠ [] := fun empty => clean (.inr empty)
  rcases fullRead_ok full with empty | ⟨core, salt, bodies, tail, long, parsed, derived, _⟩
  · exact absurd empty some
  obtain ⟨magic, body, behind⟩ := parseHeader_ok parsed
  rw [take_take, show min 4 logHeaderLen = 4 from rfl] at magic
  refine ⟨?_, .inr ?_⟩
  · have positive : file.length ≠ 0 := fun none => some (length_eq_zero_iff.mp none)
    simp only [logForm, LogReader.open, if_neg positive, if_neg (Nat.not_lt.mpr long), parsed, derived, bind,
      Except.bind]
    rfl
  · have whole : file.drop 4 = logVersion :: label.id :: (body ++ file.drop logHeaderLen) := by
      conv => lhs; rw [← take_append_drop logHeaderLen file]
      rw [drop_append_of_le_length (by simp [logHeaderLen] at long ⊢; omega), behind]
      rfl
    exact (sniff_of_header whole).2 magic

/-- Of what is read back from the log that is made, the digest is not taken for that of the lines. -/
def Unmistaken (blake3 : Bytes → B32) (C : Ciphers) (keys : StateKeys) (label : Label) (plain : Bytes)
    (draws : Draws) : Prop :=
  ∀ file ∈ ((logForm blake3 C keys label).make draws plain).toOption, ∀ read ∈ (fullRead C keys label file).toOption,
    digest blake3 read.records = digest blake3 (keptLines label.maxRecordBytes plain) →
      read.records = keptLines label.maxRecordBytes plain

theorem length_writeLog (written : writeLog C random writer file lines = .ok log) : file.length ≤ log.length := by
  induction lines generalizing writer file with
  | nil =>
    cases written
    exact Nat.le_refl _
  | cons line lines ih =>
    obtain ⟨⟨longer, _⟩, appended, rest⟩ := bind_ok_iff.mp written
    obtain ⟨bytes, _, same⟩ := bind_ok_iff.mp appended
    cases same
    exact Nat.le_trans (by simp) (ih rest)

theorem exact_logForm (unmistaken : Unmistaken blake3 C keys label plain draws) :
    (logForm blake3 C keys label).Exact plain draws := by
  intro file made verified
  obtain ⟨read, full, compared⟩ := bind_ok_iff.mp verified
  obtain ⟨same, -⟩ := ite_ok_iff.mp compared
  obtain ⟨_, whole, digest⟩ := by simpa only [not_or, Decidable.not_not] using same
  have some : file ≠ [] := by
    obtain ⟨⟨header, writer⟩, created, written⟩ := bind_ok_iff.mp made
    obtain ⟨core, _, same⟩ := bind_ok_iff.mp created
    cases same
    exact ne_nil_of_length_pos (Nat.lt_of_lt_of_le (by simp [logHeaderLen]) (length_writeLog written))
  have lines := unmistaken file (by simp [made, Except.toOption]) read (by simp [full, Except.toOption]) digest
  simp only [logForm, full, bind, Except.bind]
  rw [if_neg (by simp [whole, some]), lines]
  rfl

def contentLines (file : Bytes) : List Bytes :=
  ((splitLines file).map stripped).filter fun line => !line.all isWhitespace

theorem keptLines_of_fit (fit : ∀ line ∈ splitLines file, line.length ≤ maxRecord) :
    keptLines maxRecord file = contentLines file := by
  have all : (splitLines file).filter (·.length < maxRecord + 2) = splitLines file :=
    filter_eq_self.mpr fun line inside => decide_eq_true (Nat.lt_succ_of_le (Nat.le_succ_of_le (fit line inside)))
  rw [keptLines, contentLines, all]
  refine filter_congr fun line inside => ?_
  obtain ⟨whole, there, rfl⟩ := mem_map.mp inside
  have short : (stripped whole).length ≤ maxRecord :=
    Nat.le_trans ( rdropWhile_prefix _ _).length_le (fit whole there)
  simp [short]

/-! ## Runs -/

/-- A conversion, cut off after so many steps or not at all. -/
def step (F : Form Content) (s : Names) (event : Passing × Option Nat) : Option Names :=
  (convert F event.1).left s 0 event.2

theorem converted (sound : F.Sound) (exact : ∀ event ∈ events, F.Exact plain event.1.draws)
    (unprotected : sniff (some plain) = .plain)
    (ran : run (step F) ⟨some plain, none, staged⟩ events = some s) :
    F.Recoverable plain s ∧ ∀ W outcome, F.Exact plain W.draws → (convert F W s 0).value = .ok outcome →
      F.Done plain (convert F W s 0).store := by
  have start : F.Underway plain ⟨some plain, none, staged⟩ := .inl ⟨rfl, rfl⟩
  have here : F.Underway plain s := by
    have along : Along (step F) (fun _ event => F.Exact plain event.1.draws) ⟨some plain, none, staged⟩ events :=
      along_of_forall (fun event there _ => exact event there) _
    refine invariant_of_run (fun here exact stepped => ?_) start along ran
    refine ((ensures_convert sound exact unprotected here).imp fun _ s _ done => ?_).left here stepped
    exact .inr (.inr ⟨done.1, done.2.2⟩)
  constructor
  · rcases here with ⟨path, _⟩ | ⟨_, old⟩ | ⟨protects, _⟩
    · exact .inr (.inr (.inl path))
    · exact .inr (.inr (.inr old))
    · exact .inl protects
  · intro W outcome exact value
    have ended := (ensures_convert (t := 0) sound exact unprotected here).2
    rwa [value] at ended

theorem names_of_done (done : F.Done plain s) :
    ∃ file, s = ⟨some file, none, none⟩ ∧ F.read file = .ok (F.want plain) := by
  obtain ⟨path, old, staged⟩ := s
  obtain ⟨⟨file, rfl, read⟩, rfl, rfl⟩ := done
  exact ⟨file, rfl, read⟩

/-- Converting a plaintext document or log, cut off anywhere and run again, never loses it, and
a conversion that completes leaves the protected file alone with its bytes or lines. -/
theorem migration_loses_nothing (blake3 : Bytes → B32) (C : Ciphers) (keys : StateKeys) (label : Label)
    (context plain : Bytes) (staged : Option Bytes) (events : List (Passing × Option Nat)) (s : Names)
    (unprotected : sniff (some plain) = .plain) :
    (run (step (documentForm C keys label context)) ⟨some plain, none, staged⟩ events = some s →
      (documentForm C keys label context).Recoverable plain s ∧
        ∀ W outcome, (convert (documentForm C keys label context) W s 0).value = .ok outcome →
          ∃ file, (convert (documentForm C keys label context) W s 0).store = ⟨some file, none, none⟩ ∧
            readDocument C keys label context file = .ok plain) ∧
    ((∀ line ∈ splitLines plain, line.length ≤ label.maxRecordBytes) →
      (∀ event ∈ events, Unmistaken blake3 C keys label plain event.1.draws) →
      run (step (logForm blake3 C keys label)) ⟨some plain, none, staged⟩ events = some s →
      (logForm blake3 C keys label).Recoverable plain s ∧
        ∀ W outcome, Unmistaken blake3 C keys label plain W.draws →
          (convert (logForm blake3 C keys label) W s 0).value = .ok outcome →
          ∃ file, (convert (logForm blake3 C keys label) W s 0).store = ⟨some file, none, none⟩ ∧
            ∃ read, fullRead C keys label file = .ok read ∧ read.torn = false ∧ read.records = contentLines plain) := by
  refine ⟨fun ran => ?_, fun fit unmistaken ran => ?_⟩
  · obtain ⟨kept, ends⟩ := converted sound_documentForm (fun _ _ => exact_documentForm) unprotected ran
    exact ⟨kept, fun W outcome value => names_of_done (ends W outcome exact_documentForm value)⟩
  obtain ⟨kept, ends⟩ := converted sound_logForm (fun event there => exact_logForm (unmistaken event there))
    unprotected ran
  refine ⟨kept, fun W outcome unmistaken value => ?_⟩
  obtain ⟨file, left, read⟩ := names_of_done (ends W outcome (exact_logForm unmistaken) value)
  obtain ⟨found, full, rest⟩ := bind_ok_iff.mp read
  obtain ⟨clean, same⟩ := ite_ok_iff.mp rest
  refine ⟨file, left, found, full, by simpa using fun torn => clean (.inl torn), ?_⟩
  exact (Except.ok.inj same).trans (keptLines_of_fit fit)

namespace Converted

open Damaged (stateKeys)

def passing : Passing := ⟨⟨.fill nonceLen 0, .fill 16 0, fun _ => .fill 16 0⟩, [[1]], [[0]]⟩

def hash (bytes : Bytes) : B32 := .fill 32 (UInt8.ofNat bytes.length)

def documents : Form Bytes := documentForm Ciphers.plain stateKeys .contacts []

def logs : Form (List Bytes) := logForm hash Ciphers.plain stateKeys .contacts

/-- A conversion of this plaintext that nothing cuts off. -/
def converting {Content : Type} (F : Form Content) (plain : Bytes) :
    Trace Names Nat (Except StateError Outcome) :=
  convert F passing ⟨some plain, none, none⟩ 0

/-- An empty document is removed, one that begins like a protected file stays as it is, and a log
loses a return at the end of a line and a line of blanks. -/
theorem empty_marked_and_blank_not_kept :
    (converting documents []).value = .ok .removedEmpty ∧ (converting documents []).store = ⟨none, none, none⟩ ∧
    (converting documents (docMagic ++ [docVersion, 1])).value = .ok .alreadyProtected ∧
    (converting documents (docMagic ++ [docVersion, 1])).store = ⟨some (docMagic ++ [docVersion, 1]), none, none⟩ ∧
    splitLines [97, 13, 10, 32, 10] = [[97, 13], [32]] ∧
    (converting logs [97, 13, 10, 32, 10]).value = .ok .migrated ∧
    (converting logs [97, 13, 10, 32, 10]).store.path.map logs.read = some (.ok [[97]]) :=
  ⟨rfl, rfl, rfl, rfl, rfl, rfl, rfl⟩

/-- A conversion that was cut off after the plaintext was renamed aside is finished. -/
theorem converted_after_crash :
    (∃ s, run (step documents) ⟨some [97], none, none⟩ [(passing, some 3)] = some s ∧ s.path = none ∧
      documents.Recoverable [97] s ∧ ∃ file, (convert documents passing s 0).store = ⟨some file, none, none⟩ ∧
        readDocument Ciphers.plain stateKeys .contacts [] file = .ok [97]) ∧
    (∃ s, run (step logs) ⟨some [97, 10, 98], none, none⟩ [(passing, some 3)] = some s ∧ s.path = none ∧
      logs.Recoverable [97, 10, 98] s ∧ ∃ file, (convert logs passing s 0).store = ⟨some file, none, none⟩ ∧
        ∃ read, fullRead Ciphers.plain stateKeys .contacts file = .ok read ∧ read.torn = false ∧
          read.records = [[97], [98]]) := by
  constructor
  · obtain ⟨kept, ends⟩ := (migration_loses_nothing hash Ciphers.plain stateKeys .contacts [] [97] none
      [(passing, some 3)] _ (by decide)).1 rfl
    exact ⟨_, rfl, rfl, kept, ends passing .recovered rfl⟩
  · have unmistaken : Unmistaken hash Ciphers.plain stateKeys .contacts [97, 10, 98] passing.draws := by
      unfold Unmistaken
      decide +kernel
    obtain ⟨kept, ends⟩ := (migration_loses_nothing hash Ciphers.plain stateKeys .contacts [] [97, 10, 98] none
      [(passing, some 3)] _ (by decide)).2 (by decide) (by simpa using unmistaken) rfl
    exact ⟨_, rfl, rfl, kept, ends passing .recovered unmistaken rfl⟩

end Converted

end Miasma.State
