import Miasma.State.Keys

namespace Miasma.State

open Data

/-! Record logs (`state_crypto/log.rs`).  A file is what was written to it: reading it does not fail. -/

def logMagic : Bytes := utf8 "MSL1"
def logVersion : UInt8 := 1
def logHeaderLen : Nat := 4 + 1 + 1 + 16
def minBody : Nat := nonceLen + tagLen

structure Core where
  key : B32
  label : Label
  salt : B16
deriving DecidableEq

namespace Core

def new (C : Ciphers) (keys : StateKeys) (label : Label) (salt : B16) : Except StateError Core := do
  let docKey ← keys.docKey C label
  return ⟨C.deriveStateLogKey docKey salt, label, salt⟩

variable (core : Core)

def maxBody : Nat := nonceLen + core.label.maxRecordBytes + tagLen

def header : Bytes := logMagic ++ [logVersion, core.label.id] ++ core.salt.toList

def aad (seq : Nat) : Bytes := core.header ++ toBE 8 seq

def openBody (C : Ciphers) (seq : Nat) (body : Bytes) : Option Bytes :=
  match ByteVec.ofList? nonceLen (body.take nonceLen) with
  | none => none
  | some nonce =>
    if nonce.toList.drop 16 = toBE 8 seq then
      let head := body.take (body.length - tagLen)
      C.openDetached core.key nonce (core.aad seq) (head.drop nonceLen) (body.drop (body.length - tagLen))
    else none

end Core

def parseHeader (h : Bytes) (label : Label) : Except StateError B16 :=
  if h.take 4 ≠ logMagic then .error .notProtected
  else
    match h.drop 4 with
    | version :: id :: salt =>
      if version ≠ logVersion then .error (.unsupportedVersion version)
      else if id ≠ label.id then .error (.wrongLabel label.id id)
      else
        match ByteVec.ofList? 16 salt with
        | none => .error .truncated
        | some salt => .ok salt
    | _ => .error .truncated

/-- The bytes read so far of a file are `offset`; `rest` are the others. -/
structure LogReader where
  core : Option Core
  seq : Nat
  offset : Nat
  fileLen : Nat
  torn : Option Nat
  done : Bool
  rest : Bytes

namespace LogReader

/-- Reading starts behind the header; an empty file is an empty log. -/
def «open» (C : Ciphers) (keys : StateKeys) (label : Label) (file : Bytes) : Except StateError LogReader :=
  if file.length = 0 then .ok ⟨none, 0, 0, 0, none, true, []⟩
  else if file.length < logHeaderLen then
    if file.take 4 = logMagic.take (min file.length 4) then .error .truncated else .error .notProtected
  else do
    let salt ← parseHeader (file.take logHeaderLen) label
    let core ← Core.new C keys label salt
    return ⟨some core, 0, logHeaderLen, file.length, none, false, file.drop logHeaderLen⟩

variable (reader : LogReader)

def tear : LogReader := { reader with torn := some reader.offset, done := true }

def finished : LogReader := { reader with done := true }

def nextRecord (C : Ciphers) : Except StateError (Option Bytes) × LogReader := match reader.core with
  | none => (.ok none, reader.finished)
  | some core =>
    if reader.done then (.ok none, reader)
    else
      let remaining := reader.fileLen - reader.offset
      if remaining = 0 then (.ok none, reader.finished)
      else if remaining < 4 ∨ reader.rest.length < 4 then (.ok none, reader.tear)
      else
        let bodyLen := ofLE (reader.rest.take 4)
        let behind := reader.rest.drop 4
        if bodyLen < minBody ∨ core.maxBody < bodyLen then
          if bodyLen = 0 ∧ (behind.take (remaining - 4)).all (· = 0) then (.ok none, reader.tear)
          else (.error (.corrupt reader.offset), reader.finished)
        else if remaining < 4 + bodyLen ∨ behind.length < bodyLen then (.ok none, reader.tear)
        else
          let last := reader.offset + 4 + bodyLen
          match core.openBody C reader.seq (behind.take bodyLen) with
          | some plain =>
            (.ok (some plain), { reader with seq := reader.seq + 1, offset := last, rest := behind.drop bodyLen })
          | none =>
            -- An earlier record that opened shows that the key is the right one.
            if last = reader.fileLen ∧ 0 < reader.seq then (.ok none, reader.tear)
            else (.error .authentication, reader.finished)

def drain (C : Ciphers) : Nat → LogReader → Except StateError (List Bytes × LogReader)
  | 0, reader => .ok ([], reader)
  | fuel + 1, reader =>
    match reader.nextRecord C with
    | (.error e, _) => .error e
    | (.ok none, reader) => .ok ([], reader)
    | (.ok (some plain), reader) => do
      let (records, reader) ← drain C fuel reader
      return (plain :: records, reader)

end LogReader

/-- What a reader that was drained has seen: the records, where it stopped, and whether it
stopped at a torn record. -/
structure FullRead where
  records : List Bytes
  validLen : Nat
  torn : Bool
deriving DecidableEq

def fullRead (C : Ciphers) (keys : StateKeys) (label : Label) (file : Bytes) : Except StateError FullRead := do
  let reader ← LogReader.open C keys label file
  let (records, reader) ← reader.drain C (file.length + 1)
  return ⟨records, reader.torn.getD reader.offset, reader.torn.isSome⟩

/-! ## Writing -/

structure LogWriter where
  core : Core
  seq : Nat
  /-- `end`. -/
  last : Nat
deriving DecidableEq

structure Scan where
  count : Nat
  validLen : Nat

namespace LogWriter

def createFile (C : Ciphers) (keys : StateKeys) (label : Label) (salt : B16) :
    Except StateError (Bytes × LogWriter) := do
  let core ← Core.new C keys label salt
  return (core.header, ⟨core, 0, logHeaderLen⟩)

/-- The walk over the lengths: how many records there are, where they end, and the bodies of
the last and of the one before. -/
structure Walk where
  offset : Nat
  count : Nat
  last : Option (Nat × Bytes)
  prev : Option (Nat × Bytes)

def Walk.over (w : Walk) (body : Bytes) : Walk :=
  ⟨w.offset + 4 + body.length, w.count + 1, some (w.offset, body), w.last⟩

def walk (core : Core) (fileLen : Nat) : Nat → Bytes → Walk → Except StateError Walk
  | 0, _, w => .ok w
  | fuel + 1, rest, w =>
    let remaining := fileLen - w.offset
    if remaining = 0 ∨ remaining < 4 then .ok w
    else
      let bodyLen := ofLE (rest.take 4)
      let behind := rest.drop 4
      if bodyLen < minBody ∨ core.maxBody < bodyLen then
        if bodyLen = 0 ∧ (behind.take (remaining - 4)).all (· = 0) then .ok w
        else .error (.corrupt w.offset)
      else if remaining < 4 + bodyLen then .ok w
      else walk core fileLen fuel (behind.drop bodyLen) (w.over (behind.take bodyLen))

def scan (C : Ciphers) (core : Core) (file : Bytes) : Except StateError Scan := do
  let w ← walk core file.length (file.length + 1) (file.drop logHeaderLen) ⟨logHeaderLen, 0, none, none⟩
  match w.last with
  | none => return ⟨w.count, w.offset⟩
  | some (off, body) =>
    if (core.openBody C (w.count - 1) body).isSome then return ⟨w.count, w.offset⟩
    else
      -- With the wrong key nothing opens, and then nothing may be cut.
      match w.prev with
      | none => .error .authentication
      | some (_, before) =>
        if (core.openBody C (w.count - 2) before).isSome then return ⟨w.count - 1, off⟩
        else .error .authentication

/-- The file and a writer at its end; `salt` is drawn for a file that is started anew. -/
def openAppend (C : Ciphers) (keys : StateKeys) (label : Label) (salt : B16)
    (file : Option Bytes) : Except StateError (Bytes × LogWriter) :=
  let bytes := file.getD []
  if bytes.length < logHeaderLen then
    if 0 < bytes.length ∧ bytes.take 4 ≠ logMagic.take (min bytes.length 4) then .error .notProtected
    else createFile C keys label salt
  else do
    let salt ← parseHeader (bytes.take logHeaderLen) label
    let core ← Core.new C keys label salt
    let found ← scan C core bytes
    return (bytes.take found.validLen, ⟨core, found.count, found.validLen⟩)

variable (writer : LogWriter)

/-- The bytes of the next record, with sixteen random bytes in its nonce. -/
def record (C : Ciphers) (random : B16) (plain : Bytes) : Except StateError Bytes :=
  let limit := writer.core.label.maxRecordBytes
  if limit < plain.length then .error (.tooLarge plain.length limit)
  else
    let nonce : ByteVec nonceLen := ⟨random.toList ++ toBE 8 writer.seq, by simp [random.length_toList, nonceLen]⟩
    match C.sealDetached writer.core.key nonce (writer.core.aad writer.seq) plain with
    | none => .error .authentication
    | some (ciphertext, tag) =>
      .ok (toLE 4 (nonceLen + plain.length + tagLen) ++ nonce.toList ++ ciphertext ++ tag.toList)

def append (C : Ciphers) (random : B16) (plain : Bytes) (file : Bytes) :
    Except StateError (Bytes × LogWriter) := do
  let bytes ← writer.record C random plain
  return (file ++ bytes, { writer with seq := writer.seq + 1, last := writer.last + bytes.length })

end LogWriter

end Miasma.State
