import Miasma.Chat.Engine.Handed

namespace Miasma.Chat

open Data Protocol Chat.Pq ByteVec Function SingleUse Sample List Chat.Core Note

/-! Message keys are used once, across crashes. -/

variable {S : Suite} {X : Exchange S.Key}

namespace SingleUse

variable {issued : List Envelope} {want : B16 → Option Bytes} {id : B16}

/-! Runs. -/

structure World (S : Suite) (X : Exchange S.Key) where
  core : Core S X
  /-- Ratchet keys drawn so far, with the contact they were drawn for. -/
  drawn : List (B32 × B32)
  /-- Ids given to messages so far. -/
  used : List B16
  notes : List Note

def draws (c : Core S X) : Core.Event S X → List (B32 × B32)
  | .prepareWire id draw _ =>
    (c.outbox.get id).toList.map (fun e => (e.peer, S.publicKey draw.ratchet))
  | .sealFor peer _ draw _ => [(peer, S.publicKey draw.ratchet)]
  | .accept peer _ _ draw _ => [(peer, S.publicKey draw.ratchet)]
  | .acceptRaw peer _ _ draw _ => [(peer, S.publicKey draw.ratchet)]
  | _ => []

def newIds : Core.Event S X → List B16
  | .enqueue _ _ _ id _ => [id]
  | _ => []

/-- The envelopes a call voids.  What the surplus over the budget drops when the log is
opened counts as voided. -/
def voids (c : Core S X) : Core.Event S X → List Note
  -- The entry may be sealed again in the same call.
  | .prepareWire id _ fate => voidedOf c.outbox.entries (c.settledFor id fate).outbox.entries
  | .sealFor peer _ _ fate =>
    voidedOf c.outbox.entries (c.settleRollback peer fate).outbox.entries
  | .restart now mode fate =>
    voidedOf (Outbox.entriesOf c.outbox.log) (c.restart now mode fate).outbox.entries
  | event => voidedOf c.outbox.entries (c.step event).outbox.entries

def hands (c : Core S X) : Core.Event S X → List Note
  | .prepareWire id draw fate => handedOut (some id) (c.prepareWire id draw fate).2
  | .sealFor peer plain draw fate => handedOut none (c.sealFor peer plain draw fate).2
  | _ => []

namespace World

def start (core : Core S X) : World S X := ⟨core, [], [], []⟩

def step (w : World S X) (event : Core.Event S X) : Option (World S X) := some
  { core := w.core.step event
    drawn := w.drawn ++ draws w.core event
    used := w.used ++ newIds event
    notes := w.notes ++ (voids w.core event ++ hands w.core event) }

end World

/-- What is drawn at random was not drawn before. -/
def Fresh (w : World S X) : Core.Event S X → Prop
  | .enqueue _ _ _ id _ => id ∉ w.used
  | .prepareWire _ draw _ => ∀ pair ∈ w.drawn, pair.2 ≠ S.publicKey draw.ratchet
  | .sealFor _ _ draw _ => ∀ pair ∈ w.drawn, pair.2 ≠ S.publicKey draw.ratchet
  | .accept _ _ _ draw _ => ∀ pair ∈ w.drawn, pair.2 ≠ S.publicKey draw.ratchet
  | .acceptRaw _ _ _ draw _ => ∀ pair ∈ w.drawn, pair.2 ≠ S.publicKey draw.ratchet
  | _ => True

instance (w : World S X) (event : Core.Event S X) : Decidable (Fresh w event) := by
  cases event <;> unfold Fresh <;> infer_instance

/-! The notes of a run. -/

/-- The envelope handed out last for each entry, since it was voided last. -/
def Note.track (held : B16 → Option Bytes) : Note → B16 → Option Bytes
  | .returned (some id) bytes => update held id (some bytes)
  | .returned none _ => held
  | .voided id => update held id none

/-- An entry is handed out as it was before. -/
def Steady (held : B16 → Option Bytes) : List Note → Prop
  | [] => True
  | note :: rest =>
    (∀ id bytes, note = .returned (some id) bytes → ∀ old, held id = some old → old = bytes) ∧
      Steady (note.track held) rest

variable {held : B16 → Option Bytes} {notes : List Note} {bytes : Bytes}

theorem steady_append : Steady held (notes ++ more) ↔
    Steady held notes ∧ Steady (notes.foldl track held) more := by
  induction notes generalizing held with
  | nil => simp [Steady]
  | cons note rest ih => simp only [cons_append, Steady, foldl_cons, ih, and_assoc]

theorem voids_track {before after : List OutEntry} :
    Steady held (voidedOf before after) ∧
      ∀ {id bytes}, (voidedOf before after).foldl track held id = some bytes →
        held id = some bytes ∧ .voided id ∉ voidedOf before after := by
  have list : ∀ (entries : List OutEntry) (held : B16 → Option Bytes),
      Steady held (entries.map (voided ·.id)) ∧
        ∀ {id bytes}, (entries.map (voided ·.id)).foldl track held id = some bytes →
          held id = some bytes ∧ voided id ∉ entries.map (voided ·.id) := by
    intro entries
    induction entries with
    | nil => exact fun _ => ⟨trivial, fun asked => ⟨asked, by simp⟩⟩
    | cons e rest ih =>
      intro held
      obtain ⟨steady, tracked⟩ := ih (track held (.voided e.id))
      refine ⟨⟨nofun, steady⟩, ?_⟩
      intro id bytes asked
      obtain ⟨before, absent⟩ := tracked asked
      by_cases same : id = e.id
      · rw [same, track, update_self] at before
        cases before
      rw [track, update_of_ne same] at before
      refine ⟨before, ?_⟩
      rw [map_cons, mem_cons, not_or]
      exact ⟨fun equal => same (voided.inj equal), absent⟩
  exact list _ held

/-- What agrees with `want` stays in agreement while `want` is handed out. -/
theorem handed_track (agree : ∀ {id bytes}, held id = some bytes → want id = some bytes)
    (wanted : ∀ {id bytes}, .returned (some id) bytes ∈ notes → want id = some bytes) :
    Steady held notes ∧ ∀ {id bytes}, notes.foldl track held id = some bytes → want id = some bytes := by
  induction notes generalizing held with
  | nil => exact ⟨trivial, agree⟩
  | cons note rest ih =>
    have tracked : ∀ {id bytes}, note.track held id = some bytes → want id = some bytes := by
      intro id bytes asked
      match note with
      | .returned none _ => exact agree asked
      | .returned (some other) sent =>
        by_cases same : id = other
        · rw [same, track, update_self] at asked
          cases asked
          rw [same]
          exact wanted mem_cons_self
        · rw [track, update_of_ne same] at asked
          exact agree asked
      | .voided other =>
        by_cases same : id = other
        · rw [same, track, update_self] at asked
          cases asked
        · rw [track, update_of_ne same] at asked
          exact agree asked
    obtain ⟨steady, later⟩ := ih tracked (fun there => wanted (mem_cons_of_mem _ there))
    refine ⟨⟨?_, steady⟩, later⟩
    intro id bytes same old asked
    subst same
    have sent := wanted mem_cons_self
    rw [agree asked] at sent
    exact Option.some.inj sent

structure Sound (w : World S X) (issued : List Envelope) (want : B16 → Option Bytes) : Prop where
  safe : Safe w.core issued w.drawn
  kept : Kept w.core.outbox issued w.used want
  limit : w.core.maxText ≤ maxTextBytes
  made : ∀ {entry bytes}, .returned entry bytes ∈ w.notes → ∃ env ∈ issued, bytes = env.encode
  steady : Steady (fun _ => none) w.notes
  agree : ∀ {id bytes}, w.notes.foldl track (fun _ => none) id = some bytes → want id = some bytes

variable {w : World S X}

theorem Sound.step (sound : Sound w issued want) {before after : List OutEntry}
    (moves : ∃ made later, Moves w.core core issued drawn used want (voidedOf before after) handed made later) :
    ∃ made later, Sound ⟨core, drawn, used, w.notes ++ (voidedOf before after ++ handed)⟩ made later := by
  obtain ⟨made, later, moves⟩ := moves
  obtain ⟨voiding, voided⟩ := voids_track
  have carried : ∀ {id bytes}, (voidedOf before after).foldl track
      (w.notes.foldl track (fun _ => none)) id = some bytes → later id = some bytes :=
    fun asked => moves.carried (sound.agree (voided asked).1) (voided asked).2
  obtain ⟨handing, agree⟩ := handed_track carried moves.wanted
  refine ⟨made, later, moves.safe, moves.kept, moves.limit ▸ sound.limit, ?_, ?_, ?_⟩
  · intro entry bytes there
    rcases mem_append.mp there with old | new
    · obtain ⟨env, issued, same⟩ := sound.made old
      exact ⟨env, moves.grows issued, same⟩
    rcases mem_append.mp new with void | sent
    · simp [voidedOf] at void
    · exact moves.made sent
  · exact steady_append.mpr ⟨sound.steady, steady_append.mpr ⟨voiding, handing⟩⟩
  intro id bytes asked
  simp only [foldl_append] at asked
  exact agree asked

theorem World.step_sound {next : World S X} (tagged : S.Tagged) (sound : ∃ issued want, Sound w issued want)
    (fresh : Fresh w event) (stepped : w.step event = some next) : ∃ issued want, Sound next issued want := by
  obtain ⟨issued, want, sound⟩ := sound
  have safe : Safe w.core issued (w.drawn ++ []) := (append_nil w.drawn).symm ▸ sound.safe
  have kept : Kept w.core.outbox issued (w.used ++ []) want := (append_nil w.used).symm ▸ sound.kept
  cases event <;> cases stepped
  case enqueue peer text now id fate =>
    exact sound.step ⟨_, _, enqueue_moves safe sound.kept sound.limit fresh⟩
  case prepareWire id draw fate =>
    exact sound.step (prepareWire_moves sound.safe tagged kept fresh)
  case sealFor peer plain draw fate =>
    exact sound.step (sealFor_moves sound.safe tagged kept fresh)
  case accept peer wire now draw fate =>
    exact sound.step (Moves.clears (sound.safe.accept fresh) kept
      (w.core.accept_limit) (w.core.accept_clears))
  case acceptRaw peer wire handle draw fate =>
    exact sound.step (Moves.clears (sound.safe.acceptRaw fresh) kept
      (w.core.acceptRaw_limit) (w.core.acceptRaw_clears))
  case resetSession peer fate =>
    exact sound.step (Moves.clears (safe.resetSession peer) kept rfl (.void .same fate.note))
  case deleteConversation peer fate =>
    exact sound.step ⟨_, _, deleteConversation_moves safe kept⟩
  case finish id state reason now fate =>
    exact sound.step ⟨_, _, finish_moves safe kept⟩
  case pqStep peer haveText now draw fate =>
    exact sound.step ⟨_, _, .quiet (c := w.core) (safe.pqStep peer) kept rfl⟩
  case pqSent peer out outcome now fate =>
    obtain ⟨limit, outbox⟩ := w.core.pqSent_frame peer
    exact sound.step ⟨_, _, .quiet (safe.pqSent peer) (outbox ▸ kept) limit⟩
  case setMode mode =>
    have changed : Safe { w.core with pq := { w.core.pq with mode := mode } } issued
        (w.drawn ++ []) := ⟨safe.books, safe.placed⟩
    exact sound.step ⟨_, _, .quiet (c := w.core) changed kept rfl⟩
  case evict peer fate =>
    exact sound.step ⟨_, _, .quiet (c := w.core) (safe.evict peer) kept rfl⟩
  case restart now mode fate =>
    obtain ⟨later, opened, carried⟩ := kept.openLog
    have moves : Moves w.core (w.core.restart now mode fate) issued (w.drawn ++ [])
        (w.used ++ []) want (voidedOf (Outbox.entriesOf w.core.outbox.log)
          (w.core.restart now mode fate).outbox.entries) [] issued later :=
      ⟨safe.restart, opened, rfl, Subset.refl _, carried, nofun, nofun⟩
    exact sound.step ⟨_, _, moves⟩

end SingleUse

namespace Sample

/-- The symbolic keys, with a cipher that only adds a tag. -/
def taggedSuite : Suite :=
  { Symbolic.suite with
    aeadSeal := fun _ _ _ plain => plain ++ replicate tagLen 0
    aeadOpen := fun _ _ _ ciphertext => some (ciphertext.take (ciphertext.length - tagLen)) }

def sender : Identity taggedSuite := ⟨fill 32 1, (fill 32 1 : B32), fill 32 1, rfl, rfl⟩

end Sample

end Miasma.Chat
