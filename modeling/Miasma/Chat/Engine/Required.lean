import Miasma.Chat.Engine.Layer

namespace Miasma.Chat

open Data Protocol Chat.Pq Sample ChatStore List Chat.Core Option Outbox Symbolic

/-! No classical fallback under `require`: what happens between `pq_step` and `prepare_wire`, and
the envelope an entry has kept, decide whether the layer key is used. -/

variable {S : Suite} {X : Exchange S.Key}

namespace Required

/-- A sealing of `prepare_wire`, with what `seal_layer` returned for the session. -/
structure Sealing (S : Suite) where
  peer : B32
  layer : Option S.Key
  bytes : Bytes

structure World (S : Suite) (X : Exchange S.Key) where
  core : Core S X
  /-- The contacts `pq_step` answered `Proceed` for and whose standing is still the same. -/
  ready : List B32
  sealings : List (Sealing S)
  /-- The texts returned under `require`: the contact and the bytes. -/
  sent : List (B32 × Bytes)

/-- The entry holds an envelope that can be sent as it is. -/
def cached (e : OutEntry) : Bool := e.sealed.any (fun bytes => (Envelope.decode bytes).toOption.isSome)

variable (c : Core S X)

def layerFor (peer : B32) (draw : SealDraw S) : Option S.Key :=
  match sessionFor c.identity peer draw (c.stateOf peer).session with
  | .error _ => none
  | .ok s => (c.pq.sealKey peer s.originEk).2

/-- What sealing an entry makes, whatever becomes of its writes. -/
def sealingOf (e : OutEntry) (draw : SealDraw S) : List (Sealing S) := match plainOf e with
  | .error _ => []
  | .ok plain =>
    match (c.sealOn e.peer plain draw).2 with
    | .error _ => []
    | .ok env => [⟨e.peer, layerFor c e.peer draw, env.encode⟩]

/-- What a text to the contact is sealed by: the mode, the session in memory and its hybrid record. -/
def standing (peer : B32) : PqcMode × Option B32 × Option (B32 × Phase × Bool) :=
  (c.pq.mode, ((c.store.peers.get? peer).bind (·.state.session)).map Session.originEk,
    (c.pq.peers.get? peer).map fun p => (p.sid, p.phase, p.key.isSome))

def readyAfter (w : World S X) (event : Core.Event S X) : List B32 :=
  let kept := w.ready.filter fun peer => standing (w.core.step event) peer = standing w.core peer
  match event with
  | .pqStep peer haveText now draw fate =>
    if haveText ∧ (w.core.pqStep peer haveText now draw fate).2 = .proceed then peer :: kept else kept
  | _ => kept

def seals : Core.Event S X → List (Sealing S)
  | .prepareWire id draw fate =>
    match (c.settledFor id fate).outbox.get id with
    | none => []
    | some e => if cached e then [] else sealingOf (c.settledFor id fate) e draw
  | _ => []

def sends : Core.Event S X → List (B32 × Bytes)
  | .prepareWire id draw fate =>
    match (c.settledFor id fate).outbox.get id, (c.prepareWire id draw fate).2 with
    | some e, .ok (bytes, _) =>
      if e.kind = .text ∧ c.pq.mode = .require then [(e.peer, bytes)] else []
    | _, _ => []
  | _ => []

namespace World

def start (core : Core S X) : World S X := ⟨core, [], [], []⟩

def step (w : World S X) (event : Core.Event S X) : Option (World S X) := some
  { core := w.core.step event
    ready := readyAfter w event
    sealings := w.sealings ++ seals w.core event
    sent := w.sent ++ sends w.core event }

end World

/-- The bytes were sealed for the contact with the layer key of the session. -/
def Layered (sealings : List (Sealing S)) (peer : B32) (bytes : Bytes) : Prop :=
  ∃ made ∈ sealings, made.peer = peer ∧ made.bytes = bytes ∧ made.layer.isSome

/-- No text holds an envelope, in memory or in the log. -/
def Unsealed (ob : Outbox) : Prop := (∀ e ∈ ob.entries, e.kind = .text → e.sealed = none) ∧
    ∀ e ∈ entriesOf ob.log, e.kind = .text → e.sealed = none

instance (ob : Outbox) : Decidable (Unsealed ob) := inferInstanceAs (Decidable (_ ∧ _))

/-- A text is sealed under `require` only while its contact stands as when `pq_step` let it go, on a
session that was not rolled back; `require` starts with no text sealed before; ids are new. -/
def Gated (w : World S X) : Core.Event S X → Prop
  | .enqueue _ _ _ id _ => (∀ e ∈ w.core.outbox.entries, e.id ≠ id) ∧
      ∀ e ∈ entriesOf w.core.outbox.log, e.id ≠ id
  | .prepareWire id _ fate =>
    ∀ e ∈ w.core.outbox.get id, w.core.pq.mode = .require → e.kind = .text →
      (e.peer ∈ w.ready ∧ (w.core.store.takeRollback e.peer).2 = false) ∨
        ((w.core.settledFor id fate).outbox.get id).any cached = true
  | .setMode mode => mode = .require → w.core.pq.mode ≠ .require → Unsealed w.core.outbox
  | .restart _ mode _ => mode = .require → w.core.pq.mode ≠ .require → Unsealed w.core.outbox
  | _ => True

instance (w : World S X) : (event : Core.Event S X) → Decidable (Gated w event)
  | .enqueue .. => inferInstanceAs (Decidable (_ ∧ _))
  | .prepareWire .. => inferInstanceAs (Decidable (∀ _ ∈ _, _))
  | .setMode _ | .restart .. => inferInstanceAs (Decidable (_ → _))
  | .sealFor .. | .accept .. | .acceptRaw .. | .resetSession .. | .deleteConversation .. | .finish .. | .pqStep ..
  | .pqSent .. | .evict .. => .isTrue trivial

/-! What a run keeps. -/

/-- The session of `peer` is in memory and its hybrid record is active. -/
def Ready (peer : B32) : Prop :=
  ∃ slot s p, c.store.peers.get? peer = some slot ∧ slot.state.session = some s ∧
    c.pq.peers.get? peer = some p ∧ p.sid = s.originEk ∧ p.phase = .active ∧ p.key.isSome

/-- `about` says what each entry is; a text sealed under `require` is layered. -/
structure Entry (about : B16 → Option (OutKind × B32)) (mode : PqcMode)
    (sealings : List (Sealing S)) (e : OutEntry) : Prop where
  valid : e.Valid
  about : about e.id = some (e.kind, e.peer)
  layered : ∀ {bytes}, mode = .require → e.kind = .text → e.sealed = some bytes → Layered sealings e.peer bytes

structure Sound (w : World S X) (about : B16 → Option (OutKind × B32)) : Prop where
  keyed : w.core.pq.Keyed
  limit : w.core.maxText ≤ maxTextBytes
  outbox : w.core.outbox.Each (Entry about w.core.pq.mode w.sealings)
  sent : ∀ pair ∈ w.sent, Layered w.sealings pair.1 pair.2

def Settled (w : World S X) : Prop := ∀ peer ∈ w.ready, w.core.pq.mode = .require → Ready w.core peer

variable {w : World S X} {about : B16 → Option (OutKind × B32)} {mode : PqcMode}
  {made more : List (Sealing S)} {e : OutEntry} {peer : B32} {c next : Core S X}

theorem Layered.grow (layered : Layered made peer bytes) : Layered (made ++ more) peer bytes := by
  obtain ⟨found, there, facts⟩ := layered
  exact ⟨found, mem_append_left _ there, facts⟩

theorem Entry.grow (entry : Entry about mode made e) (more : List (Sealing S)) : Entry about mode (made ++ more) e :=
  ⟨entry.valid, entry.about, fun required text sealed =>
    (entry.layered required text sealed).grow⟩

theorem Entry.bare (entry : Entry about mode made e) : Entry about mode made e.bare :=
  ⟨⟨entry.valid.parsed, nofun⟩, entry.about, nofun⟩

variable {fate : Fate} {ready : List B32}

theorem ready_of_proceed (keyed : c.pq.Keyed) (mode : c.pq.mode = .require)
    (told : (c.pqStep peer true now draw fate).2 = .proceed) :
    Ready (c.pqStep peer true now draw fate).1 peer := by
  have passed : c.pq.pass peer ((c.stateOf peer).session.map Session.originEk) true now draw
      fate.document = ((c.pqStep peer true now draw fate).1.pq, .proceed) := Prod.ext rfl told
  obtain ⟨current, p, known, found, own, active, key⟩ := PqState.pass_proceed keyed mode passed
  obtain ⟨s, session, origin⟩ := map_eq_some_iff.mp known
  exact ⟨_, s, p, slot_found, session, found, own.trans origin.symm, active, key⟩

theorem Ready.of_standing (ready : Ready c peer) (same : standing next peer = standing c peer) : Ready next peer := by
  obtain ⟨slot, s, p, found, session, record, own, active, key⟩ := ready
  simp only [standing, found, session, record, Prod.mk.injEq, map_some, bind_some] at same
  obtain ⟨-, origin, known⟩ := same
  obtain ⟨later, there, origin⟩ := map_eq_some_iff.mp origin
  obtain ⟨slot, found, session⟩ := bind_eq_some_iff.mp there
  obtain ⟨q, record, facts⟩ := map_eq_some_iff.mp known
  simp only [Prod.mk.injEq] at facts
  obtain ⟨sid, phase, kept⟩ := facts
  exact ⟨slot, later, q, found, session, record, by rw [sid, own, origin], phase.trans active, kept.trans key⟩

theorem Ready.layerFor (ready : Ready c peer) (fine : (c.store.takeRollback peer).2 = false) :
    (layerFor (c.settleRollback peer fate) peer draw).isSome := by
  obtain ⟨slot, s, p, found, session, record, own, active, key⟩ := ready
  have settled : c.settleRollback peer fate = { c with store := (c.store.takeRollback peer).1 } := by
    simp only [settleRollback, fine]
    rfl
  have state : (c.settleRollback peer fate).stateOf peer = slot.state := by
    rw [settled]
    have loaded : (c.store.takeRollback peer).1.peers.get? peer = some slot := by
      simp only [takeRollback, slot_of_found found]
      exact found
    simp only [stateOf, slot_of_found loaded]
  have sealing : (c.pq.sealKey peer s.originEk).2 = p.key := PqState.sealKey_active record own active
  unfold Required.layerFor
  rw [state, session]
  simp only [sessionFor, settled, sealing]
  exact key

/-! One step. -/

theorem each_clears {before after : Outbox} (each : before.Each (Entry about mode made))
    (clears : Clears peer before after) : after.Each (Entry about mode made) :=
  clears.each each (fun _ _ _ _ _ entry _ => entry.bare)

variable {id : B16}

section

variable (sound : Sound w about)
include sound

theorem Sound.unsealing (keyed : next.pq.Keyed) (limit : next.maxText = w.core.maxText)
    (each : next.outbox.Each (Entry about' next.pq.mode w.sealings)) :
    Sound ⟨next, ready, w.sealings ++ [], w.sent ++ []⟩ about' := by
  rw [append_nil, append_nil]
  exact ⟨keyed, limit ▸ sound.limit, each, sound.sent⟩

theorem Sound.quiet (keeps : PqState.Keeps w.core.pq next.pq) (limit : next.maxText = w.core.maxText)
    (each : next.outbox.Each (Entry about' w.core.pq.mode w.sealings)) :
    Sound ⟨next, ready, w.sealings ++ [], w.sent ++ []⟩ about' :=
  sound.unsealing (keeps.keyed sound.keyed) limit (keeps.mode.symm ▸ each)

theorem Sound.enqueue (fresh : ∀ e ∈ w.core.outbox.entries, e.id ≠ id)
    (unlogged : ∀ e ∈ entriesOf w.core.outbox.log, e.id ≠ id) :
    ∃ about', Sound ⟨(w.core.enqueue peer text now id fate).1, ready, w.sealings ++ [], w.sent ++ []⟩ about' := by
  obtain ⟨limit, outbox⟩ := w.core.enqueue_frame sound.limit
  have still : ∀ {about'}, (w.core.enqueue peer text now id fate).1.outbox.Each
      (Entry about' w.core.pq.mode w.sealings) →
      Sound ⟨(w.core.enqueue peer text now id fate).1, ready, w.sealings ++ [], w.sent ++ []⟩ about' :=
    fun each => sound.quiet (by rw [w.core.enqueue_pq peer]; exact .refl) limit each
  rcases outbox with same | ⟨seq, valid, pushed⟩
  · refine ⟨about, still ?_⟩
    rw [same]
    exact sound.outbox
  refine ⟨Function.update about id (some (.text, peer)), still ?_⟩
  have moved : w.core.outbox.Each (Entry (Function.update about id (some (.text, peer)))
      w.core.pq.mode w.sealings) := by
    have kept : ∀ {e}, e.id ≠ id → Entry about w.core.pq.mode w.sealings e →
        Entry (Function.update about id (some (.text, peer))) w.core.pq.mode w.sealings e :=
      fun other entry => ⟨entry.valid, by rw [Function.update_of_ne other]; exact entry.about, entry.layered⟩
    exact ⟨sound.outbox.distinct, sound.outbox.logged,
      fun e there => kept (fresh e there) (sound.outbox.memory e there),
      fun e there => kept (unlogged e there) (sound.outbox.disk e there)⟩
  rw [pushed]
  refine moved.push valid ⟨OutEntry.parsed_valid valid, ?_, nofun⟩ fresh unlogged
  exact Function.update_self _ _ _

theorem Sound.finish :
    Sound ⟨w.core.finish id state reason now fate, ready, w.sealings ++ [], w.sent ++ []⟩ about := by
  obtain ⟨limit, outbox⟩ := w.core.finish_frame
  refine sound.quiet (by rw [w.core.finish_pq]; exact .refl) limit ?_
  rcases outbox with same | removed
  · rw [same]
    exact sound.outbox
  · rw [removed]
    exact sound.outbox.remove (·.valid)

/-- The mode changes: under `require` nothing classical is left to be sent. -/
theorem Sound.change (unsealed : mode = .require → w.core.pq.mode ≠ .require → Unsealed w.core.outbox) :
    w.core.outbox.Each (Entry about mode w.sealings) := by
  by_cases before : w.core.pq.mode = .require
  · refine sound.outbox.mono (fun entry => ⟨entry.valid, entry.about, ?_⟩)
    exact fun _ text sealed => entry.layered before text sealed
  have bare : ∀ {e}, Entry about w.core.pq.mode w.sealings e →
      (mode = .require → e.kind = .text → e.sealed = none) → Entry about mode w.sealings e := by
    intro e entry none
    refine ⟨entry.valid, entry.about, ?_⟩
    intro bytes required text sealed
    rw [none required text] at sealed
    cases sealed
  exact ⟨sound.outbox.distinct, sound.outbox.logged, fun e there => bare (sound.outbox.memory e there)
      (fun required => (unsealed required before).1 e there),
    fun e there => bare (sound.outbox.disk e there) (fun required => (unsealed required before).2 e there)⟩

end

/-! Sealing a text. -/

theorem prepareWire_eq {c : Core S X} :
    c.prepareWire id draw fate = match (c.settledFor id fate).outbox.get id with
      | none => (c.settledFor id fate, .error .gone)
      | some e =>
        match e.sealed with
        | none => (c.settledFor id fate).sealEntry e draw fate
        | some bytes =>
          match Envelope.decode bytes with
          | .ok env => (c.settledFor id fate, .ok (bytes, env.id))
          | .error _ => (c.settledFor id fate).sealEntry e draw fate := by
  unfold prepareWire settledFor
  cases held : c.outbox.get id with
  | none => simp only [held]
  | some e => rfl

variable {draw : SealDraw S}

theorem prepareWire_cached (found : (c.settledFor id fate).outbox.get id = some e) (kept : cached e = true) :
    ∃ bytes label, e.sealed = some bytes ∧
      c.prepareWire id draw fate = (c.settledFor id fate, .ok (bytes, label)) := by
  obtain ⟨bytes, sealed, decodes⟩ := (any_eq_true _ _).mp kept
  rw [prepareWire_eq, found]
  dsimp only
  rw [sealed]
  dsimp only
  cases decoded : Envelope.decode bytes with
  | ok env => exact ⟨bytes, env.id, rfl, rfl⟩
  | error =>
    rw [decoded] at decodes
    cases decodes

theorem prepareWire_sealed (found : (c.settledFor id fate).outbox.get id = some e) (uncached : cached e = false) :
    c.prepareWire id draw fate = (c.settledFor id fate).sealEntry e draw fate := by
  rw [prepareWire_eq, found]
  dsimp only
  split
  · rfl
  split
  · simp_all [cached, Except.toOption]
  · rfl

theorem settledFor_clears (c : Core S X) (id : B16) (fate : Fate) :
    ∃ peer, Clears peer c.outbox (c.settledFor id fate).outbox := by
  unfold settledFor
  split
  · exact ⟨default, .same⟩
  rename_i e _
  exact ⟨e.peer, c.settleRollback_clears e.peer fate⟩

theorem settledFor_limit (c : Core S X) (id : B16) (fate : Fate) :
    (c.settledFor id fate).maxText = c.maxText := by
  unfold settledFor
  split
  · rfl
  · exact c.settleRollback_limit _

/-- A text that is sealed under `require` is sealed with the layer key. -/
theorem Sound.layer (sound : Sound w about) (settled : Settled w)
    (gated : Gated w (.prepareWire id draw fate)) (required : w.core.pq.mode = .require)
    (found : (w.core.settledFor id fate).outbox.get id = some e) (text : e.kind = .text)
    (uncached : cached e = false) :
    (layerFor (w.core.settledFor id fate) e.peer draw).isSome := by
  cases held : w.core.outbox.get id with
  | none =>
    unfold settledFor at found
    rw [held] at found
    cases held.symm.trans found
  | some old =>
    obtain ⟨peer, clears⟩ := settledFor_clears w.core id fate
    have each := each_clears sound.outbox clears
    obtain ⟨there, key⟩ := each.distinct.find?_eq_some_iff.mp found
    obtain ⟨first, same⟩ := sound.outbox.distinct.find?_eq_some_iff.mp held
    have known := (each.memory e there).about
    rw [key, ← same, (sound.outbox.memory old first).about] at known
    obtain ⟨kind, own⟩ := Prod.mk.inj (some.inj known)
    rcases gated old held required (kind.trans text) with ⟨ready, fine⟩ | kept
    · have same : w.core.settledFor id fate = w.core.settleRollback old.peer fate := by
        unfold settledFor
        rw [held]
      rw [same, ← own]
      exact (settled old.peer ready required).layerFor fine
    · rw [found, any_some, uncached] at kept
      cases kept

theorem seals_entry (each : settled.outbox.Each (Entry about mode made))
    (found : settled.outbox.get e.id = some e)
    (layer : mode = .require → e.kind = .text → (layerFor settled e.peer draw).isSome)
    (seals : SealsEntry settled e draw fate next result) :
    next.maxText = settled.maxText ∧ next.outbox.Each (Entry about mode (made ++ sealingOf settled e draw)) ∧
      ∀ bytes label, result = .ok (bytes, label) → mode = .require → e.kind = .text →
        Layered (made ++ sealingOf settled e draw) e.peer bytes := by
  have grown := each.mono (fun entry => entry.grow (sealingOf settled e draw))
  cases seals with
  | refused => exact ⟨rfl, grown, nofun⟩
  | @unsealed plain _ _ _ sealed =>
    obtain ⟨outbox, limit⟩ := settled.sealOn_frame e.peer plain draw
    rw [sealed] at outbox limit
    exact ⟨limit, outbox ▸ grown, nofun⟩
  | @unwritten plain _ _ _ _ sealed flushed =>
    obtain ⟨outbox, limit⟩ := settled.sealOn_frame e.peer plain draw
    rw [sealed] at outbox limit
    have frame := congrArg (fun pair => (pair.1.outbox, pair.1.maxText)) flushed
    obtain ⟨same, bound⟩ := Prod.mk.inj frame
    exact ⟨bound.symm.trans limit, same ▸ outbox ▸ grown, nofun⟩
  | @kept plain mid last env outbox' set room plainOf sealed flushed given =>
    obtain ⟨outbox, limit⟩ := settled.sealOn_frame e.peer plain draw
    rw [sealed] at outbox limit
    have frame := congrArg (fun pair => (pair.1.outbox, pair.1.maxText)) flushed
    obtain ⟨same, bound⟩ := Prod.mk.inj frame
    have kept : last.outbox = settled.outbox := same.symm.trans outbox
    have sealing : sealingOf settled e draw = [⟨e.peer, layerFor settled e.peer draw, env.encode⟩] := by
      simp only [sealingOf, plainOf, sealed]
    have layered : mode = .require → e.kind = .text →
        Layered (made ++ sealingOf settled e draw) e.peer env.encode := by
      intro required text
      rw [sealing]
      exact ⟨⟨e.peer, layerFor settled e.peer draw, env.encode⟩, by simp, rfl, rfl, layer required text⟩
    obtain ⟨there, -⟩ := each.distinct.find?_eq_some_iff.mp found
    have after : (last.outbox.setSealed e.id env.encode fate.log).1.Each
        (Entry about mode (made ++ sealingOf settled e draw)) := by
      refine Each.setSealed (kept ▸ grown) ?_ fate.log
      intro size other entry same
      refine ⟨⟨entry.valid.parsed, ?_⟩, entry.about, ?_⟩
      · intro bytes held
        cases held
        exact size
      -- Every copy of the entry is for the same contact and of the same kind.
      intro bytes required text held
      cases held
      have known := entry.about
      rw [same, (each.memory e there).about] at known
      obtain ⟨kind, own⟩ := Prod.mk.inj (some.inj known)
      change Layered _ other.peer env.encode
      rw [← own]
      exact layered required (kind.trans text)
    rw [given] at after
    refine ⟨bound.symm.trans limit, after, ?_⟩
    intro bytes label ok
    cases set with
    | error => cases ok
    | ok =>
      cases ok
      exact layered

theorem mem_sends (member : pair ∈ sends c (.prepareWire id draw fate)) :
    ∃ e label, (c.settledFor id fate).outbox.get id = some e ∧
      (c.prepareWire id draw fate).2 = .ok (pair.2, label) ∧ pair.1 = e.peer ∧
      e.kind = .text ∧ c.pq.mode = .require := by
  simp only [sends] at member
  split at member
  · rename_i e bytes label found result
    split at member
    · rename_i asked
      rw [mem_singleton.mp member]
      exact ⟨e, label, found, result, rfl, asked.1, asked.2⟩
    · cases member
  · cases member

theorem Sound.prepareWire (sound : Sound w about) (settled : Settled w) (gated : Gated w (.prepareWire id draw fate)) :
    Sound ⟨(w.core.prepareWire id draw fate).1, ready, w.sealings ++ seals w.core (.prepareWire id draw fate),
      w.sent ++ sends w.core (.prepareWire id draw fate)⟩ about := by
  obtain ⟨peer, clears⟩ := settledFor_clears w.core id fate
  have each := each_clears sound.outbox clears
  have keeps := w.core.settledFor_keeps id fate
  have limit := settledFor_limit w.core id fate
  -- What is left of the engine, and what it returned for a text.
  suffices facts : PqState.Keeps w.core.pq (w.core.prepareWire id draw fate).1.pq ∧
      (w.core.prepareWire id draw fate).1.maxText = w.core.maxText ∧
      (w.core.prepareWire id draw fate).1.outbox.Each (Entry about w.core.pq.mode
        (w.sealings ++ seals w.core (.prepareWire id draw fate))) ∧
      ∀ e bytes label, (w.core.settledFor id fate).outbox.get id = some e →
        (w.core.prepareWire id draw fate).2 = .ok (bytes, label) → w.core.pq.mode = .require →
        e.kind = .text →
        Layered (w.sealings ++ seals w.core (.prepareWire id draw fate)) e.peer bytes by
    obtain ⟨moved, bound, after, layered⟩ := facts
    refine ⟨moved.keyed sound.keyed, bound ▸ sound.limit, ?_, ?_⟩
    · dsimp only
      rw [moved.mode]
      exact after
    intro pair member
    rcases mem_append.mp member with old | new
    · exact (sound.sent pair old).grow
    obtain ⟨e, label, found, result, own, text, required⟩ := mem_sends new
    rw [own]
    exact layered e pair.2 label found result required text
  cases found : (w.core.settledFor id fate).outbox.get id with
  | none =>
    have gone : w.core.prepareWire id draw fate = (w.core.settledFor id fate, .error .gone) := by
      rw [prepareWire_eq, found]
    rw [gone]
    exact ⟨keeps, limit, each.mono (·.grow _), nofun⟩
  | some e =>
    obtain ⟨there, key⟩ := each.distinct.find?_eq_some_iff.mp found
    subst key
    cases kept : cached e with
    | true =>
      obtain ⟨bytes, label, sealed, done⟩ := prepareWire_cached found kept
      rw [done]
      refine ⟨keeps, limit, each.mono (·.grow _), ?_⟩
      intro held answer label same result required text
      cases same
      cases result
      exact ((each.memory e there).layered required text sealed).grow
    | false =>
      have layer := fun required text => sound.layer settled gated required found text kept
      have sealing := (w.core.settledFor e.id fate).sealEntry_cases e draw fate
      obtain ⟨bound, after, layered⟩ := seals_entry each found layer sealing
      have made : seals w.core (.prepareWire e.id draw fate) = sealingOf (w.core.settledFor e.id fate) e draw := by
        simp only [seals, found, kept]
        rfl
      rw [prepareWire_sealed found kept, made]
      refine ⟨keeps.trans sealing.keeps, bound.trans limit, after, ?_⟩
      intro held bytes label same result required text
      cases same
      exact layered bytes label result required text

theorem Settled.step (settled : Settled w) (keyed : w.core.pq.Keyed) (event : Core.Event S X) :
    ∀ peer ∈ readyAfter w event, (w.core.step event).pq.mode = .require → Ready (w.core.step event) peer := by
  have kept peer (there : peer ∈ w.ready.filter fun peer => standing (w.core.step event) peer = standing w.core peer)
      (required : (w.core.step event).pq.mode = .require) : Ready (w.core.step event) peer := by
    obtain ⟨before, same⟩ := mem_filter.mp there
    have same := of_decide_eq_true same
    exact (settled peer before ((congrArg Prod.fst same).symm.trans required)).of_standing same
  unfold readyAfter
  split
  · rename_i peer haveText now draw fate
    split
    · rename_i told
      refine forall_mem_cons.mpr ⟨fun required => ?_, kept⟩
      have keeps : PqState.Keeps w.core.pq (w.core.pqStep peer haveText now draw fate).1.pq := .pass w.core.pq
      obtain ⟨rfl, proceeds⟩ := told
      exact ready_of_proceed keyed (keeps.mode.symm.trans required) proceeds
    · exact kept
  · exact kept

theorem World.step_sound {next : World S X} (held : (∃ about, Sound w about) ∧ Settled w) (gated : Gated w event)
    (stepped : w.step event = some next) : (∃ about, Sound next about) ∧ Settled next := by
  obtain ⟨⟨about, sound⟩, settled⟩ := held
  refine ⟨?_, some.inj stepped ▸ settled.step sound.keyed event⟩
  cases event <;> cases stepped
  case enqueue peer text now id fate => exact sound.enqueue gated.1 gated.2
  case prepareWire id draw fate => exact ⟨about, sound.prepareWire settled gated⟩
  case sealFor peer plain draw fate =>
    obtain ⟨limit, outbox⟩ := w.core.sealFor_frame peer
    exact ⟨about, sound.quiet (w.core.sealFor_keeps peer) limit
      (outbox ▸ each_clears sound.outbox (w.core.settleRollback_clears peer fate))⟩
  case accept peer wire now draw fate =>
    exact ⟨about, sound.quiet (w.core.accept_keeps peer)
      (w.core.accept_limit)
      (each_clears sound.outbox (w.core.accept_clears))⟩
  case acceptRaw peer wire handle draw fate =>
    exact ⟨about, sound.quiet (w.core.acceptRaw_keeps peer)
      (w.core.acceptRaw_limit)
      (each_clears sound.outbox (w.core.acceptRaw_clears))⟩
  case resetSession peer fate =>
    exact ⟨about, sound.quiet (.forget w.core.pq) rfl (each_clears sound.outbox (.void .same fate.note))⟩
  case deleteConversation peer fate =>
    obtain ⟨limit, outbox⟩ := w.core.deleteConversation_frame peer
    exact ⟨about, sound.quiet (w.core.deleteConversation_keeps peer) limit
      (outbox ▸ sound.outbox.removeEach (·.valid))⟩
  case finish id state reason now fate => exact ⟨about, sound.finish⟩
  case pqStep peer haveText now draw fate =>
    have keeps : PqState.Keeps w.core.pq (w.core.pqStep peer haveText now draw fate).1.pq :=
      .pass w.core.pq
    have each : (w.core.pqStep peer haveText now draw fate).1.outbox.Each
        (Entry about w.core.pq.mode w.sealings) := sound.outbox
    exact ⟨about, sound.quiet keeps rfl each⟩
  case pqSent peer out outcome now fate =>
    obtain ⟨limit, outbox⟩ := w.core.pqSent_frame peer
    exact ⟨about, sound.quiet (w.core.pqSent_keeps) limit (outbox ▸ sound.outbox)⟩
  case setMode mode =>
    have keyed : ({ w.core.pq with mode := mode } : PqState X).Keyed := ⟨sound.keyed.memory, sound.keyed.disk⟩
    exact ⟨about, sound.unsealing keyed rfl (sound.change gated)⟩
  case evict peer fate => exact ⟨about, sound.quiet .refl rfl sound.outbox⟩
  case restart now mode fate =>
    have each : (w.core.restart now mode fate).outbox.Each (Entry about mode w.sealings) := by
      have changed := sound.change gated
      exact Each.openLog changed.logged changed.disk (·.valid)
        (fun e there _ _ => (changed.disk e there).bare)
    exact ⟨about, sound.unsealing (sound.keyed.restart) rfl each⟩

end Required

open Required in
/-- In every run whose calls are gated, each text that `prepare_wire` returned under
`require` was sealed with the layer key of its session. -/
theorem required_layered_of_gated (anchor : Option Anchor) (settings : StoreSettings)
    (identity : Identity S) (maxMessageBytes : Nat) (events : List (Core.Event S X))
    (last : Required.World S X)
    (gated : Along Required.World.step Gated (.start (new X anchor settings identity maxMessageBytes)) events)
    (ran : run Required.World.step (.start (new X anchor settings identity maxMessageBytes)) events = some last) :
    ∀ pair ∈ last.sent, Layered last.sealings pair.1 pair.2 := by
  have start : (∃ about, Sound (World.start (new X anchor settings identity maxMessageBytes)) about) ∧
      Settled (World.start (new X anchor settings identity maxMessageBytes)) := by
    refine ⟨⟨fun _ => none, PqState.Keyed.new, ?_, Each.empty, nofun⟩, nofun⟩
    exact Nat.max_le.mpr ⟨by decide, Nat.min_le_right _ _⟩
  obtain ⟨⟨about, sound⟩, -⟩ := invariant_of_run World.step_sound start gated ran
  exact sound.sent

/-! `alice` starts a session and the upgrade; `bob` requires it. -/

namespace Sample

/-- The records of an upgrade `alice` runs, when `bob` draws the coins 22. -/
def upgradeRecords : List Bytes :=
  let msg1 : Bytes := [1, 1, 0, 2] ++ replicate 32 11
  let frames := (fragmentMessage 5 suiteIdHybrid msg1 fragmentPayload).toOption.getD []
  [[kindOffer, 1], kindInit :: frames.flatten, kindConfirm :: replicate 32 22]

def wires : Session suite → UInt8 → List Bytes → List Bytes
  | _, _, [] => []
  | s, byte, plain :: rest =>
    match s.sealWith (ByteVec.fill 16 byte) plain none with
    | (next, .ok env) => env.encode :: wires next (byte + 1) rest
    | (_, .error _) => []

/-- First flights of `alice`, on a session of her own. -/
def flights (byte : UInt8) (records : List Bytes) : List Bytes :=
  match Session.newInitiator alice bob.id (sealing byte).ek (sealing byte).ratchet with
  | .ok s => wires s (byte + 2) records
  | .error _ => []

def receive (byte : UInt8) (wire : Bytes) : Core.Event suite exchange :=
  .accept alice.id wire 1000 (opening byte) (.done default)

def responses : List Outgoing :=
  let msg2 : Bytes := [2, 1, 0, 2] ++ replicate 32 22
  let frames := (fragmentMessage 5 suiteIdHybrid msg2 fragmentPayload).toOption.getD []
  frames.map (Outgoing.mk kindResp) ++ [⟨kindConfirm, replicate 32 22⟩, ⟨kindOffer, [1]⟩]

def ask : Core.Event suite exchange :=
  .pqStep alice.id true 1000 ⟨(ByteVec.fill 32 9 : B32), 9⟩ (.done default)

def prepare : Core.Event suite exchange := .prepareWire (ByteVec.fill 16 7) (sealing 30) (.done default)

/-- `bob` queues a text and `pq_step` lets it go. -/
def upgraded : List (Core.Event suite exchange) := [.setMode .require] ++
    (flights 10 upgradeRecords).mapIdx (fun index wire => receive (21 + UInt8.ofNat index) wire) ++
    [.enqueue alice.id "secret" 1000 (ByteVec.fill 16 7) (.done default)] ++
    responses.flatMap (fun out => [ask, .pqSent alice.id out .delivered 1000 (.done default)]) ++
    [ask]

/-- `alice` lost her state and starts another session. -/
def restarted : List (Core.Event suite exchange) := (flights 40 [[kindOffer, 1]]).map (receive 50)

end Sample

open Required in
theorem required_layered_of_upgraded : ∃ last, ∃ pair ∈ last.sent, run Required.World.step (.start (coreOf bob 100))
        (upgraded ++ [prepare]) = some last ∧
      Layered last.sealings pair.1 pair.2 := by
  have gated : Along Required.World.step Gated (.start (coreOf bob 100)) (upgraded ++ [prepare]) := by decide +kernel
  have observed : (run Required.World.step (.start (coreOf bob 100))
      (upgraded ++ [prepare])).any (!·.sent.isEmpty) = true := by
    decide +kernel
  obtain ⟨last, ran, some⟩ := (any_eq_true _ _).mp observed
  obtain ⟨pair, there⟩ := isEmpty_eq_false_iff_exists_mem.mp (by simpa using some)
  have layered := required_layered_of_gated none settings bob 100 (upgraded ++ [prepare]) last gated ran pair there
  exact ⟨last, pair, there, ran, layered⟩

open Required in
/-- `pq_step` answers `Proceed` on the upgraded session; an envelope that replaces the
session arrives; `prepare_wire` seals the text without the layer. -/
theorem replaced_session_falls_back : ∃ before last, ∃ pair ∈ last.sent,
    run Required.World.step (.start (coreOf bob 100)) upgraded = some before ∧
      alice.id ∈ before.ready ∧ before.core.pq.mode = .require ∧
      run Required.World.step before (restarted ++ [prepare]) = some last ∧
      ¬ Layered last.sealings pair.1 pair.2 := by
  have observed : (run Required.World.step (.start (coreOf bob 100))
      upgraded).any (fun before => alice.id ∈ before.ready ∧ before.core.pq.mode = .require ∧
        (run Required.World.step before (restarted ++ [prepare])).any (fun last =>
          !last.sent.isEmpty && last.sealings.all (·.layer.isNone)) = true) =
      true := by decide +kernel
  obtain ⟨before, reached, ready, required, later⟩ := exists_of_any observed
  obtain ⟨last, ran, facts⟩ := (any_eq_true _ _).mp later
  obtain ⟨some, bare⟩ := Bool.and_eq_true_iff.mp facts
  obtain ⟨pair, there⟩ := isEmpty_eq_false_iff_exists_mem.mp (by simpa using some)
  refine ⟨before, last, pair, there, reached, ready, required, ran, ?_⟩
  rintro ⟨made, there, -, -, layered⟩
  rw [isNone_iff_eq_none.mp (all_eq_true.mp bare made there)] at layered
  cases layered

end Miasma.Chat
