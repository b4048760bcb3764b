import Miasma.Chat.Pq

namespace Miasma.Chat.Pq

open Data Protocol PqState Peer SortedMap

/-! The gate of `require`: an active record has a key, in memory and on disk. -/

variable {Key : Type} {X : Exchange Key}

namespace Peer

def Keyed (p : Peer X) : Prop := p.phase = .active → p.key.isSome

variable {p next : Peer X} {env : Env} {draw : Draw X}

theorem keyed_of_phase (phase : Phase) (inactive : phase ≠ .active) (same : p.phase = phase) : p.Keyed := by
  intro active
  rw [same] at active
  exact absurd active inactive

theorem Keyed.of_same (keyed : p.Keyed) (phase : next.phase = p.phase) (key : next.key = p.key) : next.Keyed := by
  intro active
  rw [key]
  exact keyed (phase.symm.trans active)

theorem keyed_fresh (sid : B32) : (fresh X sid).Keyed := keyed_of_phase .new (by decide) rfl

section

variable (p : Peer X) (env : Env) (why : Reason)

theorem keyed_failWith (tell : Bool) : (p.failWith env why tell).Keyed := keyed_of_phase .failed (by decide) rfl

theorem keyed_markFailed : (p.markFailed env why).Keyed := p.keyed_failWith env why _

theorem keyed_markClassical : (p.markClassical env why).Keyed := by
  unfold markClassical
  split
  · exact p.keyed_markFailed env why
  · exact keyed_of_phase .classical (by decide) rfl

theorem keyed_conclude : (p.conclude env forced).Keyed := by
  unfold conclude
  split
  · exact p.keyed_markClassical env _
  generalize (if X.readableOffer p.ourOffer then p.ourOffer else X.currentOffer) = ours
  generalize (if p.peerOffer = [] then none else some p.peerOffer) = wire
  dsimp only
  split
  · exact keyed_of_phase .kex (by decide) rfl
  · exact p.keyed_markClassical env _

@[simp] theorem sid_markClassical : (p.markClassical env why).sid = p.sid := by
  unfold markClassical
  split <;> rfl

@[simp] theorem sid_conclude : (p.conclude env forced).sid = p.sid := by
  unfold conclude
  split
  · exact p.sid_markClassical env _
  generalize (if X.readableOffer p.ourOffer then p.ourOffer else X.currentOffer) = ours
  generalize (if p.peerOffer = [] then none else some p.peerOffer) = wire
  dsimp only
  split
  · rfl
  · exact p.sid_markClassical env _

theorem startFlight_same :
    (p.startFlight env draw).1.phase = p.phase ∧ (p.startFlight env draw).1.sid = p.sid := by
  unfold startFlight
  split
  · exact ⟨rfl, rfl⟩
  · split <;> exact ⟨rfl, rfl⟩

end

/-- What deciding leaves: the session, a key for an active record, and `Proceed` under
`require` only for an active one. -/
structure Decided (p : Peer X) (env : Env) (next : Peer X) (pass : Option Pass) : Prop where
  sid : next.sid = p.sid
  keyed : p.Keyed → next.Keyed
  gate : env.mode = .require → pass = some .proceed → next.phase = .active

theorem decided_settle (p : Peer X) : ((p.retryDecided env).ensureConfirm env).sid = p.sid ∧
      (p.Keyed → ((p.retryDecided env).ensureConfirm env).Keyed) := by
  have retried : (p.retryDecided env).sid = p.sid ∧ (p.Keyed → (p.retryDecided env).Keyed) := by
    unfold retryDecided
    cases p.phase <;> dsimp only <;> try exact ⟨rfl, id⟩
    all_goals
      split
      · exact ⟨rfl, fun _ => keyed_of_phase .new (by decide) rfl⟩
      · exact ⟨rfl, id⟩
  unfold ensureConfirm
  split
  · exact ⟨retried.1, fun keyed => (retried.2 keyed).of_same rfl rfl⟩
  · exact retried

theorem holdOrProceed_require (mode : env.mode = .require) : some (holdOrProceed env) ≠ some .proceed := by
  simp [holdOrProceed, mode]

theorem gateOfDecided_require (p : Peer X) (mode : env.mode = .require) :
    some (p.gateOfDecided env) ≠ some .proceed := by
  unfold gateOfDecided
  rw [if_neg (by simp [mode])]
  split <;> simp

theorem decided_decideKex (running : p.phase = .kex) (env : Env) (draw : Draw X) :
    Decided p env (p.decideKex env draw).1 (p.decideKex env draw).2 := by
  obtain ⟨phase, sid⟩ := p.startFlight_same env
  simp only [decideKex]
  split
  · split
    · rename_i after result
      rw [result] at phase sid
      exact ⟨sid, fun _ => keyed_of_phase .kex (by decide) (phase.trans running), nofun⟩
    · rename_i after result
      rw [result] at sid
      exact ⟨sid, fun _ => after.keyed_markFailed env _, nofun⟩
  · split
    · split
      · exact ⟨rfl, fun _ => keyed_markFailed _ env _, nofun⟩
      · exact ⟨rfl, fun _ => keyed_of_phase .kex (by decide) running, nofun⟩
    · exact ⟨rfl, id, fun mode told => absurd told (holdOrProceed_require mode)⟩

theorem decided_decideOnce (p : Peer X) (env : Env) (draw : Draw X) :
    Decided p env (p.decideOnce env draw).1 (p.decideOnce env draw).2 := by
  obtain ⟨sid, keyed⟩ := p.decided_settle
  unfold decideOnce
  generalize (p.retryDecided env).ensureConfirm env = settled at sid keyed
  dsimp only
  split
  · exact ⟨sid, keyed, nofun⟩
  split
  · exact ⟨sid, keyed, nofun⟩
  cases phase : settled.phase with
  | new => exact ⟨sid, fun _ => keyed_of_phase .offered (by decide) rfl, nofun⟩
  | offered =>
    dsimp only
    split
    · exact ⟨(settled.sid_conclude env).trans sid, fun _ => settled.keyed_conclude env, nofun⟩
    · exact ⟨sid, keyed, fun mode told => absurd told (holdOrProceed_require mode)⟩
  | classical | failed =>
    exact ⟨sid, keyed, fun mode told => absurd told (settled.gateOfDecided_require mode)⟩
  | kex =>
    have decided := decided_decideKex phase env draw
    exact ⟨decided.sid.trans sid, fun held => decided.keyed (keyed held), decided.gate⟩
  | active => exact ⟨sid, keyed, fun _ _ => phase⟩

theorem decided_decideLoop (env : Env) (draw : Draw X) (turns : Nat) (p : Peer X) :
    Decided p env (decideLoop env draw turns p).1 (some (decideLoop env draw turns p).2) := by
  induction turns generalizing p with
  | zero => exact ⟨rfl, id, fun mode told => absurd told (holdOrProceed_require mode)⟩
  | succ turns ih =>
    have once := p.decided_decideOnce env draw
    unfold decideLoop
    split
    · rename_i after pass result
      rw [result] at once
      exact once
    · rename_i after result
      rw [result] at once
      have later := ih after
      exact ⟨later.sid.trans once.sid, fun keyed => later.keyed (once.keyed keyed), later.gate⟩

theorem assemble_same (p : Peer X) :
    (p.assemble env body).1.phase = p.phase ∧ (p.assemble env body).1.key = p.key := by
  unfold assemble
  dsimp only
  split <;> exact ⟨rfl, rfl⟩

section

variable (keyed : p.Keyed)
include keyed

variable (env : Env)

theorem Keyed.afterSend : (p.afterSend env out outcome).Keyed := by
  unfold Peer.afterSend
  split
  · split
    · intro active
      split at active
      · cases active
      · exact keyed active
    · exact keyed.of_same rfl rfl
  · dsimp only
    split
    · split
      · exact keyed.of_same rfl rfl
      intro active
      exact keyed_conclude _ env active
    · split
      · exact keyed_failWith _ env _ _
      · exact keyed.of_same rfl rfl

theorem Keyed.onOffer : (p.onOffer body).Keyed := by
  unfold Peer.onOffer
  split
  · exact keyed
  split
  · exact keyed
  have reopened : (if p.phase = .classical ∧ p.reason = .peerNoHybrid then
      { p with phase := .offered, reason := .none } else p).Keyed := by
    split
    · exact keyed_of_phase .offered (by decide) rfl
    · exact keyed
  dsimp only
  generalize (if p.phase = .classical ∧ p.reason = .peerNoHybrid then
      { p with phase := .offered, reason := .none } else p) = q at reopened
  split
  · exact reopened.of_same rfl rfl
  · exact reopened

theorem Keyed.answerInit {guard : ReplayGuard} : (p.answerInit env guard asm coins).1.Keyed := by
  unfold Peer.answerInit
  split
  · exact p.keyed_markFailed env _
  split
  · exact p.keyed_markFailed env _
  split
  · split
    · exact fun _ => rfl
    · exact keyed_markFailed _ env _
  · exact keyed
  · exact p.keyed_markFailed env _

theorem Keyed.onInit {guard : ReplayGuard} : (p.onInit env guard body coins).1.Keyed := by
  have concluded : (if p.phase = .new ∨ p.phase = .offered then p.conclude env none
      else p).Keyed := by
    split
    · exact p.keyed_conclude env
    · exact keyed
  unfold Peer.onInit
  split
  · exact keyed
  dsimp only
  generalize (if p.phase = .new ∨ p.phase = .offered then p.conclude env none else p) = q at concluded
  obtain ⟨phase, key⟩ := q.assemble_same
  split
  · exact concluded
  split
  · rename_i after result
    rw [result] at phase key
    exact concluded.of_same phase key
  · rename_i after asm result
    rw [result] at phase key
    exact (concluded.of_same phase key).answerInit env

theorem Keyed.onResp : (p.onResp env body).Keyed := by
  obtain ⟨phase, key⟩ := p.assemble_same
  unfold Peer.onResp
  split
  · exact keyed
  split
  · rename_i after result
    rw [result] at phase key
    exact keyed.of_same phase key
  rename_i after asm result
  rw [result] at phase key
  split
  · exact keyed.of_same phase key
  split
  · exact keyed.of_same phase key
  split
  · exact keyed_markFailed _ env _
  split
  · exact fun _ => rfl
  · exact keyed_markFailed _ env _

theorem Keyed.onConfirm : (p.onConfirm env body).Keyed := by
  unfold Peer.onConfirm
  split
  · split
    · exact keyed_failWith p env _ _
    · exact keyed
  split
  · exact keyed
  rename_i unfinished
  have held : p.key.isSome := by
    cases key : p.key with
    | none => exact absurd (.inr (.inl (by rw [key]; rfl))) unfinished
    | some _ => rfl
  split
  · dsimp only
    split
    · exact fun _ => held
    · exact keyed.of_same rfl rfl
  · exact p.keyed_markFailed env _

theorem Keyed.onRecord (guard : ReplayGuard) (out : Outgoing)
    (coins : X.Coins) : (p.onRecord env guard out coins).1.Keyed := by
  unfold Peer.onRecord
  split
  · exact keyed.onOffer
  split
  · exact keyed.onInit env
  split
  · exact keyed.onResp env
  split
  · exact keyed.onConfirm env
  · exact keyed

end

end Peer

namespace PqState

/-- Where the record of a session comes from: memory, disk, or nowhere.  A record of
another session was dropped first. -/
inductive Slotted (st : PqState X) (peer sid : B32) : PqState X × Peer X → Prop
  | held {p : Peer X} (found : st.peers.get? peer = some p) (own : p.sid = sid) :
      Slotted st peer sid (st, p)
  | loaded {base : PqState X} {p : Peer X} (source : base = st ∨ base = st.forget peer)
      (found : base.makeRoom.docs.get? peer = some p) (own : p.sid = sid) :
      Slotted st peer sid ({ base.makeRoom with
        peers := base.makeRoom.peers.insert peer p
        order := base.makeRoom.order ++ [peer] }, p)
  | fresh {base : PqState X} {docs : SortedMap B32 (Peer X)}
      (source : base = st ∨ base = st.forget peer)
      (dropped : docs = base.makeRoom.docs ∨ docs = base.makeRoom.docs.erase peer) :
      Slotted st peer sid ({ base.makeRoom with
        docs := docs
        peers := base.makeRoom.peers.insert peer (fresh X sid)
        order := base.makeRoom.order ++ [peer] }, fresh X sid)

variable {peer : B32} {st : PqState X}

/-- What `slot` does once nothing of another session is in memory. -/
theorem slotted_absent {sid : B32} (source : base = st ∨ base = st.forget peer) :
    Slotted st peer sid (let room := base.makeRoom
       let (room, p) := match room.docs.get? peer with
        | some p =>
          if p.sid = sid then (room, p)
          else ({ room with docs := room.docs.erase peer }, fresh X sid)
        | none => (room, fresh X sid)
       ({ room with peers := room.peers.insert peer p, order := room.order ++ [peer] }, p)) := by
  dsimp only
  split
  · rename_i p found
    split
    · rename_i own
      exact .loaded source found own
    · exact .fresh source (.inr rfl)
  · exact .fresh source (.inl rfl)

theorem slotted (st : PqState X) (peer sid : B32) : Slotted st peer sid (st.slot peer sid) := by
  unfold slot
  cases found : st.peers.get? peer with
  | none =>
    simp only [Option.any_none, Bool.false_eq_true, if_false, found]
    exact slotted_absent (.inl rfl)
  | some p =>
    by_cases own : p.sid = sid
    · simp only [Option.any_some, own, ne_eq, not_true_eq_false, decide_false, Bool.false_eq_true, if_false, found]
      exact .held found own
    · simp only [Option.any_some, own, ne_eq, not_false_eq_true, decide_true, if_true, get?_erase]
      exact slotted_absent (.inr rfl)

theorem sid_slot (st : PqState X) {peer sid : B32} : (st.slot peer sid).2.sid = sid := by
  have slotted := st.slotted peer sid
  generalize st.slot peer sid = result at slotted ⊢
  cases slotted with
  | held _ own | loaded _ _ own => exact own
  | fresh => rfl

theorem mode_makeRoom (st : PqState X) : st.makeRoom.mode = st.mode := by
  unfold makeRoom
  split
  · split <;> rfl
  · rfl

structure Keyed (st : PqState X) : Prop where
  memory : ∀ {peer p}, st.peers.get? peer = some p → p.Keyed
  disk : ∀ {peer p}, st.docs.get? peer = some p → p.Keyed

variable {p : Peer X}

namespace Keyed

variable {st : PqState X} {peer sid : B32}

theorem new {ownId : B32} : (new X ownId).Keyed :=
  ⟨fun found => by simp [PqState.new] at found, fun found => by simp [PqState.new] at found⟩

variable {table : SortedMap B32 (Peer X)}

theorem erase (held : ∀ {peer p}, table.get? peer = some p → p.Keyed) (gone : B32)
    (found : (table.erase gone).get? peer = some p) : p.Keyed := held (get?_of_erase found)

theorem insert (held : ∀ {peer p}, table.get? peer = some p → p.Keyed) {key : B32} {new : Peer X}
    (keyed : new.Keyed) (found : (table.insert key new).get? peer = some p) : p.Keyed := by
  rcases get?_insert_cases found with ⟨-, rfl⟩ | ⟨-, old⟩
  · exact keyed
  · exact held old

section

variable (keyed : st.Keyed)
include keyed

theorem forget (peer : B32) : (st.forget peer).Keyed :=
  ⟨fun found => erase keyed.memory peer found, fun found => erase keyed.disk peer found⟩

theorem restart {mode : PqcMode} : ({ st.restart with mode := mode } : PqState X).Keyed :=
  ⟨fun found => by simp [PqState.restart, PqState.new] at found, fun found => keyed.disk found⟩

theorem makeRoom : st.makeRoom.Keyed := by
  unfold PqState.makeRoom
  split
  · split
    · exact keyed
    · exact ⟨fun found => erase keyed.memory _ found, keyed.disk⟩
  · exact keyed

variable (peer sid : B32)

theorem slot : (st.slot peer sid).1.Keyed ∧ (st.slot peer sid).2.Keyed ∧ (st.slot peer sid).2.sid = sid ∧
      (st.slot peer sid).1.mode = st.mode := by
  have based : ∀ {base : PqState X}, base = st ∨ base = st.forget peer →
      base.makeRoom.Keyed ∧ base.makeRoom.mode = st.mode := by
    rintro base (rfl | rfl)
    · exact ⟨keyed.makeRoom, mode_makeRoom _⟩
    · exact ⟨(keyed.forget peer).makeRoom, mode_makeRoom _⟩
  have slotted := st.slotted peer sid
  generalize st.slot peer sid = result at slotted ⊢
  cases slotted with
  | held found own => exact ⟨keyed, keyed.memory found, own, rfl⟩
  | loaded base found own =>
    obtain ⟨roomy, mode⟩ := based base
    exact ⟨⟨fun held => insert roomy.memory (roomy.disk found) held, roomy.disk⟩, roomy.disk found, own, mode⟩
  | fresh base docs =>
    obtain ⟨roomy, mode⟩ := based base
    refine ⟨⟨fun held => insert roomy.memory (keyed_fresh sid) held, ?_⟩, keyed_fresh sid, rfl, mode⟩
    rcases docs with rfl | rfl
    · exact roomy.disk
    · exact fun held => erase roomy.disk peer held

theorem persist (peer : B32) (held : p.Keyed) (writable : Bool) : (st.persist peer p writable).1.Keyed := by
  have clean : ({ p with dirty := false } : Peer X).Keyed := held.of_same rfl rfl
  have document : p.document.Keyed := held.of_same rfl rfl
  unfold PqState.persist
  split
  · exact ⟨fun found => insert keyed.memory held found, keyed.disk⟩
  split
  · exact ⟨fun found => insert keyed.memory clean found, keyed.disk⟩
  split
  · exact ⟨fun found => insert keyed.memory clean found, fun found => insert keyed.disk document found⟩
  · exact ⟨fun found => insert keyed.memory held found, keyed.disk⟩

theorem keyOf : (st.keyOf peer sid usable).1.Keyed := by
  unfold PqState.keyOf
  split
  · exact keyed
  have loaded : (if st.peers.contains peer then st else (st.slot peer sid).1).Keyed := by
    split
    · exact keyed
    · exact (keyed.slot peer sid).1
  dsimp only
  split <;> exact loaded

theorem sent : (st.sent peer sid out outcome now writable).Keyed := by
  obtain ⟨tables, held, -, -⟩ := keyed.slot peer sid
  exact tables.persist peer (held.afterSend _) writable

theorem onRecord (plain : Bytes) (now : UInt64) (coins : X.Coins) (writable : Bool) :
    (st.onRecord peer sid plain now coins writable).1.Keyed := by
  unfold PqState.onRecord
  split
  · exact keyed
  rename_i kind body
  split
  · exact keyed
  obtain ⟨tables, held, -, -⟩ := keyed.slot peer sid
  have recorded := held.onRecord ((st.slot peer sid).1.env peer now) (st.slot peer sid).1.guard ⟨kind, body⟩ coins
  have guarded : ∀ guard, ({ (st.slot peer sid).1 with guard := guard } : PqState X).Keyed :=
    fun _ => ⟨tables.memory, tables.disk⟩
  exact (guarded _).persist peer recorded writable

theorem pass (peer : B32) (sid : Option B32) (haveText : Bool)
    (now : UInt64) (draw : Draw X) (writable : Bool) :
    (st.pass peer sid haveText now draw writable).1.Keyed := by
  unfold PqState.pass
  split
  · exact keyed
  split
  · exact keyed
  rename_i sid
  obtain ⟨tables, held, -, -⟩ := keyed.slot peer sid
  have decided := decided_decideLoop ((st.slot peer sid).1.env peer now) draw 6 (st.slot peer sid).2
  have kept := tables.persist peer (decided.keyed held) writable
  dsimp only
  split <;> exact kept

end

end Keyed

/-! What every step keeps. -/

structure Keeps (st next : PqState X) : Prop where
  mode : next.mode = st.mode
  keyed : st.Keyed → next.Keyed

namespace Keeps

variable {st next last : PqState X}

theorem refl : Keeps st st := ⟨rfl, id⟩

theorem trans (first : Keeps st next) (second : Keeps next last) : Keeps st last :=
  ⟨second.mode.trans first.mode, fun keyed => second.keyed (first.keyed keyed)⟩

section

variable (st : PqState X)

theorem forget : Keeps st (st.forget peer) := ⟨rfl, fun keyed => keyed.forget peer⟩

variable (peer sid : B32)

theorem slot : (st.slot peer sid).1.mode = st.mode := by
  have based : ∀ {base : PqState X}, base = st ∨ base = st.forget peer → base.makeRoom.mode = st.mode := by
    rintro base (rfl | rfl) <;> exact mode_makeRoom _
  have slotted := st.slotted peer sid
  generalize st.slot peer sid = result at slotted ⊢
  cases slotted with
  | held => rfl
  | loaded source | fresh source => exact based source

theorem persist {peer : B32} : (st.persist peer p writable).1.mode = st.mode := by
  unfold PqState.persist
  repeat' split
  all_goals rfl

theorem keyOf : Keeps st (st.keyOf peer sid usable).1 := by
  refine ⟨?_, fun keyed => keyed.keyOf peer sid⟩
  unfold PqState.keyOf
  split
  · rfl
  have loaded : (if st.peers.contains peer then st else (st.slot peer sid).1).mode = st.mode := by
    split
    · rfl
    · exact slot st peer sid
  dsimp only
  split <;> exact loaded

theorem pass {peer : B32} {sid : Option B32} :
    Keeps st (st.pass peer sid haveText now draw writable).1 := by
  refine ⟨?_, fun keyed => keyed.pass peer sid haveText now draw writable⟩
  unfold PqState.pass
  split
  · rfl
  split
  · rfl
  rename_i sid
  dsimp only
  split <;> exact (persist _).trans (slot st peer sid)

theorem sent : Keeps st (st.sent peer sid out outcome now writable) :=
  ⟨(persist _).trans (slot st peer sid), fun keyed => keyed.sent peer sid⟩

theorem onRecord : Keeps st (st.onRecord peer sid plain now coins writable).1 := by
  refine ⟨?_, fun keyed => keyed.onRecord peer sid plain now coins writable⟩
  unfold PqState.onRecord
  split
  · rfl
  split
  · rfl
  · exact (persist _).trans (slot st peer sid)

end

end Keeps

theorem sealKey_active {sid : B32}
    (found : st.peers.get? peer = some p) (own : p.sid = sid) (active : p.phase = .active) :
    (st.sealKey peer sid).2 = p.key := by
  have held : st.peers.contains peer = true := by simp [contains, found]
  simp [sealKey, keyOf, held, found, own, active]

theorem persist_found (st : PqState X) (peer : B32) (p : Peer X) (writable : Bool) :
    ∃ q, (st.persist peer p writable).1.peers.get? peer = some q ∧ q.sid = p.sid ∧
      q.phase = p.phase ∧ q.key = p.key := by
  unfold persist
  split
  · exact ⟨p, get?_insert_self _, rfl, rfl, rfl⟩
  split
  · exact ⟨_, get?_insert_self _, rfl, rfl, rfl⟩
  · split <;> exact ⟨_, get?_insert_self _, rfl, rfl, rfl⟩

/-- Under `require` a message may go only when the record of its session is active. -/
theorem pass_proceed {sid : Option B32} (keyed : st.Keyed) (mode : st.mode = .require)
    (told : st.pass peer sid true now draw writable = (next, .proceed)) :
    ∃ current p, sid = some current ∧ next.peers.get? peer = some p ∧ p.sid = current ∧
      p.phase = .active ∧ p.key.isSome := by
  unfold pass at told
  rw [if_neg (by simp [mode])] at told
  split at told
  · cases told
  rename_i current
  obtain ⟨-, held, own, agreed⟩ := keyed.slot peer current
  have decided := decided_decideLoop ((st.slot peer current).1.env peer now) draw 6 (st.slot peer current).2
  change Decided _ _ ((st.slot peer current).2.decide _ draw).1
    (some ((st.slot peer current).2.decide _ draw).2) at decided
  dsimp only at told
  cases result : (st.slot peer current).2.decide ((st.slot peer current).1.env peer now) draw with
  | mk p out =>
    rw [result] at told decided
    have same : out = .proceed ∧ ((st.slot peer current).1.persist peer p writable).1 = next := by
      cases out <;> cases told
      exact ⟨rfl, rfl⟩
    obtain ⟨proceeds, kept⟩ := same
    have active : p.phase = .active := decided.gate (agreed.trans mode) (congrArg some proceeds)
    obtain ⟨q, found, sid, phase, key⟩ := (st.slot peer current).1.persist_found peer p writable
    rw [kept] at found
    exact ⟨current, q, rfl, found, sid.trans (decided.sid.trans own), phase.trans active,
      key ▸ decided.keyed held active⟩

end PqState

end Miasma.Chat.Pq
