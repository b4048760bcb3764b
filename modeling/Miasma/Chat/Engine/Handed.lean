import Miasma.Chat.Engine.Ahead

namespace Miasma.Chat

open Data Protocol Chat.Pq Outbox List Function

/-! An envelope that was handed out for an entry stands in every copy of the entry, in memory and
in the log, until it is voided. -/

namespace SingleUse

variable {S : Suite} {X : Exchange S.Key} {issued : List Envelope}
  {drawn : List (B32 × B32)} {peer : B32} {c : Core S X} {fate : Fate}
  {env : Envelope}

/-- `want id` is the envelope that every copy of entry `id` has to hold. -/
structure Accounted (issued : List Envelope) (used : List B16)
    (want : B16 → Option Bytes) (e : OutEntry) : Prop where
  valid : e.Valid
  known : e.id ∈ used
  made : ∀ {bytes}, e.sealed = some bytes → ∃ env ∈ issued, bytes = env.encode
  wanted : ∀ {bytes}, want e.id = some bytes → e.sealed = some bytes

structure Kept (ob : Outbox) (issued : List Envelope) (used : List B16)
    (want : B16 → Option Bytes) : Prop where
  each : ob.Each (Accounted issued used want)
  memory : ∀ {e bytes}, e ∈ ob.entries → e.sealed = some bytes → want e.id = some bytes
  used : ∀ {id bytes}, want id = some bytes → id ∈ used

variable {ob after : Outbox} {used : List B16} {want : B16 → Option Bytes} {id : B16}

variable {e : OutEntry}

theorem Accounted.mono (accounted : Accounted issued used want e) (grows : issued ⊆ more)
    (less : ∀ {id bytes}, other id = some bytes → want id = some bytes) : Accounted more used other e where
  valid := accounted.valid
  known := accounted.known
  made sealed := by
    obtain ⟨env, there, same⟩ := accounted.made sealed
    exact ⟨env, grows there, same⟩
  wanted asked := accounted.wanted (less asked)

theorem Kept.issue (kept : Kept ob issued used want) : Kept ob (issued ++ [env]) used want :=
  ⟨kept.each.mono (fun accounted => accounted.mono (subset_append_left _ _) (fun asked => asked)),
    kept.memory, kept.used⟩

theorem Kept.widen (kept : Kept ob issued used want) (more : List B16) :
    Kept ob issued (used ++ more) want :=
  ⟨kept.each.mono (fun accounted => { accounted with known := mem_append_left _ accounted.known }), kept.memory,
    fun asked => mem_append_left _ (kept.used asked)⟩

/-- What happened to the envelopes: one was handed out, for an entry of the outbox or
for a record of its own, or the one an entry kept was voided. -/
inductive Note where
  | returned (entry : Option B16) (bytes : Bytes)
  | voided (id : B16)

def voidedOf (before after : List OutEntry) : List Note := (before.filter (fun e => e.sealed.isSome &&
    after.any (fun other => other.id = e.id && other.sealed.isNone))).map (.voided ·.id)

theorem mem_voidedOf {before after : List OutEntry} (there : e ∈ before) (sealed : e.sealed.isSome)
    (later : other ∈ after) (same : other.id = e.id) (none : other.sealed = none) :
    Note.voided e.id ∈ voidedOf before after := by
  apply mem_map_of_mem
  simp only [mem_filter, Bool.and_eq_true, any_eq_true, decide_eq_true_eq, Option.isNone_iff_eq_none]
  exact ⟨there, sealed, other, later, same, none⟩

/-- The wishes after what is sealed for `peer` was voided. -/
def wantWithout (want : B16 → Option Bytes) (entries : List OutEntry)
    (peer : B32) (id : B16) : Option Bytes :=
  if ∃ e ∈ entries, e.id = id ∧ e.peer = peer ∧ e.sealed.isSome then none else want id

theorem wantWithout_some {entries : List OutEntry} (asked : wantWithout want entries peer id = some bytes) :
    want id = some bytes := by
  unfold wantWithout at asked
  split at asked
  · cases asked
  · exact asked

theorem Kept.clears (kept : Kept ob issued used want) (clears : Clears peer ob after) :
    ∃ later, Kept after issued used later ∧
      ∀ {id bytes}, want id = some bytes → .voided id ∉ voidedOf ob.entries after.entries →
        later id = some bytes := by
  rcases clears.entries kept.each.distinct with same | cleared
  · exact ⟨want, same ▸ kept, fun asked _ => asked⟩
  have less : ∀ {id bytes}, wantWithout want ob.entries peer id = some bytes →
      want id = some bytes := fun asked => wantWithout_some asked
  refine ⟨wantWithout want ob.entries peer, ⟨?_, ?_, fun asked => kept.used (less asked)⟩, ?_⟩
  · apply clears.each (kept.each.mono (fun accounted => accounted.mono (Subset.refl _) less))
    intro m there own sealed e accounted same
    refine ⟨⟨accounted.valid.parsed, nofun⟩, accounted.known, nofun, ?_⟩
    intro bytes asked
    rw [show e.bare.id = e.id from rfl, wantWithout, if_pos ⟨m, there, same.symm, own, sealed⟩] at asked
    cases asked
  · intro e bytes there sealed
    rw [cleared] at there
    obtain ⟨old, member, changed⟩ := mem_map.mp there
    split at changed
    · subst changed
      cases sealed
    rename_i foreign
    subst changed
    rw [wantWithout, if_neg, kept.memory member sealed]
    intro ⟨m, there, same, own, _⟩
    rw [kept.each.distinct.unique there member same] at own
    exact foreign own
  · intro id bytes asked present
    rw [wantWithout, if_neg, asked]
    intro ⟨m, there, same, own, sealed⟩
    have gone : m.bare ∈ after.entries := by
      rw [cleared]
      exact mem_map.mpr ⟨m, there, if_pos own⟩
    exact present (same ▸ mem_voidedOf there sealed gone rfl rfl)

/-- The wishes after the log was opened: what the log stands for, unless the surplus
over the budget was dropped. -/
def wantOpened (want : B16 → Option Bytes) (logged opened : List OutEntry)
    (id : B16) : Option Bytes :=
  match logged.find? (·.id = id) with
  | none => want id
  | some e => if ∃ other ∈ opened, other.id = id ∧ other.sealed = none then none else e.sealed

section

variable (kept : Kept ob issued used want)
include kept

theorem Kept.openLog {settings : StoreSettings} :
    ∃ later, Kept (openLog settings ob.log now rewrites).1 issued used later ∧
      ∀ {id bytes}, want id = some bytes → .voided id ∉ voidedOf (entriesOf ob.log)
          (openLog settings ob.log now rewrites).1.entries →
        later id = some bytes := by
  generalize reopened : (Outbox.openLog settings ob.log now rewrites).1 = opened
  have found : ∀ {e}, e ∈ entriesOf ob.log → (entriesOf ob.log).find? (·.id = e.id) = some e :=
    fun there => kept.each.logged.find?_eq_some_iff.mpr ⟨there, rfl⟩
  have disk : ∀ e ∈ entriesOf ob.log,
      Accounted issued used (wantOpened want (Outbox.entriesOf ob.log) opened.entries) e := by
    intro e there
    have accounted := kept.each.disk e there
    refine { accounted with wanted := ?_ }
    intro bytes asked
    simp only [wantOpened, found there] at asked
    split at asked
    · cases asked
    · exact asked
  have dropped : ∀ e ∈ Outbox.entriesOf ob.log, e.sealed.isSome → e.bare ∈ opened.entries →
      Accounted issued used (wantOpened want (Outbox.entriesOf ob.log) opened.entries) e.bare := by
    intro e there _ bare
    have accounted := kept.each.disk e there
    refine ⟨⟨accounted.valid.parsed, nofun⟩, accounted.known, nofun, ?_⟩
    intro bytes asked
    change wantOpened want _ opened.entries e.id = some bytes at asked
    simp only [wantOpened, found there] at asked
    rw [if_pos ⟨e.bare, bare, rfl, rfl⟩] at asked
    cases asked
  have each : opened.Each (Accounted issued used (wantOpened want (entriesOf ob.log) opened.entries)) := by
    subst reopened
    exact Each.openLog kept.each.logged disk (·.valid) dropped
  refine ⟨wantOpened want (entriesOf ob.log) opened.entries, ⟨each, ?_, ?_⟩, ?_⟩
  · intro e bytes there sealed
    have logged : e ∈ entriesOf ob.log := by
      subst reopened
      rcases mem_openLog there with old | ⟨held, _, same⟩
      · exact old
      subst same
      cases sealed
    simp only [wantOpened, found logged]
    rw [if_neg, sealed]
    intro ⟨other, member, same, lost⟩
    rw [each.distinct.unique member there same, sealed] at lost
    cases lost
  · intro id bytes asked
    unfold wantOpened at asked
    split at asked
    · exact kept.used asked
    rename_i e held
    obtain ⟨there, same⟩ := kept.each.logged.find?_eq_some_iff.mp held
    exact same ▸ (kept.each.disk e there).known
  · intro id bytes asked present
    unfold wantOpened
    split
    · exact asked
    rename_i e held
    obtain ⟨there, same⟩ := kept.each.logged.find?_eq_some_iff.mp held
    subst same
    have sealed := (kept.each.disk e there).wanted asked
    rw [if_neg, sealed]
    intro ⟨other, member, key, lost⟩
    exact present (mem_voidedOf there (by rw [sealed]; rfl) member key lost)

theorem Kept.push (made : Made e) (fresh : e.id ∉ used) (write : Write) :
    Kept (ob.push e write).1 issued (used ++ [e.id]) want := by
  have bare : e.sealed = none := (OutEntry.parsed_sealed made).1
  have wider := (kept.widen [e.id]).each
  have new : Accounted issued (used ++ [e.id]) want e := by
    refine ⟨OutEntry.parsed_valid made, by simp, ?_, ?_⟩
    · intro bytes sealed
      rw [bare] at sealed
      cases sealed
    · intro bytes asked
      exact absurd (kept.used asked) fresh
  have apart : ∀ {held : OutEntry}, Accounted issued used want held → held.id ≠ e.id :=
    fun accounted same => fresh (same ▸ accounted.known)
  refine ⟨wider.push made new (fun held there => apart (kept.each.memory held there))
    (fun held there => apart (kept.each.disk held there)), ?_,
    fun asked => mem_append_left _ (kept.used asked)⟩
  intro held bytes there sealed
  rcases mem_push there with old | same
  · exact kept.memory old sealed
  rw [same, bare] at sealed
  cases sealed

theorem Kept.setSealed (found : ob.get e.id = some e) (bare : e.sealed = none) (made : env ∈ issued)
    (set : ob.setSealed e.id env.encode write = (after, result)) :
    ∃ later, Kept after issued used later ∧ (∀ {id bytes}, want id = some bytes → later id = some bytes) ∧
      (result = .ok () → later e.id = some env.encode) := by
  obtain ⟨there, -⟩ := kept.each.distinct.find?_eq_some_iff.mp found
  have unwanted : want e.id = none := by
    cases asked : want e.id with
    | none => rfl
    | some bytes =>
      have sealed := (kept.each.memory e there).wanted asked
      rw [bare] at sealed
      cases sealed
  have sealed : ∀ {want : B16 → Option Bytes} {other : OutEntry},
      ¬ (env.encode = [] ∨ maxSealed < env.encode.length) →
      (∀ {bytes}, want other.id = some bytes → env.encode = bytes) →
      OutEntry.Valid other → other.id ∈ used →
      Accounted issued used want (other.withSealed env.encode) := by
    intro want other size same valid known
    refine ⟨⟨valid.parsed, ?_⟩, known, ?_, fun asked => congrArg some (same asked)⟩
    · intro bytes held
      cases held
      exact size
    · intro bytes held
      cases held
      exact ⟨env, made, rfl⟩
  cases result with
  | error =>
    have each := kept.each.setSealed (fun size other accounted same =>
      sealed size (fun asked => by rw [same, unwanted] at asked; cases asked) accounted.valid accounted.known) write
    rw [set] at each
    refine ⟨want, ⟨each, ?_, kept.used⟩, fun asked => asked, nofun⟩
    intro other bytes member held
    have same := setSealed_error set
    exact kept.memory (same ▸ member) held
  | ok _ =>
    obtain ⟨size, memory, disk⟩ := setSealed_done found set
    rw [kept.each.distinct.updateFirst_eq_map] at memory
    rw [kept.each.logged.updateFirst_eq_map] at disk
    have ids : ∀ other : OutEntry,
        (if other.id = e.id then other.withSealed env.encode else other).id = other.id := by
      intro other
      split <;> rfl
    have held : ∀ {other : OutEntry}, Accounted issued used want other →
        Accounted issued used (update want e.id (some env.encode))
          (if other.id = e.id then other.withSealed env.encode else other) := by
      intro other accounted
      split
      · rename_i same
        refine sealed size ?_ accounted.valid accounted.known
        intro bytes asked
        rw [same, update_self] at asked
        exact Option.some.inj asked
      · rename_i different
        refine { accounted with wanted := ?_ }
        intro bytes asked
        rw [update_of_ne different] at asked
        exact accounted.wanted asked
    refine ⟨update want e.id (some env.encode), ⟨⟨?_, ?_, ?_, ?_⟩, ?_, ?_⟩, ?_, ?_⟩
    · rw [memory]
      exact kept.each.distinct.map ids
    · rw [disk]
      exact kept.each.logged.map ids
    · intro other member
      rw [memory] at member
      obtain ⟨old, before, same⟩ := mem_map.mp member
      exact same ▸ held (kept.each.memory old before)
    · intro other member
      rw [disk] at member
      obtain ⟨old, before, same⟩ := mem_map.mp member
      exact same ▸ held (kept.each.disk old before)
    · intro other bytes member held
      rw [memory] at member
      obtain ⟨old, before, changed⟩ := mem_map.mp member
      split at changed
      · rename_i same
        subst changed
        cases held
        rw [OutEntry.withSealed_id, same, update_self]
      · rename_i different
        subst changed
        rw [update_of_ne different]
        exact kept.memory before held
    · intro id bytes asked
      by_cases same : id = e.id
      · rw [same]
        exact (kept.each.memory e there).known
      · rw [update_of_ne same] at asked
        exact kept.used asked
    · intro id bytes asked
      rw [update_of_ne, asked]
      intro same
      rw [same, unwanted] at asked
      cases asked
    · intro _
      exact update_self _ _ _

theorem Kept.removeEach (write : B16 → Write) (rewrites : Bool) (ids : List B16) :
    Kept (ob.removeEach write rewrites ids) issued used want := by
  have part : ∀ ids (ob : Outbox), ∀ e ∈ (ob.removeEach write rewrites ids).entries, e ∈ ob.entries := by
    intro ids
    induction ids with
    | nil => exact fun _ _ there => there
    | cons id rest ih =>
      intro ob e there
      have before := ih _ e there
      unfold remove at before
      split at before
      · exact before
      rw [compactIfNeeded_entries] at before
      unfold append at before
      split at before <;> exact mem_of_mem_eraseP before
  exact ⟨kept.each.removeEach (·.valid),
    fun there sealed => kept.memory (part ids ob _ there) sealed, kept.used⟩

theorem Kept.remove : Kept (ob.remove id write rewrites).1 issued used want :=
  kept.removeEach (fun _ => write) rewrites [id]

end

/-! Sealing, with the outbox. -/

variable {draw : SealDraw S} {next : Core S X}

/-- One step of an engine.  What it hands out was made, and is what the entry it was
handed out for has to hold; what an entry has to hold changes only with a note. -/
structure Moves (c next : Core S X) (issued : List Envelope) (drawn : List (B32 × B32))
    (used : List B16) (want : B16 → Option Bytes) (voids handed : List Note)
    (more : List Envelope) (later : B16 → Option Bytes) : Prop where
  safe : Safe next more drawn
  kept : Kept next.outbox more used later
  limit : next.maxText = c.maxText
  grows : issued ⊆ more
  carried : ∀ {id bytes}, want id = some bytes → .voided id ∉ voids → later id = some bytes
  made : ∀ {entry bytes}, .returned entry bytes ∈ handed → ∃ env ∈ more, bytes = env.encode
  wanted : ∀ {id bytes}, .returned (some id) bytes ∈ handed → later id = some bytes

def handedOut (entry : Option B16) : Except PrepareError (Bytes × B16) → List Note
  | .ok (bytes, _) => [.returned entry bytes]
  | .error _ => []

theorem made_of_single (made : env ∈ issued)
    (there : .returned entry bytes ∈ [Note.returned target env.encode]) :
    ∃ env ∈ issued, bytes = env.encode := by
  cases mem_singleton.mp there
  exact ⟨env, made, rfl⟩

theorem Moves.quiet (safe : Safe next issued drawn) (kept : Kept next.outbox issued used want)
    (limit : next.maxText = c.maxText) : Moves c next issued drawn used want voids [] issued want :=
  ⟨safe, kept, limit, Subset.refl _, fun asked _ => asked, nofun, nofun⟩

theorem Moves.clears (safe : Safe next issued drawn) (kept : Kept c.outbox issued used want)
    (limit : next.maxText = c.maxText) (clears : Clears peer c.outbox next.outbox) :
    ∃ more later, Moves c next issued drawn used want
      (voidedOf c.outbox.entries next.outbox.entries) [] more later := by
  obtain ⟨later, after, carried⟩ := kept.clears clears
  exact ⟨issued, later, safe, after, limit, Subset.refl _, carried, nofun, nofun⟩

theorem Moves.after_clears {mid : Core S X} (kept : Kept c.outbox issued used want)
    (clears : Clears peer c.outbox mid.outbox) (limit : mid.maxText = c.maxText)
    {handed : List Note}
    (moves : ∀ {want}, Kept mid.outbox issued used want →
      ∃ more later, Moves mid next issued drawn used want [] handed more later) :
    ∃ more later, Moves c next issued drawn used want
      (voidedOf c.outbox.entries mid.outbox.entries) handed more later := by
  obtain ⟨between, after, carried⟩ := kept.clears clears
  obtain ⟨more, later, moved⟩ := moves after
  exact ⟨more, later, { moved with
    limit := moved.limit.trans limit
    carried := fun asked present => moved.carried (carried asked present) (by simp) }⟩

theorem flush_frame {mid last : Core S X} (flushed : mid.flushPeer peer fate = (last, written)) :
    last.outbox = mid.outbox ∧ last.maxText = mid.maxText := by
  have frame := congrArg (fun pair => (pair.1.outbox, pair.1.maxText)) flushed
  exact ⟨(Prod.mk.inj frame).1.symm, (Prod.mk.inj frame).2.symm⟩

section

variable (safe : Safe c issued drawn) (tagged : S.Tagged) (kept : Kept c.outbox issued used want)
    (fresh : ∀ pair ∈ drawn, pair.2 ≠ S.publicKey draw.ratchet)
include safe tagged kept fresh

theorem sealEntry_moves (found : c.outbox.get e.id = some e) (bare : e.sealed = none)
    (done : Core.SealsEntry c e draw fate next result) :
    ∃ more later, Moves c next issued (drawn ++ [(e.peer, S.publicKey draw.ratchet)]) used want []
      (handedOut (some e.id) result) more later := by
  cases done with
  | refused => exact ⟨_, _, .quiet (safe.draw fresh) kept rfl⟩
  | unsealed plainOf sealed =>
    obtain ⟨outbox, limit⟩ := c.sealOn_frame e.peer _ draw
    rw [sealed] at outbox limit
    exact ⟨_, _, .quiet (safe.sealOn_error fresh sealed) (outbox ▸ kept) limit⟩
  | unwritten plainOf sealed flushed =>
    obtain ⟨outbox, limit⟩ := c.sealOn_frame e.peer _ draw
    rw [sealed] at outbox limit
    obtain ⟨same, bound⟩ := flush_frame flushed
    exact ⟨_, _, .quiet (safe.sealOn_flushed fresh tagged sealed flushed)
      ((same.trans outbox) ▸ kept) (bound.trans limit)⟩
  | @kept plain mid last env outbox' set room plainOf sealed flushed given =>
    obtain ⟨outbox, limit⟩ := c.sealOn_frame e.peer plain draw
    rw [sealed] at outbox limit
    obtain ⟨same, bound⟩ := flush_frame flushed
    have written := safe.sealOn_flushed fresh tagged sealed flushed
    have issue : Kept last.outbox (issued ++ [env]) used want := by
      rw [same.trans outbox]
      exact kept.issue
    have here : last.outbox.get e.id = some e := by
      rw [same.trans outbox]
      exact found
    obtain ⟨later, after, carried, wanted⟩ := issue.setSealed here bare (by simp) given
    cases set with
    | error =>
      exact ⟨_, later, ⟨written.books, written.placed⟩, after, bound.trans limit,
        subset_append_left _ _, fun asked _ => carried asked, nofun, nofun⟩
    | ok _ =>
      refine ⟨_, later, ⟨written.books, written.placed⟩, after, bound.trans limit,
        subset_append_left _ _, fun asked _ => carried asked, ?_, ?_⟩
      · exact made_of_single (by simp)
      intro id bytes there
      cases mem_singleton.mp there
      exact wanted rfl

theorem prepareWire_moves :
    ∃ more later, Moves c (c.prepareWire id draw fate).1 issued
      (drawn ++ (c.outbox.get id).toList.map (fun e => (e.peer, S.publicKey draw.ratchet))) used
      want (voidedOf c.outbox.entries (c.settledFor id fate).outbox.entries)
      (handedOut (some id) (c.prepareWire id draw fate).2) more later := by
  unfold Core.prepareWire Core.settledFor
  cases held : c.outbox.get id with
  | none =>
    have same : Safe c issued (drawn ++ []) := (append_nil drawn).symm ▸ safe
    exact ⟨_, _, .quiet same kept rfl⟩
  | some old =>
    have clears := c.settleRollback_clears old.peer fate
    have settled := safe.settleRollback old.peer fate
    rw [Option.toList_some, map_singleton]
    refine Moves.after_clears kept clears (c.settleRollback_limit old.peer) ?_
    intro want kept'
    dsimp only
    split
    · exact ⟨_, _, .quiet (settled.draw fresh) kept' rfl⟩
    rename_i e found
    obtain ⟨there, key⟩ := kept'.each.distinct.find?_eq_some_iff.mp found
    subst key
    -- The entry is the one found first, at most without its envelope.
    have own : e.peer = old.peer := by
      obtain ⟨before, member, same, peers⟩ := clears.mem kept.each.distinct there
      obtain ⟨first, key⟩ := kept.each.distinct.find?_eq_some_iff.mp held
      rw [← peers, kept.each.distinct.unique member first (same.trans key.symm)]
    rw [← own]
    rw [← own] at settled kept' found there
    split
    · rename_i bare
      exact sealEntry_moves settled tagged kept' fresh found bare
        ((c.settleRollback e.peer fate).sealEntry_cases e draw fate)
    rename_i bytes sealed
    obtain ⟨env, made, same⟩ := (kept'.each.memory e there).made sealed
    subst same
    rw [Envelope.decode_encode (settled.books.fits env made)]
    refine ⟨_, _, settled.draw fresh, kept', rfl, Subset.refl _, fun asked _ => asked, ?_, ?_⟩
    · exact made_of_single made
    intro id bytes there
    cases mem_singleton.mp there
    exact kept'.memory ‹e ∈ _› sealed

theorem sealFor_moves :
    ∃ more later, Moves c (c.sealFor peer plain draw fate).1 issued
      (drawn ++ [(peer, S.publicKey draw.ratchet)]) used want
      (voidedOf c.outbox.entries (c.settleRollback peer fate).outbox.entries)
      (handedOut none (c.sealFor peer plain draw fate).2) more later := by
  have settled := safe.settleRollback peer fate
  refine Moves.after_clears kept (c.settleRollback_clears peer fate) (c.settleRollback_limit peer) ?_
  intro want kept
  obtain ⟨outbox, limit⟩ := (c.settleRollback peer fate).sealOn_frame peer plain draw
  unfold Core.sealFor
  dsimp only
  split
  · rename_i mid er sealed
    rw [sealed] at outbox limit
    exact ⟨_, _, .quiet (settled.sealOn_error fresh sealed) (outbox ▸ kept) limit⟩
  rename_i mid env sealed
  rw [sealed] at outbox limit
  split
  · rename_i last flushed
    obtain ⟨same, bound⟩ := flush_frame flushed
    exact ⟨_, _, .quiet (settled.sealOn_flushed fresh tagged sealed flushed)
      ((same.trans outbox) ▸ kept) (bound.trans limit)⟩
  rename_i last flushed
  obtain ⟨same, bound⟩ := flush_frame flushed
  refine ⟨_, want, settled.sealOn_flushed fresh tagged sealed flushed,
    (same.trans outbox) ▸ kept.issue, bound.trans limit,
    subset_append_left _ _, fun asked _ => asked, ?_, ?_⟩
  · exact made_of_single (by simp)
  intro id bytes there
  cases mem_singleton.mp there

end

/-! Queueing and removing entries. -/

section

variable (safe : Safe c issued drawn) (kept : Kept c.outbox issued used want)
include safe kept

theorem enqueue_moves (limit : c.maxText ≤ maxTextBytes) (fresh : id ∉ used) :
    Moves c (c.enqueue peer text now id fate).1 issued drawn (used ++ [id]) want voids [] issued want := by
  obtain ⟨bound, outbox⟩ := c.enqueue_frame limit
  refine .quiet (safe.enqueue peer) ?_ bound
  rcases outbox with same | ⟨seq, made, pushed⟩
  · rw [same]
    exact kept.widen [id]
  · rw [pushed]
    exact kept.push made fresh fate.log

theorem finish_moves :
    Moves c (c.finish id state reason now fate) issued drawn used want voids [] issued want := by
  obtain ⟨bound, outbox⟩ := c.finish_frame
  refine .quiet (safe.finish) ?_ bound
  rcases outbox with same | removed
  · rw [same]
    exact kept
  · rw [removed]
    exact kept.remove

theorem deleteConversation_moves :
    Moves c (c.deleteConversation peer fate).1 issued drawn used want voids [] issued want := by
  obtain ⟨bound, outbox⟩ := c.deleteConversation_frame peer
  refine .quiet (safe.deleteConversation peer) ?_ bound
  rw [outbox]
  exact kept.removeEach fate.note fate.rewrites _

end

end SingleUse

end Miasma.Chat
