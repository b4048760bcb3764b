import Miasma.Chat.Pq.Record
import Miasma.Data.Run

namespace Miasma.Chat.Pq

open Data Protocol Peer ByteVec

/-! The two sides of one session run the upgrade against each other.

Records arrive at any later time, any number of times.  A side that ends keeps its document.
The exchange is ideal: an answer makes a key that nobody had before. -/

structure Parties where
  initiator : B32
  responder : B32
  sid : B32
  order : initiator < responder

def Parties.env (parties : Parties) (role : Role) (mode : PqcMode) (now : UInt64) : Env := match role with
  | .initiator => ⟨parties.initiator, parties.responder, mode, now⟩
  | .responder => ⟨parties.responder, parties.initiator, mode, now⟩

theorem Parties.env_ofRole (parties : Parties) (role : Role) (mode : PqcMode) (now : UInt64) :
    (parties.env role mode now).OfRole role := by
  cases role with
  | initiator => simp [Env.OfRole, env, Env.weInitiate, parties.order]
  | responder =>
    have later : ¬ parties.responder < parties.initiator := lt_asymm parties.order
    simp only [Env.OfRole, env, Env.weInitiate, reduceCtorEq, iff_false, Bool.not_eq_true]
    exact decide_eq_false later

variable {Key : Type} {X : Exchange Key}

structure Device {Key : Type} (X : Exchange Key) where
  record : Peer X
  document : Option (Peer X)
  guard : ReplayGuard

namespace Device

def new (X : Exchange Key) (sid : B32) : Device X := ⟨fresh X sid, none, ReplayGuard.new replayCapacity⟩

/-- `persist`: the record is written if a decision changed it. -/
def settle (d : Device X) (p : Peer X) : Device X := if !p.dirty then { d with record := p }
  else if !p.worthKeeping then { d with record := { p with dirty := false } }
  else { d with record := { p with dirty := false }, document := some p.document }

def reload (d : Device X) (sid : B32) : Device X := { d with record := d.document.getD (fresh X sid) }

/-- What is in memory and what is on disk hold the same key. -/
structure Sound (role : Role) (sid : B32) (d : Device X) : Prop where
  held : d.record.Held role
  kept : Steady role d.record (d.reload sid).record

end Device

structure World {Key : Type} (X : Exchange Key) where
  initiator : Device X
  responder : Device X
  /-- Records handed to the delivery loop so far. -/
  fromInitiator : List Outgoing
  fromResponder : List Outgoing
  /-- Keys established so far. -/
  keys : List Key

inductive Event {Key : Type} (X : Exchange Key) where
  | pass (role : Role) (mode : PqcMode) (now : UInt64) (draw : Draw X)
  | deliver (dest : Role) (index : Nat) (mode : PqcMode) (now : UInt64) (coins : X.Coins)
  | acknowledge (role : Role) (index : Nat) (mode : PqcMode) (now : UInt64)
  | evict (role : Role)
  | restart (role : Role)

namespace World

def start (X : Exchange Key) (parties : Parties) : World X :=
  ⟨Device.new X parties.sid, Device.new X parties.sid, [], [], []⟩

variable (w : World X)

def device : Role → Device X
  | .initiator => w.initiator
  | .responder => w.responder

def posted : Role → List Outgoing
  | .initiator => w.fromInitiator
  | .responder => w.fromResponder

def put (role : Role) (d : Device X) : World X := match role with
  | .initiator => { w with initiator := d }
  | .responder => { w with responder := d }

def post (role : Role) (pass : Pass) : World X := match pass, role with
  | .send out, .initiator => { w with fromInitiator := w.fromInitiator ++ [out] }
  | .send out, .responder => { w with fromResponder := w.fromResponder ++ [out] }
  | _, _ => w

variable [DecidableEq Key]

/-- A key a side did not hold before.  The responder's is new to everybody. -/
def learn (w : World X) (role : Role) (before after : Option Key) : Option (World X) := match after with
  | none => some w
  | some key =>
    if before = some key then some w
    else if role = .responder ∧ key ∈ w.keys then none
    else some { w with keys := key :: w.keys }

/-- What a received record made of the side. -/
def replace (w : World X) (role : Role) (guard : ReplayGuard) (p : Peer X) : Option (World X) :=
  (w.put role { (w.device role).settle p with guard := guard }).learn role (w.device role).record.key p.key

/-- A side whose mode is `off` sends nothing and ignores what arrives. -/
def step (parties : Parties) (w : World X) : Event X → Option (World X)
  | .pass role mode now draw =>
    if mode = .off then some w
    else
      let d := w.device role
      let (p, out) := d.record.decide (parties.env role mode now) draw
      some ((w.put role (d.settle p)).post role out)
  | .deliver dest index mode now coins =>
    (w.posted dest.other)[index]?.bind fun out =>
      if mode = .off then some w
      else
        let d := w.device dest
        let (p, guard) := d.record.onRecord (parties.env dest mode now) d.guard out coins
        (w.put dest { d.settle p with guard := guard }).learn dest d.record.key p.key
  | .acknowledge role index mode now =>
    (w.posted role)[index]?.map fun out =>
      let d := w.device role
      w.put role (d.settle (d.record.afterSend (parties.env role mode now) out .delivered))
  | .evict role => some (w.put role ((w.device role).reload parties.sid))
  | .restart role =>
    some (w.put role { (w.device role).reload parties.sid with
      guard := ReplayGuard.new replayCapacity })

/-- A side that layers its messages has the other side's confirmation, and the
other side opens with the same key. -/
def Agreed : Prop := ∀ role, (w.device role).record.phase = .active →
    (w.device role).record.peerConfirmed = true ∧ ∃ key, (w.device role).record.key = some key ∧
        (w.device role.other).record.key = some key ∧
        ((w.device role.other).record.phase = .kex ∨ (w.device role.other).record.phase = .active)

end World

open World

/-- No abort record reaches the initiator while it runs the exchange with the key
the responder holds too. -/
def Undisturbed (w : World X) : Event X → Prop
  | .deliver .initiator index _ _ _ =>
    w.fromResponder[index]? = some ⟨kindConfirm, abortBody⟩ →
      w.initiator.record.phase = .kex → w.initiator.record.key.isSome →
      w.initiator.record.key ≠ w.responder.record.key
  | _ => True

instance [DecidableEq Key] (w : World X) (event : Event X) : Decidable (Undisturbed w event) := match event with
  | .deliver .initiator .. => inferInstanceAs (Decidable (_ → _ → _ → _))
  | .deliver .responder .. | .pass .. | .acknowledge .. | .evict _ | .restart _ => .isTrue trivial

theorem tag_ne_abort {tag : B32} : tag.toList ≠ abortBody := by
  intro same
  have width := congrArg List.length same
  rw [tag.length_toList] at width
  cases width

/-! What the two records, the tags on the way and the keys made so far have to do
with each other. -/

structure Joint (i r : Peer X) (fromInitiator fromResponder : List Outgoing) (keys : List Key) : Prop where
  initiator_known : ∀ key, i.key = some key → key ∈ keys
  responder_known : ∀ key, r.key = some key → key ∈ keys
  initiator_tags : ∀ out ∈ fromInitiator, out.kind = kindConfirm → out.body = abortBody ∨
    ∃ seed, out.body = (X.confirmInitiator seed).toList ∧ X.sessionKey seed ∈ keys ∧
      (i.key = some (X.sessionKey seed) ∨ r.key ≠ some (X.sessionKey seed))
  responder_tags : ∀ out ∈ fromResponder, out.kind = kindConfirm → out.body = abortBody ∨
    ∃ seed, out.body = (X.confirmResponder seed).toList ∧ r.key = some (X.sessionKey seed) ∧ r.peerConfirmed = true
  responder_sure : r.peerConfirmed = true → i.key = r.key
  initiator_sure : i.peerConfirmed = true → r.peerConfirmed = true ∧ r.key = i.key

namespace Joint

variable {i r next : Peer X} {fromInitiator fromResponder : List Outgoing} {keys : List Key}
  (joint : Joint i r fromInitiator fromResponder keys)

include joint

theorem same (first : i.Same i') (second : r.Same r') : Joint i' r' fromInitiator fromResponder keys := by
  obtain ⟨mine, theirs, tags, replies, sure, both⟩ := joint
  constructor <;> simpa only [first.key, second.key, first.peerConfirmed, second.peerConfirmed]

variable {out : Outgoing}

theorem post_initiator (sound : out.kind = kindConfirm → out.body = abortBody ∨
    ∃ seed, out.body = (X.confirmInitiator seed).toList ∧ i.key = some (X.sessionKey seed)) :
    Joint i r (fromInitiator ++ [out]) fromResponder keys := {
  joint with
  initiator_tags := by
    refine forall_mem_snoc joint.initiator_tags fun kind => (sound kind).imp_right ?_
    exact fun ⟨seed, body, key⟩ => ⟨seed, body, joint.initiator_known _ key, .inl key⟩ }

theorem post_responder (sound : out.kind = kindConfirm → out.body = abortBody ∨
    ∃ seed, out.body = (X.confirmResponder seed).toList ∧ r.key = some (X.sessionKey seed) ∧ r.peerConfirmed = true) :
    Joint i r fromInitiator (fromResponder ++ [out]) keys := {
  joint with
  responder_tags := forall_mem_snoc joint.responder_tags sound }

variable {seed : X.Seed}

section

variable (unconfirmed : r.peerConfirmed = false)
include unconfirmed

theorem no_responder_tag : ∀ out ∈ fromResponder, out.kind = kindConfirm → out.body = abortBody := by
  intro out inside kind
  refine (joint.responder_tags out inside kind).resolve_right fun ⟨_, _, _, confirmed⟩ => ?_
  rw [unconfirmed] at confirmed
  cases confirmed

theorem initiator_unsure : i.peerConfirmed = false := by
  refine Bool.eq_false_iff.mpr fun sure => ?_
  have confirmed := (joint.initiator_sure sure).1
  rw [unconfirmed] at confirmed
  cases confirmed

theorem responder_resets (unsure : next.peerConfirmed = false)
    (known : ∀ key, next.key = some key → key ∈ more) (grown : keys ⊆ more)
    (tags : ∀ seed, X.sessionKey seed ∈ keys → i.key = some (X.sessionKey seed) ∨ r.key ≠ some (X.sessionKey seed) →
      i.key = some (X.sessionKey seed) ∨ next.key ≠ some (X.sessionKey seed)) :
    Joint i next fromInitiator fromResponder more where
  initiator_known key there := grown (joint.initiator_known key there)
  responder_known := known
  initiator_tags out inside kind := by
    refine (joint.initiator_tags out inside kind).imp_right ?_
    exact fun ⟨seed, body, before, which⟩ => ⟨seed, body, grown before, tags seed before which⟩
  responder_tags out inside kind := .inl (joint.no_responder_tag unconfirmed out inside kind)
  responder_sure sure := by
    rw [unsure] at sure
    cases sure
  initiator_sure sure := by
    rw [joint.initiator_unsure unconfirmed] at sure
    cases sure

theorem responder_fails (clean : next.Clean) : Joint i next fromInitiator fromResponder keys := by
  refine joint.responder_resets unconfirmed clean.unconfirmed ?_ (List.Subset.refl _) ?_
  · rw [clean.keyless]
    exact nofun
  · rw [clean.keyless]
    exact fun _ _ _ => .inr nofun

theorem responder_installs (installed : Installed .responder next seed) (new : X.sessionKey seed ∉ keys) :
    Joint i next fromInitiator fromResponder (X.sessionKey seed :: keys) := by
  refine joint.responder_resets unconfirmed installed.unconfirmed ?_ (List.subset_cons_self _ _) ?_
  · rw [installed.key]
    rintro key ⟨⟩
    exact List.mem_cons_self
  · intro other known _
    refine .inr fun same => new ?_
    rw [installed.key] at same
    exact Option.some.inj same ▸ known

theorem responder_renews (installed : Installed .responder next seed) (old : r.key = some (X.sessionKey seed)) :
    Joint i next fromInitiator fromResponder keys := by
  have same : next.key = r.key := installed.key.trans old.symm
  refine joint.responder_resets unconfirmed installed.unconfirmed ?_ (List.Subset.refl _) ?_
  · rw [same]
    exact joint.responder_known
  · rw [same]
    exact fun _ _ which => which

end

theorem initiator_resets (held : r.Held .responder) (apart : i.key.isSome → i.key ≠ r.key)
    (unsure : next.peerConfirmed = false) (known : ∀ key, next.key = some key → key ∈ more)
    (grown : keys ⊆ more) : Joint next r fromInitiator fromResponder more where
  initiator_known := known
  responder_known key there := grown (joint.responder_known key there)
  initiator_tags out inside kind := by
    refine (joint.initiator_tags out inside kind).imp_right ?_
    rintro ⟨seed, body, before, mine | gone⟩
    · refine ⟨seed, body, grown before, .inr fun theirs => ?_⟩
      exact apart (by rw [mine]; rfl) (mine.trans theirs.symm)
    · exact ⟨seed, body, grown before, .inr gone⟩
  responder_tags := joint.responder_tags
  responder_sure sure := by
    have keyed := (held.active (held.confirmed sure)).1
    have both := joint.responder_sure sure
    exact absurd both (apart (by rw [both]; exact keyed))
  initiator_sure sure := by
    rw [unsure] at sure
    cases sure

theorem responder_confirms (ideal : X.Ideal) (before : r.Held .responder)
    (inside : out ∈ fromInitiator) (kind : out.kind = kindConfirm)
    (tag : out.body = r.peerTag.toList) (keyed : r.key.isSome) (key : next.key = r.key)
    (confirmed : next.peerConfirmed = true) : Joint i next fromInitiator fromResponder keys := by
  obtain ⟨held, there⟩ := Option.isSome_iff_exists.mp keyed
  obtain ⟨seed, own, -, peerTag⟩ := before.tags held there
  have both : i.key = r.key := by
    cases joint.initiator_tags out inside kind with
    | inl abort => exact absurd (tag.symm.trans abort) tag_ne_abort
    | inr posted =>
      obtain ⟨other, body, -, which⟩ := posted
      have same : seed = other := by
        apply ideal.initiator_inj
        apply ext_toList
        rw [← body, tag, peerTag]
        rfl
      rw [← same, ← own] at which
      cases which with
      | inl mine => rw [mine, there]
      | inr gone => exact absurd there gone
  exact {
    initiator_known := joint.initiator_known
    responder_known := by
      rw [key]
      exact joint.responder_known
    initiator_tags := by
      rw [key]
      exact joint.initiator_tags
    responder_tags := by
      intro out inside kind
      refine (joint.responder_tags out inside kind).imp_right ?_
      exact fun ⟨other, body, theirs, _⟩ => ⟨other, body, key.trans theirs, confirmed⟩
    responder_sure := fun _ => by rw [key, both]
    initiator_sure := fun sure => ⟨confirmed, by rw [key, both]⟩ }

theorem initiator_confirms (ideal : X.Ideal) (before : i.Held .initiator)
    (inside : out ∈ fromResponder) (kind : out.kind = kindConfirm)
    (tag : out.body = i.peerTag.toList) (keyed : i.key.isSome) (key : next.key = i.key) :
    Joint next r fromInitiator fromResponder keys := by
  obtain ⟨held, there⟩ := Option.isSome_iff_exists.mp keyed
  obtain ⟨seed, own, -, peerTag⟩ := before.tags held there
  have both : r.peerConfirmed = true ∧ r.key = i.key := by
    cases joint.responder_tags out inside kind with
    | inl abort => exact absurd (tag.symm.trans abort) tag_ne_abort
    | inr posted =>
      obtain ⟨other, body, theirs, confirmed⟩ := posted
      have same : seed = other := by
        apply ideal.responder_inj
        apply ext_toList
        rw [← body, tag, peerTag]
        rfl
      exact ⟨confirmed, by rw [theirs, there, own, same]⟩
  exact { joint with
    initiator_known := by
      rw [key]
      exact joint.initiator_known
    initiator_tags := by
      rw [key]
      exact joint.initiator_tags
    responder_sure := by
      rw [key]
      exact joint.responder_sure
    initiator_sure := fun _ => by
      rw [key]
      exact both }

theorem initiator_matches (ideal : X.Ideal) (before : i.Held .initiator)
    (inside : out ∈ fromResponder) (kind : out.kind = kindConfirm)
    (notAbort : out.body ≠ abortBody) : out.body = i.peerTag.toList := by
  cases joint.responder_tags out inside kind with
  | inl abort => exact absurd abort notAbort
  | inr posted =>
    obtain ⟨seed, body, theirs, confirmed⟩ := posted
    have mine : i.key = some (X.sessionKey seed) := (joint.responder_sure confirmed).trans theirs
    obtain ⟨other, own, -, peerTag⟩ := before.tags _ mine
    rw [body, peerTag, ideal.key_inj own]
    rfl

end Joint

/-! Memory and document of one side. -/

namespace Device

variable {role : Role} {sid : B32} {d : Device X} {p : Peer X}

theorem settle_record (d : Device X) (p : Peer X) : p.Same (d.settle p).record := by
  rw [settle]
  split
  · exact .refl p
  · split <;> exact ⟨rfl, fun _ => rfl, fun _ => rfl, rfl, fun _ => rfl⟩

theorem settle_outq {d : Device X} : (d.settle p).record.outq = p.outq := by
  rw [settle]
  split
  · rfl
  · split <;> rfl

theorem steady_document (held : p.Held role) : Steady role p p.document := by
  refine ⟨⟨?_, held.running, held.confirmed, held.active, nofun, nofun⟩,
    ⟨rfl, fun keyed => if_pos keyed, fun keyed => if_pos keyed, rfl, fun _ => rfl⟩⟩
  intro key there
  obtain ⟨seed, own, ownTag, peerTag⟩ := held.tags key there
  have keyed : p.key.isSome := Option.isSome_of_eq_some there
  exact ⟨seed, own, (if_pos keyed).trans ownTag, (if_pos keyed).trans peerTag⟩

theorem Sound.settle (sound : d.Sound role sid) (held : p.Held role)
    (written : Steady role d.record p ∨ (p.dirty = true ∧ p.phase ≠ .new)) :
    (d.settle p).Sound role sid := by
  have unwritten : Steady role d.record p → Steady role p (d.reload sid).record :=
    fun steady => ⟨sound.kept.held, steady.same.symm.trans sound.kept.same⟩
  have quiet : Held role { p with dirty := false } := { held with }
  have kept : ∀ {last}, Steady role p last → Steady role { p with dirty := false } last :=
    fun steady => ⟨steady.held, ⟨steady.same.key, steady.same.ownTag, steady.same.peerTag,
      steady.same.peerConfirmed, steady.same.phase⟩⟩
  rw [Device.settle]
  split
  · rename_i clean
    cases written with
    | inl steady => exact ⟨held, unwritten steady⟩
    | inr changed => simp [changed.1] at clean
  · split
    · rename_i small
      cases written with
      | inl steady => exact ⟨quiet, kept (unwritten steady)⟩
      | inr changed => simp [worthKeeping, changed.2] at small
    · exact ⟨quiet, kept (steady_document held)⟩

theorem Sound.reload (sound : d.Sound role sid) : (d.reload sid).Sound role sid :=
  ⟨sound.kept.held, ⟨sound.kept.held, .refl _⟩⟩

end Device

/-! Runs. -/

structure World.Sound (parties : Parties) (w : World X) : Prop where
  devices : ∀ role, (w.device role).Sound role parties.sid
  joint : Joint w.initiator.record w.responder.record w.fromInitiator w.fromResponder w.keys

namespace World

variable {parties : Parties} {w next : World X}

theorem Sound.start : (start X parties).Sound parties where
  devices role := by
    have clean := (clean_fresh parties.sid : (fresh X parties.sid).Clean)
    cases role <;> exact ⟨clean.held _, clean.steady clean⟩
  joint := ⟨nofun, nofun, nofun, nofun, nofun, nofun⟩

variable {p : Peer X}

section

variable (sound : w.Sound parties)
include sound

theorem Sound.devices_put (role : Role) (device : d.Sound role parties.sid) (other : Role) :
    ((w.put role d).device other).Sound other parties.sid := by
  cases role <;> cases other
  · exact device
  · exact sound.devices .responder
  · exact sound.devices .initiator
  · exact device

theorem Sound.put (device : d.Sound role parties.sid) (same : (w.device role).record.Same d.record) :
    (w.put role d).Sound parties := by
  refine ⟨sound.devices_put role device, ?_⟩
  cases role with
  | initiator => exact sound.joint.same same (.refl _)
  | responder => exact sound.joint.same (.refl _) same

theorem Sound.post {pass : Pass} (sends : (w.device role).record.Sends pass) : (w.post role pass).Sound parties := by
  cases pass with
  | proceed | hold | refuse => exact sound
  | send out =>
    have held := (sound.devices role).held
    have queued : out.kind = kindConfirm → out.body = abortBody ∨ ∃ seed, out.body = (role.tag X seed).toList ∧
        (w.device role).record.key = some (X.sessionKey seed) ∧
        (role = .responder → (w.device role).record.peerConfirmed = true) := by
      intro kind
      refine (held.queued out (sends out rfl kind) kind).imp_right fun tag => ?_
      obtain ⟨key, there⟩ := Option.isSome_iff_exists.mp tag.1
      obtain ⟨seed, own, ownTag, -⟩ := held.tags key there
      exact ⟨seed, by rw [tag.2.1, ownTag], by rw [← own]; exact there, tag.2.2⟩
    cases role with
    | initiator =>
      refine ⟨sound.devices, sound.joint.post_initiator fun kind => (queued kind).imp_right ?_⟩
      exact fun ⟨seed, body, key, _⟩ => ⟨seed, body, key⟩
    | responder =>
      refine ⟨sound.devices, sound.joint.post_responder fun kind => (queued kind).imp_right ?_⟩
      exact fun ⟨seed, body, key, confirmed⟩ => ⟨seed, body, key, confirmed rfl⟩

theorem Sound.initiator {keys : List Key} {guard : ReplayGuard} (held : p.Held .initiator)
    (written : Steady .initiator w.initiator.record p ∨ (p.dirty = true ∧ p.phase ≠ .new))
    (joint : Joint p w.responder.record w.fromInitiator w.fromResponder keys) :
    ({ w.put .initiator { w.initiator.settle p with guard := guard } with keys := keys } :
      World X).Sound parties := by
  have device := (sound.devices .initiator).settle held written
  exact ⟨sound.devices_put .initiator ⟨device.held, device.kept⟩, joint.same (w.initiator.settle_record p) (.refl _)⟩

theorem Sound.responder {keys : List Key} {guard : ReplayGuard} (held : p.Held .responder)
    (written : Steady .responder w.responder.record p ∨ (p.dirty = true ∧ p.phase ≠ .new))
    (joint : Joint w.initiator.record p w.fromInitiator w.fromResponder keys) :
    ({ w.put .responder { w.responder.settle p with guard := guard } with keys := keys } :
      World X).Sound parties := by
  have device := (sound.devices .responder).settle held written
  exact ⟨sound.devices_put .responder ⟨device.held, device.kept⟩, joint.same (.refl _) (w.responder.settle_record p)⟩

theorem Sound.agreed : w.Agreed := by
  intro role active
  have held := (sound.devices role).held
  obtain ⟨keyed, confirmed⟩ := held.active active
  obtain ⟨key, there⟩ := Option.isSome_iff_exists.mp keyed
  have both : (w.device role.other).record.key = some key := by
    cases role with
    | initiator => exact (sound.joint.initiator_sure confirmed).2.trans there
    | responder => exact (sound.joint.responder_sure confirmed).trans there
  exact ⟨confirmed, key, there, both, (sound.devices role.other).held.running (by rw [both]; rfl)⟩

end

variable [DecidableEq Key]

theorem Sound.pass (sound : w.Sound parties) (role : Role) (mode : PqcMode) (now : UInt64)
    (draw : Draw X) (stepped : w.step parties (.pass role mode now draw) = some next) :
    next.Sound parties := by
  simp only [step] at stepped
  split at stepped
  · cases stepped
    exact sound
  cases stepped
  have device := sound.devices role
  obtain ⟨steady, sends⟩ := device.held.decide (parties.env_ofRole role mode now) draw
  have settled := (w.device role).settle_record ((w.device role).record.decide (parties.env role mode now) draw).1
  refine (sound.put (device.settle steady.held (.inl steady)) (steady.same.trans settled)).post ?_
  intro out sent kind
  have inside := sends out sent kind
  cases role <;> exact Device.settle_outq.symm ▸ inside

theorem replace_same {guard : ReplayGuard} (same : p.key = (w.device role).record.key) :
    w.replace role guard p = some (w.put role { (w.device role).settle p with guard := guard }) := by
  rw [replace, same]
  cases (w.device role).record.key <;> simp [learn]

section

variable (sound : w.Sound parties)
include sound

theorem Sound.steady (role : Role) (guard : ReplayGuard) (steady : Steady role (w.device role).record p)
    (stepped : w.replace role guard p = some next) : next.Sound parties := by
  rw [replace_same steady.same.key] at stepped
  cases stepped
  have device := (sound.devices role).settle steady.held (.inl steady)
  exact sound.put ⟨device.held, device.kept⟩ (steady.same.trans ((w.device role).settle_record p))

theorem Sound.initiator_fails {guard : ReplayGuard} (failed : p.Failed)
    (apart : w.initiator.record.key.isSome → w.initiator.record.key ≠ w.responder.record.key)
    (stepped : w.replace .initiator guard p = some next) : next.Sound parties := by
  rw [replace, failed.clean.keyless] at stepped
  cases stepped
  exact sound.initiator (failed.clean.held _) (.inr ⟨failed.dirty, by simp [failed.phase]⟩)
    (sound.joint.initiator_resets (sound.devices .responder).held apart failed.clean.unconfirmed
      (by rw [failed.clean.keyless]; exact nofun) (List.Subset.refl _))

theorem Sound.responder_fails (guard : ReplayGuard)
    (failed : p.Failed) (unconfirmed : w.responder.record.peerConfirmed = false)
    (stepped : w.replace .responder guard p = some next) : next.Sound parties := by
  rw [replace, failed.clean.keyless] at stepped
  cases stepped
  exact sound.responder (failed.clean.held _) (.inr ⟨failed.dirty, by simp [failed.phase]⟩)
    (sound.joint.responder_fails unconfirmed failed.clean)

theorem Sound.initiator_installs (guard : ReplayGuard) (installed : Installed .initiator p seed)
    (keyless : w.initiator.record.key = none) (stepped : w.replace .initiator guard p = some next) :
    next.Sound parties := by
  change (w.put .initiator _).learn .initiator w.initiator.record.key p.key = some next at stepped
  rw [keyless, installed.key] at stepped
  simp only [learn, reduceCtorEq, if_false, false_and, Option.some.injEq] at stepped
  rw [← stepped]
  refine sound.initiator installed.held (.inr ⟨installed.dirty, by simp [installed.phase]⟩)
    (sound.joint.initiator_resets (sound.devices .responder).held (by rw [keyless]; exact nofun)
      installed.unconfirmed ?_ (List.subset_cons_self _ _))
  rw [installed.key]
  rintro key ⟨⟩
  exact List.mem_cons_self

theorem Sound.responder_installs (guard : ReplayGuard) (installed : Installed .responder p seed)
    (unconfirmed : w.responder.record.peerConfirmed = false)
    (stepped : w.replace .responder guard p = some next) : next.Sound parties := by
  have written : Steady .responder w.responder.record p ∨ (p.dirty = true ∧ p.phase ≠ .new) :=
    .inr ⟨installed.dirty, by simp [installed.phase]⟩
  rw [replace, installed.key] at stepped
  simp only [learn] at stepped
  split at stepped
  · rename_i old
    cases stepped
    exact sound.responder installed.held written (sound.joint.responder_renews unconfirmed installed old)
  split at stepped
  · cases stepped
  rename_i new
  cases stepped
  exact sound.responder installed.held written
    (sound.joint.responder_installs unconfirmed installed (fun known => new ⟨trivial, known⟩))

end

section

variable (ideal : X.Ideal) (sound : w.Sound parties)
include ideal sound

theorem Sound.confirm_initiator (env : Env) (guard : ReplayGuard) (inside : out ∈ w.fromResponder)
    (kind : out.kind = kindConfirm) (undisturbed : out.body = abortBody → w.initiator.record.phase = .kex →
      w.initiator.record.key.isSome → w.initiator.record.key ≠ w.responder.record.key)
    (stepped : w.replace .initiator guard (w.initiator.record.onConfirm env out.body) = some next) :
    next.Sound parties := by
  have held : w.initiator.record.Held .initiator := (sound.devices .initiator).held
  cases held.onConfirm env out.body with
  | ignored steady => exact sound.steady .initiator guard steady stepped
  | aborted abort running failed =>
    exact sound.initiator_fails failed (undisturbed abort running) stepped
  | matched tag keyed after key confirmed dirty =>
    rw [replace_same key] at stepped
    cases stepped
    exact sound.initiator after (.inr ⟨dirty, by simp [after.confirmed confirmed]⟩)
      (sound.joint.initiator_confirms ideal held inside kind tag keyed key)
  | mismatched other keyed notAbort =>
    exact absurd (sound.joint.initiator_matches ideal held inside kind notAbort) other

theorem Sound.confirm_responder (env : Env) (guard : ReplayGuard) (inside : out ∈ w.fromInitiator)
    (kind : out.kind = kindConfirm)
    (stepped : w.replace .responder guard (w.responder.record.onConfirm env out.body) = some next) :
    next.Sound parties := by
  have held : w.responder.record.Held .responder := (sound.devices .responder).held
  cases held.onConfirm env out.body with
  | ignored steady => exact sound.steady .responder guard steady stepped
  | aborted abort running failed =>
    refine sound.responder_fails guard failed (Bool.eq_false_iff.mpr fun sure => ?_) stepped
    have active := held.confirmed sure
    rw [running] at active
    cases active
  | matched tag keyed after key confirmed dirty =>
    rw [replace_same key] at stepped
    cases stepped
    exact sound.responder after (.inr ⟨dirty, by simp [after.confirmed confirmed]⟩)
      (sound.joint.responder_confirms ideal held inside kind tag keyed key confirmed)
  | mismatched other keyed notAbort unconfirmed failed =>
    exact sound.responder_fails guard failed unconfirmed stepped

theorem Sound.deliver (undisturbed : Undisturbed w (.deliver dest index mode now coins))
    (stepped : w.step parties (.deliver dest index mode now coins) = some next) : next.Sound parties := by
  obtain ⟨out, there, stepped⟩ := Option.bind_eq_some_iff.mp stepped
  have inside := List.mem_of_getElem? there
  have device := (sound.devices dest).held
  have ofRole := parties.env_ofRole dest mode now
  split at stepped
  · cases stepped
    exact sound
  simp only [onRecord] at stepped
  split at stepped
  · exact sound.steady dest _ (device.onOffer out.body) stepped
  split at stepped
  · cases device.onInit ofRole (w.device dest).guard out.body coins with
    | inl steady => exact sound.steady dest _ steady stepped
    | inr changed =>
      obtain ⟨role, unconfirmed, which⟩ := changed
      subst role
      cases which with
      | inl failed => exact sound.responder_fails _ failed unconfirmed stepped
      | inr installed =>
        obtain ⟨seed, installed⟩ := installed
        exact sound.responder_installs _ installed unconfirmed stepped
  split at stepped
  · cases device.onResp ofRole out.body with
    | inl steady => exact sound.steady dest _ steady stepped
    | inr changed =>
      obtain ⟨role, keyless, seed, installed⟩ := changed
      subst role
      exact sound.initiator_installs _ installed keyless stepped
  split at stepped
  · rename_i kind
    cases dest with
    | initiator =>
      refine sound.confirm_initiator ideal _ _ inside kind ?_ stepped
      intro abort
      apply undisturbed
      cases out
      cases kind
      cases abort
      exact there
    | responder => exact sound.confirm_responder ideal _ _ inside kind stepped
  · exact sound.steady dest _ ⟨device, .refl _⟩ stepped

theorem Sound.step (undisturbed : Undisturbed w event) (stepped : w.step parties event = some next) :
    next.Sound parties := by
  cases event with
  | pass role mode now draw => exact sound.pass role mode now draw stepped
  | deliver => exact sound.deliver ideal undisturbed stepped
  | acknowledge role index mode now =>
    obtain ⟨out, -, result⟩ := Option.map_eq_some_iff.mp stepped
    rw [← result]
    have device := sound.devices role
    have steady := device.held.delivered (parties.env role mode now) out
    exact sound.put (device.settle steady.held (.inl steady))
      (steady.same.trans ((w.device role).settle_record _))
  | evict role =>
    cases stepped
    exact sound.put (sound.devices role).reload (sound.devices role).kept.same
  | restart role =>
    cases stepped
    have device := (sound.devices role).reload
    exact sound.put ⟨device.held, device.kept⟩ (sound.devices role).kept.same

end

end World

/-- If no abort record reaches the initiator while it runs the exchange with the key
the responder holds too, a side that layers its messages has the other side's
confirmation and the other side opens with the same key. -/
theorem upgrade_agreed_of_undisturbed [DecidableEq Key] (ideal : X.Ideal) (parties : Parties)
    (events : List (Event X)) (last : World X)
    (undisturbed : Along (step parties) Undisturbed (start X parties) events)
    (ran : run (step parties) (start X parties) events = some last) : last.Agreed := by
  have sound : last.Sound parties := invariant_of_run (fun sound met stepped => sound.step ideal met stepped)
    Sound.start undisturbed ran
  exact sound.agreed

/-! A run in which both sides fail and try again, and an abort of the first attempt
arrives late. -/

namespace Sample

def exchange : Exchange B32 := .echo id

theorem exchange_ideal : exchange.Ideal := ⟨Function.injective_id, Function.injective_id, Function.injective_id⟩

def parties : Parties := ⟨fill 32 1, fill 32 2, fill 32 3, by decide +kernel⟩

def coins (byte : UInt8) : exchange.Coins := fill 32 byte

def pass (role : Role) (now : UInt64) (byte : UInt8) : Event exchange :=
  .pass role .prefer now ⟨coins byte, byte.toUInt64⟩

def deliver (dest : Role) (index : Nat) (now : UInt64) (byte : UInt8) : Event exchange :=
  .deliver dest index .prefer now (coins byte)

def acknowledge (role : Role) (index : Nat) (now : UInt64) : Event exchange := .acknowledge role index .prefer now

/-- The responder restarts before it answers the first flight; the second one is answered, then
another copy of the first replaces the responder's key, and both sides give up. -/
def givenUp : List (Event exchange) :=
  [pass .initiator 1000 0, deliver .responder 0 1000 0, acknowledge .initiator 0 1000,
    pass .responder 1000 0, deliver .initiator 0 1000 0, acknowledge .responder 0 1000,
    pass .initiator 1000 1, deliver .responder 1 1000 10, acknowledge .initiator 1 1000, .restart .responder,
    pass .initiator 122000 2, deliver .responder 2 122000 12, pass .responder 122000 0,
    deliver .initiator 1 122000 0, acknowledge .initiator 2 122000, pass .initiator 122000 0,
    deliver .responder 1 122000 11, deliver .responder 3 122000 0, pass .responder 122000 0,
    deliver .initiator 2 122000 0, acknowledge .responder 2 122000]

/-- The second attempt, up to the confirmation of the responder. -/
def upgraded : List (Event exchange) :=
  givenUp ++ [pass .initiator 730000 0, pass .responder 730000 0, deliver .responder 4 730000 0,
    acknowledge .initiator 4 730000, acknowledge .responder 3 730000, deliver .initiator 3 730000 0,
    pass .initiator 730000 3, deliver .responder 5 730000 13, pass .responder 730000 0,
    deliver .initiator 4 730000 0, acknowledge .initiator 5 730000, pass .initiator 730000 0,
    deliver .responder 6 730000 0]

def reached (events : List (Event exchange)) : Option (World exchange) :=
  run (step parties) (start exchange parties) events

end Sample

open Pq.Sample

theorem upgrade_agreed_of_upgraded : ∃ last, reached upgraded = some last ∧
    last.responder.record.phase = .active ∧ last.Agreed := by
  have undisturbed : Along (step parties) Undisturbed
      (start exchange parties) upgraded := by decide +kernel
  have observed : (reached upgraded).any (fun last =>
      last.responder.record.phase = .active) = true := by decide +kernel
  obtain ⟨last, ran, active⟩ := exists_of_any observed
  exact ⟨last, ran, active, upgrade_agreed_of_undisturbed exchange_ideal
    parties upgraded last undisturbed ran⟩

/-- The abort of the first attempt, delivered once more, takes the key of the second
one from the initiator while the responder layers its messages with it. -/
theorem late_abort_splits : ∃ events last,
    run (step parties) (start exchange parties) events =
      some last ∧ last.responder.record.phase = .active ∧ last.initiator.record.key = none ∧
      ¬ last.Agreed := by
  have observed : (reached (upgraded ++ [deliver .initiator 2 730000 0])).any
      (fun last => last.responder.record.phase = .active ∧ last.initiator.record.key = none) =
        true := by decide +kernel
  obtain ⟨last, ran, active, lost⟩ := exists_of_any observed
  refine ⟨_, last, ran, active, lost, fun agreed => ?_⟩
  obtain ⟨-, key, -, theirs, -⟩ := agreed .responder active
  change last.initiator.record.key = some key at theirs
  rw [lost] at theirs
  cases theirs

end Miasma.Chat.Pq
