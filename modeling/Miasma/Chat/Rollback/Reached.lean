import Miasma.Chat.Crypto.Exchange
import Miasma.Chat.Rollback.Safe

namespace Miasma.Chat.Rollback

open Data Option SortedMap World ChatStore Symbolic

/-! Every state a run reaches keeps the view of each contact safe. -/

variable {S : Suite}

structure World.Safe (w : World S) : Prop where
  anchored : ∃ a, w.store.anchor = some a ∧ a.Active
  views : ∀ peer, (w.view peer).Safe w.used peer
  loads : ∀ l ∈ w.loads, l.Safe

namespace World

variable {w next : World S} {peer : B32}

theorem view_writing_none (idle : w.writing = none) (peer : B32) :
    (w.view peer).writing = none := by rw [view, idle]; rfl

variable {writing : Writing S}

theorem view_writing_some (busy : w.writing = some writing) : (w.view writing.peer).writing = some writing := by
  rw [view, busy]
  simp

/-- The session files after a load set an unusable one aside. -/
def keptFiles (w : World S) (peer : B32) : SortedMap B32 (SessionFile S) :=
  if (w.store.found peer).isNone then w.store.files.erase peer else w.store.files

/-- What a load leaves, for the anchor the check left. -/
def loaded (w : World S) (peer : B32) (a : Anchor) (verdict : Check) : World S :=
  let stored := (w.view peer).stored peer
  let disk := (w.view peer).disk
  let past := w.past peer
  match verdict with
  | .fine =>
    { w with
      store := ⟨w.keptFiles peer, w.store.peers.insert peer ⟨stored, false⟩, some a, w.store.rolledBack⟩
      loads := w.loads ++ [(⟨peer, disk, true, stored, past⟩ : Loaded S)] }.setPast peer
      { past with current := disk, rejected := false, accepted := disk :: past.accepted }
  | .behind floor =>
    let state := { stored with session := none, sendSeq := max stored.sendSeq floor }
    { w with
      store := ⟨w.keptFiles peer, w.store.peers.insert peer ⟨state, true⟩, some a, peer :: w.store.rolledBack⟩
      loads := w.loads ++ [(⟨peer, disk, false, state, past⟩ : Loaded S)] }.setPast peer
      { past with current := disk, rejected := true }

variable {a : Anchor}

section

variable (safe : w.Safe)
include safe

theorem Safe.touch (peer : B32)
    (anchored : ∃ a, next.store.anchor = some a ∧ a.Active) (used : next.used = w.used)
    (loads : ∀ l ∈ next.loads, l.Safe)
    (others : ∀ other, other ≠ peer → next.view other = w.view other)
    (own : (next.view peer).Safe w.used peer) : next.Safe := by
  refine ⟨anchored, fun other => ?_, loads⟩
  rw [used]
  by_cases same : other = peer
  · rw [same]
    exact own
  · rw [others other same]
    exact safe.views other

theorem disk_view : w.disk peer = (w.view peer).disk ∧
      (w.store.found peer).elim (PeerState.new S peer) Prod.snd = (w.view peer).stored peer ∧
      ((w.store.found peer).isNone → w.store.files.get? peer = none) := by
  have here := safe.views peer
  cases there : w.store.files.get? peer with
  | none => simp [disk, View.disk, View.stored, view, found, there]
  | some file =>
    obtain ⟨⟨state, content, owner⟩, -⟩ := here.version file (here.file_known file there)
    simp [disk, View.disk, View.stored, view, found, there, content, owner]

theorem get?_keptFiles : (w.keptFiles peer).get? other = w.store.files.get? other := by
  obtain ⟨-, -, absent⟩ := disk_view safe
  rw [keptFiles]
  split
  · rename_i unused
    rw [get?_erase]
    split
    · rename_i same
      rw [same, absent unused]
    · rfl
  · rfl

theorem load_eq (anchor : w.store.anchor = some a) (absent : w.store.peers.get? peer = none) :
    w.load peer = w.loaded peer (a.check peer (w.view peer).disk ((w.view peer).stored peer).sendSeq).1
      (a.check peer (w.view peer).disk ((w.view peer).stored peer).sendSeq).2 := by
  obtain ⟨disk, stored, -⟩ := disk_view safe
  have read : (w.store.found peer).elim noFile (·.1.fingerprint) = (w.view peer).disk := disk
  simp only [load, disk, slot, absent, loadPeer, read, stored]
  cases unused : (w.store.found peer).isNone with
  | true =>
    simp only [if_true, judge, anchor]
    cases checked : a.check peer (w.view peer).disk ((w.view peer).stored peer).sendSeq with
    | mk a' verdict => cases verdict <;> simp [loaded, keptFiles, unused]
  | false =>
    simp only [Bool.false_eq_true, if_false, judge, anchor]
    cases checked : a.check peer (w.view peer).disk ((w.view peer).stored peer).sendSeq with
    | mk a' verdict => cases verdict <;> simp [loaded, keptFiles, unused]

theorem loaded_frame (anchor : w.store.anchor = some a) (touches : a.Touches a' peer) (verdict : Check) :
    (w.loaded peer a' verdict).used = w.used ∧ (∃ b, (w.loaded peer a' verdict).store.anchor = some b ∧ b.Active) ∧
      ∀ other, other ≠ peer → (w.loaded peer a' verdict).view other = w.view other := by
  cases verdict with
  | fine | behind =>
    refine ⟨rfl, ⟨a', rfl, touches.active⟩, fun other different => ?_⟩
    simp [view, loaded, setPast, anchor, touches.read_other other different,
      touches.seen_other other different, get?_insert, different, get?_keptFiles safe]

theorem view_loaded_fine (marked : a.seen.get? peer = some seen) :
    (w.loaded peer a .fine).view peer = (w.view peer).loadedFine peer (a.read peer) seen := by
  simp [view, loaded, setPast, View.loadedFine, marked, get?_keptFiles safe]

theorem view_loaded_behind (marked : a.seen.get? peer = some seen) :
    (w.loaded peer a (.behind floor)).view peer = (w.view peer).loadedBehind peer (a.read peer) seen floor := by
  simp [view, loaded, setPast, View.loadedBehind, marked, get?_keptFiles safe]

theorem Safe.load (idle : w.writing = none) (absent : w.store.peers.get? peer = none) : (w.load peer).Safe := by
  obtain ⟨a, anchor, active⟩ := safe.anchored
  have own := safe.views peer
  have quiet := view_writing_none idle peer
  have missing : (w.view peer).slot = none := absent
  obtain ⟨touches, entries, marks⟩ :=
    Anchor.check_eq active
  have record : (w.view peer).record = a.read peer := by rw [view, anchor]; rfl
  have mark : (w.view peer).seen = a.seen.get? peer := by rw [view, anchor]; rfl
  rw [← record, ← mark] at entries
  rw [load_eq safe anchor absent]
  cases checked : a.check peer (w.view peer).disk ((w.view peer).stored peer).sendSeq with
  | mk a' verdict =>
    rw [checked] at touches entries marks
    obtain ⟨seen, marked⟩ := isSome_iff_exists.mp marks
    rw [marked] at entries
    obtain ⟨used, anchored, others⟩ := loaded_frame safe anchor touches verdict
    cases verdict with
    | fine =>
      have usable := own.fine_usable missing quiet entries
      refine safe.touch peer anchored used (forall_mem_snoc safe.loads ?_) others ?_
      · exact ⟨fun _ => usable.1, fun _ => usable.2, own.stored_counts usable.2⟩
      rw [view_loaded_fine safe marked]
      exact own.load_fine missing quiet entries
    | behind =>
      obtain ⟨counts, after⟩ := own.load_behind quiet entries
      refine safe.touch peer anchored used (forall_mem_snoc safe.loads ?_) others ?_
      · exact ⟨nofun, nofun, counts.mono (le_max_right_u64 _ _)⟩
      rw [view_loaded_behind safe marked]
      exact after

end

variable {slot : PeerSlot S}

section

variable (safe : w.Safe) (idle : w.writing = none) (held : w.store.peers.get? peer = some slot)
include safe idle held

theorem Safe.change (owner : state.peer = peer) (order : slot.state.sendSeq ≤ state.sendSeq) :
    ({ w with store := w.store.setSlot peer ⟨state, true⟩ } : World S).Safe := by
  refine safe.touch peer safe.anchored rfl safe.loads (fun other different => ?_) ?_
  · simp [view, ChatStore.setSlot, get?_insert, different]
  have after := (safe.views peer).change (view_writing_none idle peer) held owner order
  simpa [view, ChatStore.setSlot] using after

theorem Safe.evict (clean : slot.dirty = false) :
    ({ w with store := { w.store with peers := w.store.peers.erase peer } } : World S).Safe := by
  refine safe.touch peer safe.anchored rfl safe.loads (fun other different => ?_) ?_
  · simp [view, get?_erase, different]
  have after := (safe.views peer).evict (view_writing_none idle peer) held clean
  simpa [view, get?_erase] using after

theorem Safe.beforeWrite (real : fingerprint ≠ noFile) (fresh : fingerprint ∉ w.used) :
    (w.beforeWrite peer slot.state fingerprint).Safe := by
  obtain ⟨a, anchor, active⟩ := safe.anchored
  have own := safe.views peer
  have marked : (w.view peer).seen.isSome := own.slot_seen (by simp [view, held])
  obtain ⟨s, marked⟩ := isSome_iff_exists.mp marked
  have mark : a.seen.get? peer = some s := by
    rw [← marked, view, anchor]
    rfl
  obtain ⟨touches, read, seen⟩ := Anchor.beforeWrite_eq active mark fingerprint slot.state.sendSeq
  refine ⟨⟨_, by rw [World.beforeWrite, ChatStore.beforeWrite, anchor]; rfl, touches.active⟩, ?_, safe.loads⟩
  intro other
  by_cases same : other = peer
  · subst same
    have after := own.beforeWrite held marked real fresh
    simpa [view, World.beforeWrite, ChatStore.beforeWrite, anchor, read, seen, mark, Option.filter] using after
  · have grown := (safe.views other).grow fingerprint
    have different : peer ≠ other := fun contact => same contact.symm
    simpa [view, World.beforeWrite, ChatStore.beforeWrite, anchor, touches.read_other other same,
      touches.seen_other other same, idle, different, Option.filter]
      using grown

end

theorem Safe.replaceFile (safe : w.Safe) (busy : w.writing = some writing)
    (unplaced : writing.placed = false) : (w.replaceFile writing).Safe := by
  refine safe.touch writing.peer safe.anchored rfl safe.loads (fun other different => ?_) ?_
  · have distinct : writing.peer ≠ other := fun contact => different contact.symm
    simp [view, World.replaceFile, setPast, ChatStore.replaceFile, get?_insert, different,
      distinct, busy, Option.filter]
  · have after := (safe.views writing.peer).replaceFile (view_writing_some busy) unplaced
    simpa [view, World.replaceFile, setPast, ChatStore.replaceFile, Option.filter] using after

theorem Safe.afterWrite (safe : w.Safe) (busy : w.writing = some writing)
    (placed : writing.placed = true) : (w.afterWrite writing).Safe := by
  obtain ⟨a, anchor, active⟩ := safe.anchored
  have own := safe.views writing.peer
  obtain ⟨s, -, marked, -⟩ := (own.writes writing (view_writing_some busy)).recorded
  have mark : a.seen.get? writing.peer = some s := by
    rw [← marked, view, anchor]
    rfl
  obtain ⟨touches, read, seen⟩ := Anchor.afterWrite_eq active mark writing.fingerprint writing.state.sendSeq
  refine safe.touch writing.peer ⟨_, ?_, touches.active⟩ rfl safe.loads (fun other different => ?_) ?_
  · rw [World.afterWrite, ChatStore.afterWrite, anchor]
    rfl
  · have distinct : writing.peer ≠ other := fun contact => different contact.symm
    simp [view, World.afterWrite, setPast, ChatStore.afterWrite, ChatStore.setSlot,
      get?_insert, anchor, touches.read_other other different,
      touches.seen_other other different, different, distinct, busy, Option.filter]
  · have after := own.afterWrite (view_writing_some busy) placed s
    simpa [view, World.afterWrite, setPast, ChatStore.afterWrite, ChatStore.setSlot, anchor, read, seen] using after

theorem Safe.putBack (safe : w.Safe) (earlier : ∀ f, file = some f → f ∈ (w.past peer).versions) :
    (w.putBack peer file).Safe := by
  have after := (safe.views peer).putBack earlier
  refine safe.touch peer safe.anchored rfl safe.loads (fun other different => ?_) ?_
  · cases file <;> simp [view, World.putBack, get?_insert, get?_erase, different]
  cases file with
  | none => simpa [view, World.putBack, get?_erase] using after
  | some file => simpa [view, World.putBack] using after

theorem Safe.crash (safe : w.Safe) (undisturbed : Undisturbed w .crash) : w.crash.Safe := by
  obtain ⟨a, anchor, active⟩ := safe.anchored
  refine ⟨⟨a.restart, ?_, ⟨rfl, active.writable, active.kept⟩⟩, ?_, safe.loads⟩
  · rw [World.crash, restart, anchor]
    rfl
  intro peer
  have own := safe.views peer
  have read : ∀ b : Anchor, b.restart.read peer = b.read peer := fun _ => rfl
  have marks : a.restart.seen.get? peer = none := rfl
  cases writing : w.writing with
  | none =>
    have after := own.crash_idle (view_writing_none writing peer)
    simpa [view, World.crash, restart, anchor, writing, read, marks] using after
  | some cut =>
    by_cases same : cut.peer = peer
    · subst same
      have after := own.crash_writing (view_writing_some writing) (undisturbed cut writing)
      simpa [view, World.crash, restart, anchor, writing, read, marks] using after
    · have quiet : (w.view peer).writing = none := by simp [view, writing, same]
      have after := own.crash_idle quiet
      simpa [view, World.crash, restart, anchor, writing, read, marks, same, Option.filter] using after

theorem Safe.start : (start S).Safe where
  anchored := ⟨_, rfl, rfl, rfl, rfl⟩
  views _ := {
    file_known := nofun
    version := nofun
    distinct := nofun
    superseded_known := nofun
    live := nofun
    none_completed := fun _ => rfl
    unrecorded := fun _ => ⟨rfl, rfl, rfl, rfl⟩
    record_counts := nofun
    record_usable := nofun
    seen_counts := nofun
    seen_current := nofun
    seen_usable := nofun
    slot_seen := nofun
    slot_counts := nofun
    rejected_dirty := nofun
    writes := nofun }
  loads := nofun

theorem Safe.step (safe : w.Safe) (undisturbed : Undisturbed w event) (stepped : w.step event = some next) :
    next.Safe := by
  cases event with
  | load =>
    simp only [World.step, ite_none_left_eq_some, not_or, not_isSome_iff_eq_none, some.injEq] at stepped
    obtain ⟨⟨idle, absent⟩, result⟩ := stepped
    rw [← result]
    exact safe.load idle absent
  | change peer =>
    cases held : w.store.peers.get? peer <;>
      simp only [World.step, held, reduceCtorEq, ite_none_right_eq_some, isNone_iff_eq_none, some.injEq] at stepped
    obtain ⟨⟨idle, owner, order⟩, result⟩ := stepped
    rw [← result]
    exact safe.change idle held owner order
  | evict peer =>
    cases held : w.store.peers.get? peer <;>
      simp only [World.step, held, reduceCtorEq, ite_none_right_eq_some, isNone_iff_eq_none, some.injEq] at stepped
    obtain ⟨⟨idle, clean⟩, result⟩ := stepped
    rw [← result]
    exact safe.evict idle held clean
  | beforeWrite peer =>
    cases held : w.store.peers.get? peer <;>
      simp only [World.step, held, reduceCtorEq, ite_none_right_eq_some, isNone_iff_eq_none, some.injEq] at stepped
    obtain ⟨⟨idle, -, real, fresh⟩, result⟩ := stepped
    rw [← result]
    exact safe.beforeWrite idle held real fresh
  | replaceFile =>
    cases busy : w.writing with
    | none => simp [World.step, busy] at stepped
    | some writing =>
      simp only [World.step, busy, ite_none_left_eq_some, Bool.not_eq_true, some.injEq] at stepped
      obtain ⟨unplaced, result⟩ := stepped
      rw [← result]
      exact safe.replaceFile busy unplaced
  | afterWrite =>
    cases busy : w.writing with
    | none => simp [World.step, busy] at stepped
    | some writing =>
      simp only [World.step, busy, ite_none_right_eq_some, some.injEq] at stepped
      obtain ⟨placed, result⟩ := stepped
      rw [← result]
      exact safe.afterWrite busy placed
  | crash =>
    cases stepped
    exact safe.crash undisturbed
  | putBack peer version =>
    cases version with
    | none =>
      cases stepped
      exact safe.putBack nofun
    | some version =>
      obtain ⟨file, there, result⟩ := map_eq_some_iff.mp stepped
      rw [← result]
      apply safe.putBack
      intro f same
      cases same
      exact List.mem_of_getElem? there

end World

/-- If no crash falls into the first write after a load that found its file behind,
every load gives the latest state or starts a new session, and never an old number. -/
theorem loads_safe_of_undisturbed (S : Suite) (events : List (Event S)) (last : World S)
    (undisturbed : Along World.step Undisturbed (start S) events)
    (ran : run World.step (start S) events = some last) :
    ∀ l ∈ last.loads, l.Safe := by
  exact (invariant_of_run (fun safe met stepped => Safe.step safe met stepped) Safe.start undisturbed ran).loads

/-! The run that ends a process inside that first write. -/

namespace Sample

open Symbolic

def contact : B32 := ByteVec.fill 32 2

def file (byte : UInt8) : Fingerprint := ByteVec.fill 16 byte

def state (sendSeq : UInt64) : PeerState suite := { PeerState.new suite contact with
    sendSeq := sendSeq
    session := (Session.newInitiator (person 1) contact (ByteVec.fill 32 3) (ByteVec.fill 32 4)).toOption }

def write (byte : UInt8) (sendSeq : UInt64) : List (Event suite) :=
  [.change contact (state sendSeq), .beforeWrite contact (file byte), .replaceFile, .afterWrite]

/-- Two writes, the second undone after the process ended; the next process finds
the file behind. -/
def undone : List (Event suite) :=
  .load contact :: write 1 1 ++ write 2 2 ++ [.crash, .putBack contact (some 0), .load contact]

/-- Its first write of the file is cut short. -/
def cut : List (Event suite) := undone ++ [.beforeWrite contact (file 3), .crash, .load contact]

def lastLoad (events : List (Event suite)) : Option (Loaded suite) :=
  (run World.step (start suite) events).bind (·.loads.getLast?)

end Sample

open Rollback.Sample

theorem loads_safe_of_undone : ∃ last, run World.step (start suite) undone =
    some last ∧ last.loads.map Loaded.fine = [true, false] ∧ ∀ l ∈ last.loads, l.Safe := by
  have undisturbed : Along World.step Undisturbed (start suite) undone := by
    decide +kernel
  have observed : (run World.step (start suite) undone).any
      (fun last => last.loads.map Loaded.fine == [true, false]) = true := by decide +kernel
  obtain ⟨last, ran, loads⟩ := (any_eq_true _ _).mp observed
  exact ⟨last, ran, by simpa using loads, loads_safe_of_undisturbed suite undone last undisturbed ran⟩

/-- The superseded file is found fine, and its session and its old number are used. -/
theorem cut_write_revives_superseded : ∃ events last, ∃ l : Loaded suite,
    run World.step (start suite) events = some last ∧ l ∈ last.loads ∧
      l.fine = true ∧ ¬ l.past.Latest l.disk ∧
      l.state.session.isSome ∧ l.disk ∈ l.past.superseded ∧
      ∃ seq ∈ l.past.completed, l.state.sendSeq < seq := by
  have observed : (lastLoad cut).any (fun l => l.fine = true ∧
      ¬ l.past.Latest l.disk ∧ l.state.session.isSome ∧ l.disk ∈ l.past.superseded ∧
      ∃ seq ∈ l.past.completed, l.state.sendSeq < seq) = true := by decide +kernel
  obtain ⟨l, found, facts⟩ := exists_of_any observed
  obtain ⟨last, ran, newest⟩ := bind_eq_some_iff.mp found
  exact ⟨cut, last, l, ran, List.mem_of_getLast? newest, facts⟩

end Miasma.Chat.Rollback
