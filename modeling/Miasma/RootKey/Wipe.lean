import Miasma.Data.Bytes
import Miasma.Data.Run

namespace Miasma.RootKey

open Data List

/-! Wiping the key files while others use them (`root_key/wipe.rs`, `sealed.rs` and `mod.rs`).

The steps of all wipes and calls, in any number of processes, happen in any order; no lock keeps them apart. -/

abbrev Key := B32

/-- The files a key can be in, staging files and set-aside ones with a number of their own. -/
inductive Name where
  | master | sealed | aside | staging (n : Nat) | corrupt (n : Nat)
deriving DecidableEq

inductive Content where
  | plain (key : Key)
  | wrapped (key : Key)
  | marker
deriving DecidableEq

namespace Content

def key? : Content → Option Key
  | .plain key | .wrapped key => some key
  | .marker => none

/-- `open_blob`. -/
def unwrap : Content → Option Key
  | .wrapped key => some key
  | _ => none

end Content

inductive Micro where
  /-- `open`; where there is no key, one may be created. -/
  | «open» (wrap create : Bool)
  /-- `seal_with` reads `master.key` alone. -/
  | readPlain
  /-- Of `create`. -/
  | create (wrap : Bool)
  | readBack
  /-- Of `migrate`. -/
  | clean | recheck | settle | stage | link | verify | stageStub | linkAside | putStub | reverify | eraseAside
  /-- The marker, only if `master.key` does not exist. -/
  | newStub (needed : Bool)
  | finishAside
  /-- Of `restore_from_aside`. -/
  | restore | setAside
  | register
deriving DecidableEq

/-- How a step of a call turns out; `lost` is what wraps the key, or a file that is renamed. -/
inductive Luck where
  | fine | fails | lost
deriving DecidableEq

/-- A call of `get_with` or `seal_with` that has passed `finish_pending`. -/
structure Call where
  proc : Nat
  todo : List Micro
  loaded : Option Key

inductive WipeStage where
  | entered | marked | erased | destroyed
  | removing (targets : List Name)
deriving DecidableEq

structure Wipe where
  proc : Nat
  stage : WipeStage
  failed : Bool

/-- A live handle; a wipe erases it in place. -/
structure Handle where
  proc : Nat
  key : Key
  erased : Bool

abbrev Files := List (Name × Content)

structure World where
  files : Files
  /-- `wipe.pending`. -/
  pending : Bool
  calls : List Call
  wipes : List Wipe
  handles : List Handle
  /-- The wipes that returned, and whether their report is complete. -/
  reports : List (Nat × Bool)
  /-- Some wipe has written its marker. -/
  begun : Bool
  /-- The keys that were returned, and whether the marker had been written by then. -/
  returned : List (Bool × Key)

inductive Event where
  /-- A call starts with `finish_pending`. -/
  | getWith (proc : Nat) (wrap : Bool)
  | sealWith (proc : Nat)
  /-- The call at this place takes its next step; a key and a number are drawn for it. -/
  | advance (place : Nat) (luck : Luck) (drawn : Key) (number : Nat)
  | wipe (proc : Nat)
  | wipeStep (place : Nat) (fails : Bool)
  | crash (proc : Nat)

def migrate : List Micro :=
  [.clean, .recheck, .settle, .stage, .link, .verify, .stageStub, .linkAside, .putStub, .reverify, .eraseAside]

namespace Files

variable (files : Files)

def get? (name : Name) : Option Content := (files.find? (·.1 = name)).map (·.2)

def remove (name : Name) : Files := files.filter (·.1 ≠ name)

def put (name : Name) (content : Content) : Files := (name, content) :: files.remove name

def rename (name target : Name) : Files := match files.get? name with
  | none => files
  | some content => (files.remove name).put target content

def unstaged : Files := files.filter fun f => !(f.1 matches .staging _)

/-- The way back from a sealed file that does not open: a plain key beside it, which is the one of its header if
that can be read. -/
def asideKey (sealed : Content) : Option Key := match files.get? .aside with
  | some (.plain key) => if sealed matches .wrapped _ && sealed ≠ .wrapped key then none else some key
  | _ => none

/-- The start-up rules: the key, if there is one, and the steps that follow; none where `open` fails. -/
def «open» (wrap lost : Bool) : Option (Option Key × List Micro) :=
  match files.get? .master, files.get? .sealed with
  | none, none => some (none, [])
  | some (.plain key), _ => some (some key, if wrap then migrate else [])
  | some .marker, some content =>
      match if lost then none else content.unwrap with
      | some key => some (some key, [.finishAside])
      | none => (files.asideKey content).map fun key => (some key, [.restore, .setAside])
  | none, some content => (if lost then none else content.unwrap).map fun key => (some key, [.newStub false])
  -- `SealedFileMissing`, or a damaged marker.
  | some .marker, none | some (.wrapped _), _ => none

/-- Never replaces a key. -/
def create (wrap : Bool) (drawn : Key) : Option Files :=
  let name : Name := if wrap then .sealed else .master
  if (files.get? name).isSome then none else some (files.put name (if wrap then .wrapped drawn else .plain drawn))

/-- One step of a call that holds `key`; none if it fails. -/
def act (key : Key) (number : Nat) : Micro → Option Files
  | .clean => some (files.unstaged.remove .aside)
  | .recheck => if files.get? .master = some (.plain key) then some files else none
  | .settle =>
      if (files.get? .sealed).all (· = .wrapped key) then some files else some (files.rename .sealed (.corrupt number))
  | .stage => if (files.get? .sealed).isSome then some files else some (files.put (.staging number) (.wrapped key))
  | .link =>
      if (files.get? .sealed).isNone then some (files.unstaged.put .sealed (.wrapped key))
      else if files.get? .sealed = some (.wrapped key) then some files else none
  | .verify | .readBack => if files.get? .sealed = some (.wrapped key) then some files else none
  | .stageStub => some (files.put (.staging number) .marker)
  | .linkAside => (files.get? .master).bind fun content => some (files.put .aside content)
  | .putStub => some (files.unstaged.put .master .marker)
  | .reverify =>
      if files.get? .master = some .marker ∧ files.get? .sealed = some (.wrapped key) then some files else none
  | .eraseAside => some (files.remove .aside)
  | .newStub _ => if (files.get? .master).isSome then some files else some (files.put .master .marker)
  | .finishAside => if files.get? .aside = some (.plain key) then some (files.remove .aside) else some files
  | .restore => if files.get? .aside = some (.plain key) then some (files.rename .aside .master) else none
  | .setAside => some (files.rename .sealed (.corrupt number))
  | .open .. | .readPlain | .create _ | .register => none

/-- What a step that fails leaves behind, and the steps after it.  A file that cannot be moved is removed. -/
def stopped (lost : Bool) (micro : Micro) (rest : List Micro) : Files × List Micro := match micro with
  | .readBack => (files.remove .sealed, [])
  | .reverify => (if lost then files.remove .aside else files.rename .aside .master, rest.filter (· = .register))
  | .restore => (if lost then files.remove .aside else files, [])
  | .setAside | .newStub true => (files, [])
  | .link | .putStub => (files.unstaged, rest.filter (· = .register))
  | .clean | .finishAside | .newStub false => (files, rest)
  | _ => (files, rest.filter (· = .register))

end Files

namespace World

variable (w : World)

def goOn (place : Nat) (call : Call) (files : Files) (todo : List Micro) (loaded : Option Key) : World :=
  { w with files, calls := if todo = [] then w.calls.eraseIdx place else w.calls.set place { call with todo, loaded } }

/-- The handle is live and the call returns. -/
def register (place proc : Nat) (key : Key) : World :=
  { w with calls := w.calls.eraseIdx place, handles := ⟨proc, key, false⟩ :: w.handles,
           returned := (w.begun, key) :: w.returned }

/-- One step of `get_with` or `seal_with`. -/
def advance (place : Nat) (luck : Luck) (drawn : Key) (number : Nat) : Option World := do
  let call ← w.calls[place]?
  match call.todo, call.loaded with
  | .open wrap create :: rest, _ =>
      match if luck = .fails then none else w.files.open wrap (luck = .lost) with
      | none => some (w.goOn place call w.files [] none)
      | some (some key, more) => some (w.goOn place call w.files (more ++ rest) (some key))
      | some (none, _) =>
          let made := .create wrap :: (if wrap then [.readBack, .newStub true] else []) ++ [.open wrap false]
          some (w.goOn place call w.files (if create then made ++ rest else []) none)
  | .readPlain :: _, _ =>
      match if luck = .fine then w.files.get? .master else none with
      | some (.plain key) => some (w.goOn place call w.files migrate (some key))
      | _ => some (w.goOn place call w.files [] none)
  | .create wrap :: rest, _ =>
      if luck ≠ .fine then some (w.goOn place call w.files [] none)
      else
        match w.files.create wrap drawn with
        | some files => some (w.goOn place call files rest (some drawn))
        | none => some (w.goOn place call w.files (rest.filter fun m => m matches .open .. | .register) none)
  | .register :: _, some key => some (w.register place call.proc key)
  | micro :: rest, some key =>
      match if luck = .fine then w.files.act key number micro else none with
      | some files => some (w.goOn place call files rest (some key))
      | none =>
          let (files, todo) := w.files.stopped (luck = .lost) micro rest
          some (w.goOn place call files todo (some key))
  | _, none => some (w.goOn place call w.files [] none)
  | [], _ => none

def wipeTargets : List Name := [.master, .sealed, .aside] ++ (w.files.map (·.1)).filter fun
    | .staging _ | .corrupt _ => true
    | _ => false

def eraseCached (proc : Nat) : World :=
  { w with handles := w.handles.map fun h => if h.proc = proc then { h with erased := true } else h }

def atStage (place : Nat) (v : Wipe) (stage : WipeStage) (failed : Bool) : World :=
  { w with wipes := w.wipes.set place { v with stage, failed := v.failed || failed } }

/-- One step of `wipe_data_dir`. -/
def wipeDataDir (place : Nat) (fails : Bool) : Option World := do
  let v ← w.wipes[place]?
  match v.stage with
  | .entered =>
      let marked := if fails then w else { w with pending := true, begun := true }
      some (marked.atStage place v .marked fails)
  | .marked => some ((w.eraseCached v.proc).atStage place v .erased false)
  | .erased => some (w.atStage place v .destroyed fails)
  | .destroyed => some (w.atStage place v (.removing w.wipeTargets) false)
  | .removing (name :: rest) =>
      some ((if fails then w else { w with files := w.files.remove name }).atStage place v (.removing rest) fails)
  | .removing [] =>
      let clean := w.files = [] ∧ !fails
      some { w with wipes := w.wipes.eraseIdx place, pending := w.pending && !clean,
                    reports := (v.proc, !v.failed && clean) :: w.reports }

/-- With a marker, the call finishes the wipe itself unless one is running. -/
def finishPending (proc : Nat) (todo : List Micro) : World :=
  if !w.pending then { w with calls := w.calls ++ [⟨proc, todo, none⟩] }
  else if w.wipes.any (·.proc = proc) then w
  else { w with wipes := w.wipes ++ [⟨proc, .entered, false⟩] }

def step : Event → Option World
  | .getWith proc wrap => some (w.finishPending proc [.open wrap true, .register])
  | .sealWith proc => some (w.finishPending proc [.readPlain])
  | .advance place luck drawn number => w.advance place luck drawn number
  | .wipe proc => some { w with wipes := w.wipes ++ [⟨proc, .entered, false⟩] }
  | .wipeStep place fails => w.wipeDataDir place fails
  | .crash proc =>
      some { w with calls := w.calls.filter (·.proc ≠ proc), wipes := w.wipes.filter (·.proc ≠ proc),
                    handles := w.handles.filter (·.proc ≠ proc) }

end World

open World

/-! ## What a wipe leaves -/

def Files.Free (key : Key) (files : Files) : Prop := ∀ f ∈ files, f.2.key? ≠ some key

def World.Dead (key : Key) (proc : Nat) (w : World) : Prop :=
  ∀ h ∈ w.handles, h.proc = proc → h.key = key → h.erased = true

/-- A key that is drawn is another one. -/
def Event.Fresh (key : Key) (_ : World) : Event → Prop
  | .advance _ _ drawn _ => drawn ≠ key
  | _ => True

/-- No call is past its check when a wipe writes its marker. -/
def Event.Alone (w : World) : Event → Prop
  | .wipeStep place _ => w.wipes[place]?.map (·.stage) = some .entered → w.calls = []
  | _ => True

instance (key : Key) (w : World) (event : Event) : Decidable (event.Fresh key w) := by
  cases event <;> unfold Event.Fresh <;> infer_instance

instance (w : World) (event : Event) : Decidable (event.Alone w) := by
  cases event <;> unfold Event.Alone <;> infer_instance

structure World.Wiping (key : Key) (w : World) : Prop where
  quiet : w.pending = true → w.calls = []
  unloaded : w.begun = true → ∀ c ∈ w.calls, c.loaded ≠ some key
  gone : w.begun = true → w.pending = true ∨ w.files.Free key
  erased : ∀ v ∈ w.wipes, v.failed = false → v.stage ≠ .entered →
    w.begun = true ∧ (v.stage ≠ .marked → w.Dead key v.proc)
  reported : ∀ proc, (proc, true) ∈ w.reports → w.begun = true ∧ w.files.Free key ∧ w.Dead key proc
  returned : (true, key) ∉ w.returned

namespace Files.Free

variable {files next : Files} {key other : Key} (free : files.Free key)
include free

theorem put (absent : content.key? ≠ some key) : (files.put name content).Free key := by
  intro f inside
  rcases mem_cons.mp inside with rfl | old
  · exact absent
  · exact free f (mem_filter.mp old).1

theorem filter (p : Name × Content → Bool) : Free key (files.filter p) :=
  fun f inside => free f (mem_filter.mp inside).1

theorem get? (there : files.get? name = some content) : content.key? ≠ some key := by
  obtain ⟨f, found, rfl⟩ := Option.map_eq_some_iff.mp there
  exact free f (mem_of_find?_eq_some found)

theorem rename : (files.rename name target).Free key := by
  unfold Files.rename
  split
  · exact free
  rename_i there
  exact put (free.filter _) (free.get? there)

theorem «open» (opened : files.open wrap lost = some (loaded, more)) : loaded ≠ some key := by
  have unwrapped : ∀ {content : Content} {k : Key}, files.get? .sealed = some content →
      (if lost then none else content.unwrap) = some k → k ≠ key := by
    intro content k there found
    have absent := free.get? there
    cases lost <;> cases content <;> cases found
    simpa [Content.key?] using absent
  have aside : ∀ {content : Content} {k : Key}, files.asideKey content = some k → k ≠ key := by
    intro content k found
    unfold asideKey at found
    split at found
    · rename_i there
      obtain ⟨_, same⟩ := Option.ite_none_left_eq_some.mp found
      cases same
      simpa [Content.key?] using free.get? there
    · cases found
  unfold Files.open at opened
  split at opened
  · cases opened
    simp
  · rename_i there
    cases opened
    simpa [Content.key?] using free.get? there
  · rename_i content _ there
    split at opened
    · rename_i found
      cases opened
      simpa using unwrapped there found
    · obtain ⟨k, found, same⟩ := Option.map_eq_some_iff.mp opened
      cases same
      simpa using aside found
  · rename_i content _ there
    obtain ⟨k, found, same⟩ := Option.map_eq_some_iff.mp opened
    cases same
    simpa using unwrapped there found
  all_goals cases opened

theorem create (differs : drawn ≠ key) (made : files.create wrap drawn = some next) : next.Free key := by
  obtain ⟨_, same⟩ := Option.ite_none_left_eq_some.mp made
  cases same
  refine free.put ?_
  cases wrap <;> simpa [Content.key?] using differs

theorem act (differs : other ≠ key) (acted : files.act other number micro = some next) : next.Free key := by
  have wrapped : (Content.wrapped other).key? ≠ some key := by simpa [Content.key?] using differs
  have marker : Content.marker.key? ≠ some key := by simp [Content.key?]
  cases micro with
  | linkAside =>
    obtain ⟨content, there, same⟩ := Option.bind_eq_some_iff.mp acted
    cases same
    exact free.put (free.get? there)
  | _ =>
    simp only [Files.act] at acted
    (repeat' split at acted) <;> cases acted
    all_goals first
      | exact free
      | exact free.filter _
      | exact filter (free.filter _) _
      | exact free.put wrapped
      | exact free.put marker
      | exact put (free.filter _) wrapped
      | exact put (free.filter _) marker
      | exact free.rename

theorem stopped : (files.stopped lost micro rest).1.Free key := by
  unfold Files.stopped
  split <;> (try split) <;> first | exact free | exact free.filter _ | exact free.rename

end Files.Free

namespace World

variable {w next : World} {key : Key} {place number : Nat} {fails : Bool} {luck : Luck} {drawn : Key}

/-- The call goes on, and the key comes back only where it was. -/
def GoesOn (key drawn : Key) (place : Nat) (call : Call) (w next : World) : Prop :=
  ∃ files todo loaded, next = w.goOn place call files todo loaded ∧
    (w.files.Free key → call.loaded ≠ some key → drawn ≠ key → files.Free key ∧ loaded ≠ some key)

theorem advance_cases (key : Key) (stepped : w.advance place luck drawn number = some next) : ∃ call ∈ w.calls,
    GoesOn key drawn place call w next ∨ ∃ k, call.loaded = some k ∧ next = w.register place call.proc k := by
  obtain ⟨call, there, stepped⟩ := Option.bind_eq_some_iff.mp stepped
  refine ⟨call, mem_of_getElem? there, ?_⟩
  have ended {todo} (same : some (w.goOn place call w.files todo none) = some next) :
      GoesOn key drawn place call w next :=
    ⟨_, _, none, (Option.some_inj.mp same).symm, fun free _ _ => ⟨free, by simp⟩⟩
  split at stepped
  · split at stepped
    · exact .inl (ended stepped)
    · rename_i opened
      cases stepped
      obtain ⟨_, opened⟩ := Option.ite_none_left_eq_some.mp opened
      exact .inl ⟨_, _, _, rfl, fun free _ _ => ⟨free, free.open opened⟩⟩
    · exact .inl (ended stepped)
  · split at stepped
    · rename_i read
      cases stepped
      obtain ⟨_, read⟩ := Option.ite_none_right_eq_some.mp read
      exact .inl ⟨_, _, _, rfl, fun free _ _ => ⟨free, free.get? read⟩⟩
    · exact .inl (ended stepped)
  · split at stepped
    · exact .inl (ended stepped)
    split at stepped
    · rename_i made
      cases stepped
      exact .inl ⟨_, _, _, rfl, fun free _ differs => ⟨free.create differs made, by simpa using differs⟩⟩
    · exact .inl (ended stepped)
  · rename_i k _ loaded
    cases stepped
    exact .inr ⟨k, loaded, rfl⟩
  · rename_i k _ _ _ _ _ loaded
    split at stepped
    · rename_i acted
      cases stepped
      obtain ⟨_, acted⟩ := Option.ite_none_right_eq_some.mp acted
      exact .inl ⟨_, _, _, rfl, fun free other _ =>
        ⟨free.act (by simpa [loaded] using other) acted, by rwa [loaded] at other⟩⟩
    · cases stepped
      exact .inl ⟨_, _, _, rfl, fun free other _ => ⟨free.stopped, by rwa [loaded] at other⟩⟩
  · exact .inl (ended stepped)
  · cases stepped

variable {todo : List Micro}

theorem mem_goOn {files : Files} (inside : c ∈ (w.goOn place call files todo loaded).calls) :
    c ∈ w.calls ∨ c.loaded = loaded := by
  simp only [goOn] at inside
  split at inside
  · exact .inl (mem_of_mem_eraseIdx inside)
  rcases mem_or_eq_of_mem_set inside with old | rfl
  · exact .inl old
  · exact .inr rfl

theorem Dead.of_handles (dead : w.Dead key proc) (handles : ∀ h ∈ next.handles, h ∈ w.handles ∨ h.key ≠ key) :
    next.Dead key proc := by
  intro h inside here same
  rcases handles h inside with old | other
  · exact dead h old here same
  · exact absurd same other

theorem Wiping.advance (wiping : w.Wiping key) (fresh : drawn ≠ key)
    (stepped : w.advance place luck drawn number = some next) : next.Wiping key := by
  obtain ⟨call, inside, made⟩ := advance_cases key stepped
  have idle : w.pending = false := by
    by_contra pending
    rw [wiping.quiet (by simpa using pending)] at inside
    cases inside
  have free : w.begun = true → w.files.Free key := fun begun =>
    (wiping.gone begun).resolve_left (by simp [idle])
  rcases made with ⟨files, todo, loaded, rfl, avoids⟩ | ⟨k, loaded, rfl⟩
  · have kept : ∀ begun : w.begun = true, files.Free key ∧ loaded ≠ some key := fun begun =>
      avoids (free begun) (wiping.unloaded begun call inside) fresh
    refine ⟨fun pending => ?_, fun begun c there => ?_, fun begun => .inr (kept begun).1, wiping.erased,
      fun proc reported => ?_, wiping.returned⟩
    · exact absurd (idle.symm.trans pending) (by simp)
    · rcases mem_goOn there with old | same
      · exact wiping.unloaded begun c old
      rw [same]
      exact (kept begun).2
    · obtain ⟨begun, _, dead⟩ := wiping.reported proc reported
      exact ⟨begun, (kept begun).1, dead⟩
  · have other : w.begun = true → k ≠ key := fun begun same =>
      wiping.unloaded begun call inside (by rw [loaded, same])
    have handles : w.begun = true → ∀ h ∈ (⟨call.proc, k, false⟩ : Handle) :: w.handles,
        h ∈ w.handles ∨ h.key ≠ key := by
      intro begun h there
      rcases mem_cons.mp there with rfl | old
      · exact .inr (other begun)
      · exact .inl old
    refine ⟨fun pending => ?_, fun begun c there => ?_, wiping.gone, fun v there clean past => ?_,
      fun proc reported => ?_, fun returned => ?_⟩
    · exact absurd (idle.symm.trans pending) (by simp)
    · exact wiping.unloaded begun c (mem_of_mem_eraseIdx there)
    · obtain ⟨begun, dead⟩ := wiping.erased v there clean past
      exact ⟨begun, fun later => (dead later).of_handles (handles begun)⟩
    · obtain ⟨begun, free, dead⟩ := wiping.reported proc reported
      exact ⟨begun, free, dead.of_handles (handles begun)⟩
    rcases mem_cons.mp returned with same | old
    · simp only [Prod.mk.injEq] at same
      exact other same.1.symm same.2.symm
    · exact wiping.returned old

theorem Wiping.wipeDataDir (wiping : w.Wiping key) (alone : (Event.wipeStep place fails).Alone w)
    (stepped : w.wipeDataDir place fails = some next) : next.Wiping key := by
  obtain ⟨v, there, stepped⟩ := Option.bind_eq_some_iff.mp stepped
  have inside : v ∈ w.wipes := mem_of_getElem? there
  -- The other wipes are where they were; this one has not failed before.
  have later : ∀ {stage failed} {u : Wipe}, u ∈ w.wipes.set place { v with stage, failed := v.failed || failed } →
      u.failed = false → u ∈ w.wipes ∨ u.proc = v.proc ∧ u.stage = stage ∧ v.failed = false ∧ failed = false := by
    intro stage failed u there clean
    rcases mem_or_eq_of_mem_set there with old | rfl
    · exact .inl old
    · exact .inr ⟨rfl, rfl, Bool.or_eq_false_iff.mp clean⟩
  have stays : ∀ {files : Files} {stage failed}, (∀ f ∈ files, f ∈ w.files) →
      (v.failed = false → w.begun = true ∧ w.Dead key v.proc) →
      Wiping key ({ w with files }.atStage place v stage failed) := by
    intro files stage failed fewer reached
    refine ⟨wiping.quiet, wiping.unloaded, fun begun => (wiping.gone begun).imp_right fun free f inside =>
      free f (fewer f inside), fun u set clean past => ?_, fun proc reported => ?_, wiping.returned⟩
    · rcases later set clean with old | ⟨own, _, kept, _⟩
      · exact wiping.erased u old clean past
      obtain ⟨begun, dead⟩ := reached kept
      exact ⟨begun, fun _ => own ▸ dead⟩
    · obtain ⟨begun, free, dead⟩ := wiping.reported proc reported
      exact ⟨begun, fun f inside => free f (fewer f inside), dead⟩
  have reached (far : v.stage ≠ .entered ∧ v.stage ≠ .marked) (clean : v.failed = false) :
      w.begun = true ∧ w.Dead key v.proc :=
    (wiping.erased v inside clean far.1).imp_right (· far.2)
  split at stepped
  · rename_i entered
    have none := alone (by simp [there, entered])
    cases fails with
    | true =>
      cases stepped
      refine { wiping with erased := fun u set clean past => ?_ }
      rcases later set clean with old | ⟨_, _, _, failed⟩
      · exact wiping.erased u old clean past
      · cases failed
    | false =>
      cases stepped
      refine ⟨fun _ => none, fun _ c inside => ?_, fun _ => .inl rfl, fun u set clean past => ⟨rfl, fun far => ?_⟩,
        fun proc reported => ⟨rfl, (wiping.reported proc reported).2⟩, wiping.returned⟩
      · rw [show _ = w.calls from rfl, none] at inside
        cases inside
      rcases later set clean with old | ⟨_, stage, _⟩
      · exact (wiping.erased u old clean past).2 far
      · exact absurd stage far
  · rename_i marked
    cases stepped
    have dead : ∀ proc, w.Dead key proc ∨ proc = v.proc → (w.eraseCached v.proc).Dead key proc := by
      intro proc known h inside here same
      obtain ⟨old, was, rfl⟩ := mem_map.mp inside
      split
      · rfl
      rename_i elsewhere
      rw [if_neg elsewhere] at here same
      exact known.elim (· old was here same) fun own => absurd (here.trans own) elsewhere
    refine { wiping with erased := fun u set clean past => ?_, reported := fun proc reported => ?_ }
    · rcases later set clean with old | ⟨own, stage, kept, _⟩
      · obtain ⟨begun, was⟩ := wiping.erased u old clean past
        exact ⟨begun, fun far => dead _ (.inl (was far))⟩
      · exact ⟨(wiping.erased v inside kept (by simp [marked])).1, fun _ => dead _ (.inr own)⟩
    · obtain ⟨begun, free, was⟩ := wiping.reported proc reported
      exact ⟨begun, free, dead proc (.inl was)⟩
  · rename_i stage
    cases stepped
    exact stays (fun _ => id) (reached (by simp [stage]))
  · rename_i stage
    cases stepped
    exact stays (fun _ => id) (reached (by simp [stage]))
  · rename_i stage
    cases stepped
    cases fails with
    | true => exact stays (fun _ => id) (reached (by simp [stage]))
    | false => exact stays (fun f inside => (mem_filter.mp inside).1) (reached (by simp [stage]))
  rename_i stage
  cases stepped
  refine ⟨fun pending => wiping.quiet (Bool.and_eq_true_iff.mp pending).1, wiping.unloaded, fun begun => ?_,
    fun u left clean past => wiping.erased u (mem_of_mem_eraseIdx left) clean past,
    fun proc reported => ?_, wiping.returned⟩
  · by_cases empty : w.files = []
    · exact .inr fun f inside => by simp [empty] at inside
    · exact (wiping.gone begun).imp_left fun pending => by simp [pending, empty]
  rcases mem_cons.mp reported with own | old
  · simp only [Prod.mk.injEq, Bool.true_eq, Bool.and_eq_true, Bool.not_eq_true', decide_eq_true_eq] at own
    obtain ⟨rfl, clean, empty, _⟩ := own
    obtain ⟨begun, dead⟩ := reached (by simp [stage]) clean
    exact ⟨begun, fun f inside => by simp [empty] at inside, dead⟩
  · exact wiping.reported proc old

theorem Wiping.finishPending (wiping : w.Wiping key) : (w.finishPending proc todo).Wiping key := by
  have added : ∀ u ∈ w.wipes ++ [⟨proc, .entered, false⟩], u.failed = false → u.stage ≠ .entered →
      w.begun = true ∧ (u.stage ≠ .marked → w.Dead key u.proc) := by
    exact forall_mem_snoc wiping.erased fun _ past => absurd rfl past
  simp only [World.finishPending]
  split
  · refine { wiping with
      quiet := fun pending => by simp_all
      unloaded := fun begun => forall_mem_snoc (wiping.unloaded begun) (by simp) }
  · split
    · exact wiping
    · exact { wiping with erased := added }

theorem Wiping.step (wiping : w.Wiping key) (met : event.Fresh key w ∧ event.Alone w)
    (stepped : w.step event = some next) : next.Wiping key := by
  cases event with
  | getWith | sealWith =>
    cases stepped
    exact wiping.finishPending
  | advance => exact wiping.advance met.1 stepped
  | wipe =>
    cases stepped
    exact { wiping with erased := forall_mem_snoc wiping.erased fun _ past => absurd rfl past }
  | wipeStep => exact wiping.wipeDataDir met.2 stepped
  | crash proc =>
    cases stepped
    have fewer : ∀ p, w.Dead key p → Dead key p { w with handles := w.handles.filter (·.proc ≠ proc) } :=
      fun p dead h inside => dead h (mem_filter.mp inside).1
    refine ⟨fun pending => by simp [wiping.quiet pending], fun begun c inside =>
      wiping.unloaded begun c (mem_filter.mp inside).1, wiping.gone, fun u inside clean past => ?_,
      fun p reported => ?_, wiping.returned⟩
    · obtain ⟨begun, dead⟩ := wiping.erased u (mem_filter.mp inside).1 clean past
      exact ⟨begun, fun far => fewer _ (dead far)⟩
    · obtain ⟨begun, free, dead⟩ := wiping.reported p reported
      exact ⟨begun, free, fewer p dead⟩

/-- Nothing but files and handles, before the first call. -/
def Start (w : World) : Prop :=
  w.pending = false ∧ w.calls = [] ∧ w.wipes = [] ∧ w.reports = [] ∧ w.begun = false ∧ w.returned = []

end World

/-- After a complete wipe no file holds the key and no handle of its process is usable on it,
and no key that is returned once a wipe has written its marker is the wiped one. -/
theorem wipe_leaves_no_key (key : Key) (start : World) (events : List Event) {w : World} (fresh : start.Start)
    (drawn : Along step (fun w e => e.Fresh key w) start events)
    (alone : Along step (fun w e => e.Alone w) start events) (ran : run step start events = some w) :
    (∀ proc, (proc, true) ∈ w.reports → w.files.Free key ∧ w.Dead key proc) ∧ (true, key) ∉ w.returned := by
  obtain ⟨idle, calls, wipes, reports, unbegun, returned⟩ := fresh
  have start : start.Wiping key := by
    refine ⟨?_, ?_, ?_, ?_, ?_, ?_⟩ <;> simp [idle, calls, wipes, reports, unbegun, returned]
  have wiping := invariant_of_run Wiping.step start (drawn.and alone) ran
  exact ⟨fun proc reported => (wiping.reported proc reported).2, wiping.returned⟩

namespace Wiped

def directory (key : Key) : World := ⟨[(.master, .plain key)], false, [], [], [], [], false, []⟩

def wipeAll : List Event := .wipe 0 :: replicate 8 (.wipeStep 0 false)

/-- A `get` whose key is read before a wipe and registered after it. -/
theorem get_across_wipe_keeps_key :
    let key : Key := .fill 32 7
    let events : List Event := [.getWith 0 false, .advance 0 .fine default 0] ++ wipeAll ++ [.advance 0 .fine default 0]
    (directory key).Start ∧ Along step (fun w e => e.Fresh key w) (directory key) events ∧
      (run step (directory key) events).any (fun w => w.calls = [] ∧ (0, true) ∈ w.reports ∧
        ∃ h ∈ w.handles, h.proc = 0 ∧ h.key = key ∧ h.erased = false) = true :=
  ⟨⟨rfl, rfl, rfl, rfl, rfl, rfl⟩, by decide +kernel, by decide +kernel⟩

/-- A key that was handed out and wiped, and a call that comes later. -/
theorem wiped_after_get :
    let key : Key := .fill 32 7
    let events : List Event := [.getWith 0 false, .advance 0 .fine default 0, .advance 0 .fine default 0] ++ wipeAll ++
      [.getWith 0 false, .advance 0 .fine default 0]
    ∃ w, run step (directory key) events = some w ∧ (0, true) ∈ w.reports ∧
      (∀ proc, (proc, true) ∈ w.reports → w.files.Free key ∧ w.Dead key proc) ∧ (true, key) ∉ w.returned := by
  intro key events
  have observed : (run step (directory key) events).any (fun w => (0, true) ∈ w.reports) = true := by
    decide +kernel
  obtain ⟨w, ran, reported⟩ := exists_of_any observed
  have wiped := wipe_leaves_no_key key (directory key) events ⟨rfl, rfl, rfl, rfl, rfl, rfl⟩ (by decide +kernel)
    (by decide +kernel) ran
  exact ⟨w, ran, reported, wiped.1, wiped.2⟩

end Wiped

end Miasma.RootKey
