import Miasma.Network.Descriptor

namespace Miasma.Network.DescriptorStore

open Data SortedMap Option

/-! How long the store gives a descriptor out.  The age counts from a time that the sender wrote,
and only a higher version replaces what is stored. -/

inductive Change where
  | upsert (listed : List B32) (now : Nat) (d : PeerDescriptor)
  | pruneStale (now : Nat)
  | registerPeerPseudonym (peer : PeerId) (pseudonym : B32)

section

variable (pseudonym : B32) (store : DescriptorStore) (now : Nat) (tier : B32 → Nat)

def step : Change → Option DescriptorStore
  | .upsert listed now d => if listed.Perm store.descriptors.keys then some (store.upsert listed now d).1 else none
  | .pruneStale now => some (store.pruneStale now)
  | .registerPeerPseudonym peer pseudonym => some (store.registerPeerPseudonym peer pseudonym)

def relayDescriptors : List PeerDescriptor := store.descriptors.values.filter fun d => d.isRelay && d.isFresh now

def activeDescriptors : List PeerDescriptor := store.descriptors.values.filter (·.isFresh now)

def Unrenewed : Change → Prop
  | .upsert listed now d => (store.upsert listed now d).2 = true → d.pseudonym ≠ pseudonym
  | _ => True

def without : DescriptorStore := { store with descriptors := store.descriptors.erase pseudonym }

/-- The store gives out what it gives out without the pseudonym. -/
structure Silent : Prop where
  relayDescriptors : store.relayDescriptors now = (store.without pseudonym).relayDescriptors now
  activeDescriptors : store.activeDescriptors now = (store.without pseudonym).activeDescriptors now
  relayPeerInfo : store.relayPeerInfo now tier = (store.without pseudonym).relayPeerInfo now tier
  relayOnionInfo : store.relayOnionInfo now tier = (store.without pseudonym).relayOnionInfo now tier

end

variable {store next last : DescriptorStore} {change : Change} {pseudonym : B32} {now : Nat}
  {listed : List B32} {d : PeerDescriptor}

theorem silent_of_stale (stale : ∀ d, store.descriptors.get? pseudonym = some d → d.isFresh now = false) :
    Silent pseudonym store now tier := by
  have relays : store.relayDescriptors now = (store.without pseudonym).relayDescriptors now :=
    (filter_values_erase fun d there => by simp [stale d there]).symm
  have same : store.relays now tier = (store.without pseudonym).relays now tier := by
    exact congrArg (fun list : List PeerDescriptor => (list.filterMap _).mergeSort _) relays
  refine ⟨relays, (filter_values_erase stale).symm, ?_, ?_⟩
  · simp only [relayPeerInfo, same]
  · simp only [relayOnionInfo, same]

theorem descriptors_upsert {store : DescriptorStore} :
    (store.upsert listed now d).1.descriptors = if (store.upsert listed now d).2 then
      (store.makeRoom listed now d.pseudonym).descriptors.insert d.pseudonym d else store.descriptors := by
  unfold upsert trackPseudonym DescriptorStore.insert
  dsimp only
  split_ifs <;> trivial

theorem size_evictOldest (store : DescriptorStore) (now : Nat)
    (all : ∀ {key d}, store.descriptors.get? key = some d → key ∈ listed) :
    (store.evictOldest listed now).descriptors.size ≤ store.descriptors.size - 1 := by
  unfold evictOldest
  dsimp only
  split
  · rename_i nothing
    simp only [List.argmax_eq_none, List.reverse_eq_nil_iff, List.filterMap_eq_nil_iff, map_eq_none_iff] at nothing
    have vacant : store.descriptors.entries = [] := List.eq_nil_iff_forall_not_mem.mpr fun entry member => by
      have there := get?_eq_some_iff.mpr member
      exact some_ne_none _ (there.symm.trans (nothing _ (all there)))
    simp [size, vacant]
  · rename_i oldest held chosen
    have member := List.argmax_mem chosen
    simp only [List.mem_reverse, List.mem_filterMap, map_eq_some_iff] at member
    obtain ⟨_, -, _, there, same⟩ := member
    cases same
    exact Nat.le_sub_one_of_lt (size_erase_lt there)

/-- After `makeRoom` the pseudonym is stored, or there is room for it. -/
theorem size_makeRoom (all : ∀ {key d}, store.descriptors.get? key = some d → key ∈ listed)
    (small : store.descriptors.size ≤ maxDescriptors) :
    (store.makeRoom listed now pseudonym).descriptors.size < maxDescriptors ∨
      store.makeRoom listed now pseudonym = store ∧ store.descriptors.contains pseudonym = true := by
  have pruned : (store.pruneStale now).descriptors.size ≤ store.descriptors.size := List.length_filter_le _ _
  have evicted := size_evictOldest (store.pruneStale now) now fun there => all (get?_of_filter there)
  have some : 0 < maxDescriptors := by decide
  unfold makeRoom
  dsimp only
  split_ifs with full more
  · omega
  · omega
  · grind [isFull]

theorem size_upsert (all : ∀ {key d}, store.descriptors.get? key = some d → key ∈ listed)
    (small : store.descriptors.size ≤ maxDescriptors) :
    (store.upsert listed now d).1.descriptors.size ≤ maxDescriptors := by
  rw [descriptors_upsert]
  split
  · rcases size_makeRoom all small with room | ⟨same, present⟩
    · exact (size_insert_le ..).trans room
    · rw [same, size_insert_of_contains present]
      exact small
  · exact small

theorem size_step (small : store.descriptors.size ≤ maxDescriptors) (stepped : store.step change = some next) :
    next.descriptors.size ≤ maxDescriptors := by
  cases change with
  | upsert listed now d =>
    obtain ⟨permuted, made⟩ := ite_none_right_eq_some.mp stepped
    cases made
    exact size_upsert (mem_listed permuted ·) small
  | pruneStale now =>
    cases stepped
    exact (List.length_filter_le _ _).trans small
  | registerPeerPseudonym =>
    cases stepped
    exact small

/-- What is stored under the pseudonym is `d`, if it is still there. -/
theorem only_step (only : ∀ held ∈ store.descriptors.get? pseudonym, held = d)
    (unrenewed : Unrenewed pseudonym store change) (stepped : store.step change = some next) :
    ∀ held ∈ next.descriptors.get? pseudonym, held = d := by
  cases change with
  | upsert listed now other =>
    obtain ⟨permuted, made⟩ := ite_none_right_eq_some.mp stepped
    cases made
    rw [descriptors_upsert]
    split
    · rename_i accepted
      rw [get?_insert_of_ne (unrenewed accepted).symm]
      have room := room_makeRoom now (mem_listed permuted ·) other.pseudonym
      exact fun held there => only held (room.descriptors there)
    · exact only
  | pruneStale now =>
    cases stepped
    exact fun held there => only held (get?_of_filter there)
  | registerPeerPseudonym =>
    cases stepped
    exact only

/-- A descriptor that was published when it is accepted, or before, is given out for its maximum
age at the most, unless another one of its pseudonym is accepted.  A fresh descriptor of a higher
version is always accepted. -/
theorem published_descriptors_expire (past : List Change) (store : DescriptorStore)
    (ran : run step .new past = some store) :
    store.descriptors.size ≤ maxDescriptors ∧ ∀ listed t d,
      (d.isFresh t = true → (∀ held ∈ store.descriptors.get? d.pseudonym, held.version < d.version) →
        (store.upsert listed t d).2 = true) ∧
      ((store.upsert listed t d).2 = true → d.publishedAt ≤ t → ∀ later last,
        Along step (Unrenewed d.pseudonym) (store.upsert listed t d).1 later →
        run step (store.upsert listed t d).1 later = some last →
        ∀ now tier, t + d.maxAge ≤ now → last.Silent d.pseudonym now tier) := by
  have small := invariant_of_run (I := fun s => s.descriptors.size ≤ maxDescriptors)
    (fun small _ stepped => size_step small stepped) (Nat.zero_le _) (along_of_forall (fun _ _ _ => trivial) _) ran
  refine ⟨small, fun listed t d => ⟨fun fresh newer => ?_, ?_⟩⟩
  · unfold upsert
    rw [if_neg (by simp [fresh]), if_neg (by simpa [any_eq_false] using newer)]
  · intro accepted published later last unrenewed went now tier aged
    refine silent_of_stale (fun held there => ?_)
    have only : held = d := by
      refine invariant_of_run only_step ?_ unrenewed went held there
      rw [descriptors_upsert, if_pos accepted, get?_insert_self]
      exact fun held there => (some.inj there).symm
    rw [only]
    refine decide_eq_false (Nat.not_lt.mpr ?_)
    unfold PeerDescriptor.ageSecs
    omega

open Exchanges.Sample

theorem published_descriptors_expire_after_renewal :
    let past := [.upsert [] 100 (descriptor 1 7 1), .registerPeerPseudonym alice (.fill 32 7)]
    ∃ store last, run step .new past = some store ∧ (store.upsert [.fill 32 7] 200 (descriptor 1 7 2)).2 = true ∧
      run step (store.upsert [.fill 32 7] 200 (descriptor 1 7 2)).1 [.pruneStale 300] = some last ∧
      last.Silent (.fill 32 7) 3800 fun _ => 0 := by
  intro past
  refine ⟨_, _, rfl, by decide +kernel, rfl, ?_⟩
  exact ((published_descriptors_expire past _ rfl).2 [.fill 32 7] 200 (descriptor 1 7 2)).2 (by decide +kernel)
    (by decide) [.pruneStale 300] _ ⟨trivial, trivial⟩ rfl 3800 _ (by decide)

def postdated : PeerDescriptor := { descriptor 1 7 1 with publishedAt := 3700 }

/-- Accepted with a time that lies ahead, a descriptor is given out when its maximum age is over.
The same one, fresh by then, is refused for a stale one of its version. -/
theorem descriptor_outlives_its_age :
    (new.upsert [] 100 postdated).2 = true ∧
      postdated ∈ (new.upsert [] 100 postdated).1.activeDescriptors (100 + postdated.maxAge) ∧
    (descriptor 1 7 1).isFresh 3700 = false ∧ postdated.isFresh 3700 = true ∧
      ((new.upsert [] 100 (descriptor 1 7 1)).1.upsert [.fill 32 7] 3700 postdated).2 = false := by
  decide +kernel

end Miasma.Network.DescriptorStore
