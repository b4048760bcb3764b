import Miasma.Dissolution.RoundTrip

namespace Miasma.Retrieval

open Data Dissolution List MiasmaShare

/-! Collecting shares from their holders (`retrieval/fetch.rs`).  Which of two answers comes first
is the choice of a schedule. -/

abbrev Answer := Except MiasmaError (Option MiasmaShare)

structure Candidate where
  addr : String
  answer : Answer

inductive FetchPolicy where
  | sequential
  | hedged (delayMs : Nat)

def FetchPolicy.hedges : FetchPolicy → Bool
  | .sequential => false
  | .hedged _ => true

def FetchPolicy.width (policy : FetchPolicy) : Nat := if policy.hedges then 2 else 1

/-- What the schedule decides in one round: whether the delay passes before an answer, and
which fetch answers. -/
structure Choice where
  slow : Bool
  which : Nat

structure Collecting where
  waiting : List Candidate
  inFlight : List Candidate
  valid : List MiasmaShare
  /-- The fetches started, in order. -/
  started : List Candidate

inductive Next where
  | going (state : Collecting)
  | returned (result : Except MiasmaError (List MiasmaShare))

/-- One collection: what is wanted of it and the schedule it runs under. -/
structure Order where
  libraries : Libraries
  mid : ContentId
  segmentIndex : UInt32
  need : Nat
  policy : FetchPolicy
  choices : Nat → Choice

def Collecting.launch (state : Collecting) (candidate : Candidate) (rest : List Candidate) : Collecting :=
  { state with
    waiting := rest
    inFlight := state.inFlight ++ [candidate]
    started := state.started ++ [candidate] }

/-- What is left to do: a candidate is started and then answers. -/
def Collecting.work (state : Collecting) : Nat := 2 * state.waiting.length + state.inFlight.length

namespace Order

variable (order : Order)

/-- `accept_share`.  The slots seen are those of the valid shares. -/
def acceptShare (answer : Answer) (valid : List MiasmaShare) : Except MiasmaError (List MiasmaShare) :=
  match answer with
  | .error e => .error e
  | .ok (some share) =>
    if share.segmentIndex = order.segmentIndex ∧ order.libraries.coarseVerify share order.mid ∧
        share.slotIndex ∉ valid.map slotIndex then .ok (valid ++ [share])
    else .ok valid
  | .ok none => .ok valid

def receive (choice : Choice) (state : Collecting) : Next :=
  let i := choice.which % state.inFlight.length
  match state.inFlight[i]? with
  | none => .returned (.ok state.valid)
  | some candidate =>
    match order.acceptShare candidate.answer state.valid with
    | .error e => .returned (.error e)
    | .ok valid => .going { state with inFlight := state.inFlight.eraseIdx i, valid }

/-- One round of the loop.  With nothing in flight the next candidate is asked; with one
fetch in flight a hedging policy asks another when the delay passes first. -/
def step (choice : Choice) (state : Collecting) : Next :=
  if order.need ≤ state.valid.length then .returned (.ok state.valid)
  else
    match state.waiting with
    | [] => if state.inFlight.isEmpty then .returned (.ok state.valid) else order.receive choice state
    | next :: rest =>
      if state.inFlight.isEmpty then .going (state.launch next rest)
      else if state.inFlight.length = 1 ∧ order.policy.hedges ∧ choice.slow then
        .going (state.launch next rest)
      else order.receive choice state

inductive Steps (state : Collecting) : Next → Prop where
  | enough (full : order.need ≤ state.valid.length) : Steps state (.returned (.ok state.valid))
  | exhausted (none : state.waiting = []) (idle : state.inFlight = []) :
      Steps state (.returned (.ok state.valid))
  | launched {next rest} (short : state.valid.length < order.need) (more : state.waiting = next :: rest)
      (room : state.inFlight.length < order.policy.width) : Steps state (.going (state.launch next rest))
  | failed {candidate e} (flying : candidate ∈ state.inFlight) (answered : candidate.answer = .error e) :
      Steps state (.returned (.error e))
  | received {i candidate valid} (short : state.valid.length < order.need)
      (flying : state.inFlight[i]? = some candidate)
      (accepted : order.acceptShare candidate.answer state.valid = .ok valid) :
      Steps state (.going { state with inFlight := state.inFlight.eraseIdx i, valid })

variable {valid : List MiasmaShare}

theorem acceptShare_error (failed : order.acceptShare answer valid = .error e) : answer = .error e := by
  simp only [acceptShare] at failed
  split at failed
  · cases failed
    rfl
  · split at failed <;> cases failed
  · cases failed

theorem receive_steps (short : state.valid.length < order.need) (flying : state.inFlight ≠ []) :
    order.Steps state (order.receive choice state) := by
  have inside : choice.which % state.inFlight.length < state.inFlight.length :=
    Nat.mod_lt _ (length_pos_iff.mpr flying)
  simp only [receive, getElem?_eq_getElem inside]
  split
  · rename_i failed
    exact .failed (getElem_mem inside) (order.acceptShare_error failed)
  · rename_i accepted
    exact .received short (getElem?_eq_getElem inside) accepted

theorem steps (choice : Choice) (state : Collecting) : order.Steps state (order.step choice state) := by
  simp only [step]
  split
  · rename_i full
    exact .enough full
  rename_i short
  have short := Nat.lt_of_not_le short
  split
  · rename_i none
    split
    · rename_i idle
      exact .exhausted none (isEmpty_iff.mp idle)
    · rename_i flying
      exact order.receive_steps short (by simpa using flying)
  rename_i next rest more
  split
  · rename_i idle
    refine .launched short more ?_
    rw [isEmpty_iff.mp idle, FetchPolicy.width]
    split <;> simp
  · rename_i flying
    split
    · rename_i hedge
      refine .launched short more ?_
      simp [FetchPolicy.width, hedge.1, hedge.2.1]
    · exact order.receive_steps short (by simpa using flying)

theorem work_decreases {next : Collecting} (going : order.step choice state = .going next) :
    next.work < state.work := by
  have stepped := order.steps choice state
  rw [going] at stepped
  cases stepped with
  | launched short more =>
    simp [Collecting.work, Collecting.launch, more]
    omega
  | received short flying =>
    obtain ⟨inside, _⟩ := List.getElem?_eq_some_iff.mp flying
    simp only [Collecting.work, length_eraseIdx_of_lt inside]
    omega

def loop (n : Nat) (state : Collecting) : Except MiasmaError (List MiasmaShare) :=
  match going : order.step (order.choices n) state with
  | .returned result => result
  | .going next => loop (n + 1) next
termination_by state.work
decreasing_by exact order.work_decreases going

def start (candidates : List Candidate) : Collecting := ⟨candidates, [], [], []⟩

def collectVerifiedShares (candidates : List Candidate) : Except MiasmaError (List MiasmaShare) :=
  if order.need = 0 then .ok [] else order.loop 0 (start candidates)

/-- The state before the `n`-th round. -/
inductive Visits (candidates : List Candidate) : Nat → Collecting → Prop where
  | start (some : order.need ≠ 0) : Visits candidates 0 (start candidates)
  | step {n state next} (visited : Visits candidates n state)
      (going : order.step (order.choices n) state = .going next) : Visits candidates (n + 1) next

/-! ## Fetches in flight -/

/-- The fetches of a state: few at once, and those started are the first candidates. -/
structure Bounded (candidates : List Candidate) (state : Collecting) : Prop where
  few : state.inFlight.length ≤ order.policy.width
  once : state.started ++ state.waiting = candidates

variable {order} {candidates : List Candidate} {choice : Choice} {state next : Collecting}

theorem Bounded.step (bounded : order.Bounded candidates state)
    (going : order.step choice state = .going next) : order.Bounded candidates next := by
  have stepped := order.steps choice state
  rw [going] at stepped
  cases stepped with
  | launched short more =>
    refine ⟨?_, ?_⟩
    · simp only [Collecting.launch, length_append, length_singleton]
      omega
    · simp [Collecting.launch, ← bounded.once, more]
  | @received i =>
    have fewer := length_eraseIdx_le state.inFlight i
    exact ⟨Nat.le_trans fewer bounded.few, bounded.once⟩

theorem bounded_of_visits (visited : order.Visits candidates n state) : order.Bounded candidates state := by
  induction visited with
  | start => exact ⟨by simp [Order.start], by simp [Order.start]⟩
  | step _ going ih => exact ih.step going

/-! ## What is collected -/

theorem loop_rule (Inv : Collecting → Prop) (Post : Except MiasmaError (List MiasmaShare) → Prop)
    (keeps : ∀ {choice state next}, Inv state → order.step choice state = .going next → Inv next)
    (ends : ∀ {choice state result}, Inv state → order.step choice state = .returned result → Post result)
    (n : Nat) (state : Collecting) (start : Inv state) : Post (order.loop n state) := by
  fun_induction order.loop n state with
  | case1 n state result returned => exact ends start returned
  | case2 n state next going ih => exact ih (keeps start going)

def Fits (order : Order) (share : MiasmaShare) : Prop :=
  share.segmentIndex = order.segmentIndex ∧ order.libraries.coarseVerify share order.mid = true

theorem acceptShare_ok {after : List MiasmaShare} (accepted : order.acceptShare answer valid = .ok after) :
    (∃ share, answer = .ok (some share) ∧ order.Fits share ∧
      share.slotIndex ∉ valid.map slotIndex ∧ after = valid ++ [share]) ∨
    (after = valid ∧ ∀ share, answer = .ok (some share) → order.Fits share →
      share.slotIndex ∈ valid.map slotIndex) := by
  simp only [acceptShare] at accepted
  split at accepted
  · cases accepted
  · rename_i share
    split at accepted
    · rename_i fits
      cases accepted
      exact .inl ⟨share, rfl, ⟨fits.1, fits.2.1⟩, fits.2.2, rfl⟩
    rename_i refused
    cases accepted
    refine .inr ⟨rfl, ?_⟩
    rintro _ ⟨⟩ fits
    by_contra fresh
    exact refused ⟨fits.1, fits.2, fresh⟩
  · cases accepted
    exact .inr ⟨rfl, by simp⟩

/-- The shares so far, and that no answered candidate is forgotten. -/
structure Gathers (order : Order) (candidates : List Candidate) (state : Collecting) : Prop where
  distinct : Distinct slotIndex state.valid
  atMost : state.valid.length ≤ order.need
  sound : ∀ share ∈ state.valid, order.Fits share ∧ ∃ candidate ∈ candidates, candidate.answer = .ok (some share)
  flying : ∀ candidate ∈ state.inFlight, candidate ∈ candidates
  waits : ∀ candidate ∈ state.waiting, candidate ∈ candidates
  settled : ∀ candidate ∈ candidates, candidate ∈ state.waiting ∨ candidate ∈ state.inFlight ∨
    ∀ share, candidate.answer = .ok (some share) → order.Fits share → share.slotIndex ∈ state.valid.map slotIndex

theorem gathers_start (candidates : List Candidate) : order.Gathers candidates (start candidates) where
  distinct := Distinct.nil
  atMost := by simp [start]
  sound := by simp [start]
  flying := by simp [start]
  waits candidate there := there
  settled candidate there := .inl there

theorem mem_or_eraseIdx {list : List Candidate} (found : list[i]? = some value) (member : other ∈ list) :
    other = value ∨ other ∈ list.eraseIdx i := by
  obtain ⟨inside, rfl⟩ := List.getElem?_eq_some_iff.mp found
  obtain ⟨j, below, rfl⟩ := mem_iff_getElem.mp member
  by_cases same : j = i
  · subst same
    exact .inl rfl
  · exact .inr (mem_eraseIdx_iff_getElem.mpr ⟨j, below, same, rfl⟩)

variable {candidate : Candidate}

section

variable (gathers : order.Gathers candidates state)
include gathers

theorem Gathers.launch (more : state.waiting = first :: rest) :
    order.Gathers candidates (state.launch first rest) := by
  have known := gathers.waits first (by simp [more])
  refine ⟨gathers.distinct, gathers.atMost, gathers.sound, forall_mem_snoc gathers.flying known, ?_, ?_⟩
  · intro candidate there
    exact gathers.waits candidate (by simp [more, show candidate ∈ rest from there])
  intro candidate there
  rcases gathers.settled candidate there with waits | flies | done
  · rw [more] at waits
    rcases mem_cons.mp waits with here | later
    · exact .inr (.inl (by simp [Collecting.launch, here]))
    · exact .inl later
  · exact .inr (.inl (by simp [Collecting.launch, flies]))
  · exact .inr (.inr done)

theorem Gathers.receive (short : state.valid.length < order.need)
    (flying : state.inFlight[i]? = some candidate)
    (accepted : order.acceptShare candidate.answer state.valid = .ok valid) :
    order.Gathers candidates { state with inFlight := state.inFlight.eraseIdx i, valid } := by
  have known := gathers.flying candidate (mem_of_getElem? flying)
  have others : ∀ other ∈ state.inFlight.eraseIdx i, other ∈ candidates := fun other there =>
    gathers.flying other (mem_of_mem_eraseIdx there)
  rcases acceptShare_ok accepted with ⟨share, answered, fits, fresh, rfl⟩ | ⟨rfl, covered⟩
  · refine ⟨gathers.distinct.concat ?_, ?_, forall_mem_snoc gathers.sound ⟨fits, candidate, known, answered⟩,
      others, gathers.waits, ?_⟩
    · intro held there same
      exact fresh (mem_map.mpr ⟨held, there, same⟩)
    · simp only [length_append, length_singleton]
      omega
    intro other there
    rcases gathers.settled other there with waits | flies | done
    · exact .inl waits
    · rcases mem_or_eraseIdx flying flies with rfl | still
      · refine .inr (.inr ?_)
        intro held answers _
        rw [answered] at answers
        cases answers
        simp
      · exact .inr (.inl still)
    · refine .inr (.inr fun held answers fits => ?_)
      simp only [map_append, mem_append]
      exact .inl (done held answers fits)
  · refine ⟨gathers.distinct, gathers.atMost, gathers.sound, others, gathers.waits, ?_⟩
    intro other there
    rcases gathers.settled other there with waits | flies | done
    · exact .inl waits
    · rcases mem_or_eraseIdx flying flies with rfl | still
      · exact .inr (.inr covered)
      · exact .inr (.inl still)
    · exact .inr (.inr done)

theorem Gathers.step (going : order.step choice state = .going next) : order.Gathers candidates next := by
  have stepped := order.steps choice state
  rw [going] at stepped
  cases stepped with
  | launched short more => exact gathers.launch more
  | received short flying accepted => exact gathers.receive short flying accepted

end

/-- What is returned was answered, fits, and is of distinct slots. -/
structure Collected (order : Order) (candidates : List Candidate) (shares : List MiasmaShare) : Prop where
  distinct : Distinct slotIndex shares
  atMost : shares.length ≤ order.need
  sound : ∀ share ∈ shares, order.Fits share ∧ ∃ candidate ∈ candidates, candidate.answer = .ok (some share)

theorem collected_of_ok (returned : order.collectVerifiedShares candidates = .ok shares) :
    order.Collected candidates shares := by
  rw [collectVerifiedShares] at returned
  split at returned
  · cases returned
    exact ⟨Distinct.nil, by simp, by simp⟩
  refine loop_rule (order.Gathers candidates)
    (fun result => ∀ shares, result = .ok shares → order.Collected candidates shares)
    (fun gathers going => gathers.step going) ?_ 0 _ (gathers_start candidates) shares returned
  intro choice state result gathers ended shares same
  have stepped := order.steps choice state
  rw [ended, same] at stepped
  cases stepped with
  | enough | exhausted => exact ⟨gathers.distinct, gathers.atMost, gathers.sound⟩

def Serves (order : Order) (candidates : List Candidate) (slot : UInt16) : Prop :=
  ∃ candidate ∈ candidates, ∃ share, candidate.answer = .ok (some share) ∧ order.Fits share ∧ share.slotIndex = slot

theorem Gathers.length_of_idle (gathers : order.Gathers candidates state) (none : state.waiting = [])
    (idle : state.inFlight = []) {slots : List UInt16} (distinct : slots.Nodup)
    (served : ∀ slot ∈ slots, order.Serves candidates slot) : slots.length ≤ state.valid.length := by
  have covered : slots ⊆ state.valid.map slotIndex := by
    intro slot member
    obtain ⟨candidate, there, share, answered, fits, rfl⟩ := served slot member
    rcases gathers.settled candidate there with waits | flies | done
    · simp [none] at waits
    · simp [idle] at flies
    · exact done share answered fits
  simpa using (subperm_of_subset distinct covered).length_le

theorem collect_of_clean (order : Order) (clean : ∀ candidate ∈ candidates, ∀ e, candidate.answer ≠ .error e)
    {slots : List UInt16} (distinct : slots.Nodup) (enough : order.need ≤ slots.length)
    (served : ∀ slot ∈ slots, order.Serves candidates slot) :
    ∃ shares, order.collectVerifiedShares candidates = .ok shares ∧ shares.length = order.need := by
  rw [collectVerifiedShares]
  split
  · rename_i zero
    exact ⟨[], rfl, zero.symm⟩
  refine loop_rule (order.Gathers candidates)
    (fun result => ∃ shares, result = .ok shares ∧ shares.length = order.need)
    (fun gathers going => gathers.step going) ?_ 0 _ (gathers_start candidates)
  intro choice state result gathers ended
  have stepped := order.steps choice state
  rw [ended] at stepped
  cases stepped with
  | enough full => exact ⟨_, rfl, Nat.le_antisymm gathers.atMost full⟩
  | exhausted none idle =>
    have covered := gathers.length_of_idle none idle distinct served
    exact ⟨_, rfl, Nat.le_antisymm gathers.atMost (enough.trans covered)⟩
  | failed flying answered => exact absurd answered (clean _ (gathers.flying _ flying) _)

theorem collect_of_failed {order : Order} (some : order.need ≠ 0) (answered : candidate.answer = .error e)
    (alone : order.policy = .sequential) : order.collectVerifiedShares (candidate :: rest) = .error e := by
  have short : ¬ order.need ≤ 0 := by omega
  rw [collectVerifiedShares, if_neg some, loop]
  have asks : order.step (order.choices 0) (start (candidate :: rest)) =
      .going ((start (candidate :: rest)).launch candidate rest) := by
    simp [step, start, short]
  have fails : order.step (order.choices 1) ((start (candidate :: rest)).launch candidate rest) =
      .returned (.error e) := by
    cases rest <;> simp [step, start, Collecting.launch, receive, short, Nat.mod_one, answered, acceptShare, alone,
        FetchPolicy.hedges]
  split
  · rename_i returned
    rw [asks] at returned
    cases returned
  rename_i going
  rw [asks] at going
  cases going
  rw [loop]
  split
  · rename_i returned
    rw [fails] at returned
    cases returned
    rfl
  · rename_i going
    rw [fails] at going
    cases going

end Order

open Retrieval.Order

/-- Under both policies and every order and schedule, enough slots are collected exactly when no
fetch fails, few fetches are in flight, and each candidate is asked at most once. -/
theorem collects_iff_clean (L : Libraries) (mid : ContentId) (segmentIndex : UInt32) (need : Nat)
    (genuine : MiasmaShare → Prop) (candidates : List Candidate) (slots : List UInt16)
    (passing : ∀ share, genuine share → L.coarseVerify share mid = true)
    (distinct : slots.Nodup) (enough : need ≤ slots.length)
    (served : ∀ slot ∈ slots, ∃ candidate ∈ candidates, ∃ share, candidate.answer = .ok (some share) ∧
      genuine share ∧ share.segmentIndex = segmentIndex ∧ share.slotIndex = slot)
    (honest : ∀ candidate ∈ candidates, ∀ share, candidate.answer = .ok (some share) →
      L.coarseVerify share mid = true → genuine share) :
    ((∀ ordered : List Candidate, ordered.Perm candidates → ∀ policy choices, ∃ shares,
        collectVerifiedShares ⟨L, mid, segmentIndex, need, policy, choices⟩ ordered = .ok shares ∧
        shares.length = need ∧ Distinct slotIndex shares ∧
        ∀ share ∈ shares, genuine share ∧ share.segmentIndex = segmentIndex) ↔
      need = 0 ∨ ∀ candidate ∈ candidates, ∀ e, candidate.answer ≠ .error e) ∧
    (∀ ordered : List Candidate, ordered.Perm candidates → ∀ policy choices n state,
      Visits ⟨L, mid, segmentIndex, need, policy, choices⟩ ordered n state →
      state.inFlight.length ≤ policy.width ∧ state.started ++ state.waiting = ordered) := by
  refine ⟨⟨?_, ?_⟩, ?_⟩
  · intro always
    by_contra broken
    simp only [not_or, not_forall, not_not] at broken
    obtain ⟨some, candidate, member, e, answered⟩ := broken
    obtain ⟨before, after, rfl⟩ := append_of_mem member
    -- The failed fetch is asked first.
    obtain ⟨shares, returned, _⟩ := always (candidate :: (before ++ after))
      perm_middle.symm .sequential fun _ => ⟨false, 0⟩
    rw [collect_of_failed some answered rfl] at returned
    cases returned
  · intro clean ordered same policy choices
    have found : ∃ shares, collectVerifiedShares ⟨L, mid, segmentIndex, need, policy, choices⟩ ordered =
        .ok shares ∧ shares.length = need := by
      rcases clean with zero | clean
      · exact ⟨[], by simp [collectVerifiedShares, zero], zero.symm⟩
      refine collect_of_clean _ (fun candidate there => clean candidate (same.mem_iff.mp there)) distinct enough ?_
      intro slot member
      obtain ⟨candidate, there, share, answered, real, index, rfl⟩ := served slot member
      exact ⟨candidate, same.mem_iff.mpr there, share, answered, ⟨index, passing share real⟩, rfl⟩
    obtain ⟨shares, returned, count⟩ := found
    obtain ⟨apart, _, sound⟩ := collected_of_ok returned
    refine ⟨shares, returned, count, apart, ?_⟩
    intro share there
    obtain ⟨⟨index, passes⟩, candidate, known, answered⟩ := sound share there
    exact ⟨honest candidate (same.mem_iff.mp known) share answered passes, index⟩
  · intro ordered _ policy choices n state visited
    obtain ⟨few, once⟩ := bounded_of_visits visited
    exact ⟨few, once⟩

namespace Holding

/-- A share of a made-up identifier in the slot, and its holder. -/
def mid : ContentId := ⟨.fill 32 5⟩

def share (slot : UInt16) : MiasmaShare := Parity.libraries.newShare 1 mid 0 slot [1, 2] [3] (.fill 12 0) 3 1000

def holder (slot : UInt16) : Candidate := ⟨"holder", .ok (some (share slot))⟩

def unreachable : Candidate := ⟨"gone", .error (.network "unreachable")⟩

theorem served (member : slot ∈ ([0, 1] : List UInt16)) :
    ∃ candidate ∈ [holder 0, holder 1], ∃ made, candidate.answer = .ok (some made) ∧
      (∃ slot, made = share slot) ∧ made.segmentIndex = 0 ∧ made.slotIndex = slot := by
  simp only [mem_cons, not_mem_nil, or_false] at member
  rcases member with rfl | rfl
  · exact ⟨holder 0, by simp, share 0, rfl, ⟨0, rfl⟩, rfl, rfl⟩
  · exact ⟨holder 1, by simp, share 1, rfl, ⟨1, rfl⟩, rfl, rfl⟩

/-- Two slots are wanted and both have a holder that answers with its share; the holder asked
first cannot be reached, and nothing is collected. -/
theorem one_failure_ends_collection :
    (∀ slot ∈ ([0, 1] : List UInt16), ∃ candidate ∈ [unreachable, holder 0, holder 1],
      candidate.answer = .ok (some (share slot)) ∧ (share slot).segmentIndex = 0 ∧
      (share slot).slotIndex = slot ∧ Parity.libraries.coarseVerify (share slot) mid = true) ∧
    collectVerifiedShares ⟨Parity.libraries, mid, 0, 2, .sequential, fun _ => ⟨false, 0⟩⟩
      [unreachable, holder 0, holder 1] = .error (.network "unreachable") := by
  refine ⟨?_, collect_of_failed (by decide) rfl rfl⟩
  intro slot member
  simp only [mem_cons, not_mem_nil, or_false] at member
  rcases member with rfl | rfl
  · exact ⟨holder 0, by simp, rfl, rfl, rfl, Libraries.coarseVerify_newShare ..⟩
  · exact ⟨holder 1, by simp, rfl, rfl, rfl, Libraries.coarseVerify_newShare ..⟩

/-- Without the unreachable holder both shares are collected, also where the second is asked
before the first has answered. -/
theorem collects_two_of_clean : ∃ shares,
    collectVerifiedShares ⟨Parity.libraries, mid, 0, 2, .hedged 250, fun n => ⟨true, n⟩⟩
      [holder 1, holder 0] = .ok shares ∧
    shares.length = 2 ∧ Distinct slotIndex shares := by
  obtain ⟨⟨_, collects⟩, _⟩ := collects_iff_clean Parity.libraries mid 0 2
    (fun made => ∃ slot, made = share slot) [holder 0, holder 1] [0, 1]
    (by rintro _ ⟨slot, rfl⟩; exact Libraries.coarseVerify_newShare ..) (by decide) (by decide)
    (fun slot member => served member) (by
      intro candidate there made answered _
      simp only [mem_cons, not_mem_nil, or_false] at there
      rcases there with rfl | rfl <;> (cases answered; exact ⟨_, rfl⟩))
  obtain ⟨shares, returned, count, distinct, _⟩ := collects (.inr (by
    intro candidate there e
    simp only [mem_cons, not_mem_nil, or_false] at there
    rcases there with rfl | rfl <;> simp [holder])) [holder 1, holder 0] (Perm.swap ..)
    (.hedged 250) fun n => ⟨true, n⟩
  exact ⟨shares, returned, count, distinct⟩

end Holding

end Miasma.Retrieval
