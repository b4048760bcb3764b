import Mathlib.Logic.Basic

namespace Miasma.Data

/-! Programs over a store that survives them.

A trace lists the stores a crash can leave behind, in order.  `Ensures` is a weakest
precondition with a crash condition. -/

universe u

structure Trace (σ τ α : Type u) where
  /-- The store after each step. -/
  seen : List σ
  store : σ
  memory : τ
  value : α

def Program (σ τ ε α : Type u) := σ → τ → Trace σ τ (Except ε α)

namespace Program

variable {σ τ ε α β : Type u}

protected def pure (value : α) : Program σ τ ε α := fun s t => ⟨[], s, t, .ok value⟩

protected def bind (first : Program σ τ ε α) (next : α → Program σ τ ε β) : Program σ τ ε β := fun s t =>
    match first s t with
    | ⟨seen, s, t, .ok value⟩ =>
      let rest := next value s t
      ⟨seen ++ rest.seen, rest.store, rest.memory, rest.value⟩
    | ⟨seen, s, t, .error e⟩ => ⟨seen, s, t, .error e⟩

instance : Monad (Program σ τ ε) where
  pure := Program.pure
  bind := Program.bind

def fail (e : ε) : Program σ τ ε α := fun s t => ⟨[], s, t, .error e⟩

/-- A call that touches neither store nor memory. -/
def ofExcept : Except ε α → Program σ τ ε α
  | .ok value => pure value
  | .error e => fail e

def reading (f : σ → α) : Program σ τ ε α := fun s t => ⟨[], s, t, .ok (f s)⟩

/-- What is read from the memory, which then moves on. -/
def recalling (f : τ → α) (next : τ → τ) : Program σ τ ε α := fun s t => ⟨[], s, next t, .ok (f t)⟩

/-- One step on the store, which a crash sees done or not done. -/
def write (f : σ → σ) : Program σ τ ε PUnit := fun s t => ⟨[f s], f s, t, .ok ⟨⟩⟩

/-- A step on the store that a crash may also see in one of its stages. -/
def writeThrough (stages : σ → List σ) (f : σ → σ) : Program σ τ ε PUnit :=
  fun s t => ⟨stages s ++ [f s], f s, t, .ok ⟨⟩⟩

/-! ## What a program ensures -/

/-- Started in a store and a memory, the program leaves only stores that meet `crash` on its
way, and ends as `fails` or `post` say. -/
def Ensures (program : Program σ τ ε α) (crash : σ → Prop) (fails : ε → σ → Prop)
    (post : α → σ → τ → Prop) (s : σ) (t : τ) : Prop :=
  (∀ left ∈ (program s t).seen, crash left) ∧ match (program s t).value with
    | .ok value => post value (program s t).store (program s t).memory
    | .error e => fails e (program s t).store

variable {crash other : σ → Prop} {fails otherFails : ε → σ → Prop} {post otherPost : α → σ → τ → Prop}
  {s : σ} {t : τ}

@[simp] theorem ensures_pure (value : α) :
    Ensures (pure value : Program σ τ ε α) crash fails post s t ↔ post value s t := by
  simp [Ensures, pure, Program.pure]

@[simp] theorem ensures_fail (e : ε) : Ensures (fail e : Program σ τ ε α) crash fails post s t ↔ fails e s := by
  simp [Ensures, fail]

@[simp] theorem ensures_reading (f : σ → α) :
    Ensures (reading f : Program σ τ ε α) crash fails post s t ↔ post (f s) s t := by
  simp [Ensures, reading]

@[simp] theorem ensures_recalling (f : τ → α) (next : τ → τ) :
    Ensures (recalling f next : Program σ τ ε α) crash fails post s t ↔ post (f t) s (next t) := by
  simp [Ensures, recalling]

@[simp] theorem ensures_write (f : σ → σ) {post : PUnit → σ → τ → Prop} :
    Ensures (write f : Program σ τ ε PUnit) crash fails post s t ↔ crash (f s) ∧ post ⟨⟩ (f s) t := by
  simp [Ensures, write]

@[simp] theorem ensures_writeThrough (stages : σ → List σ) (f : σ → σ) {post : PUnit → σ → τ → Prop} :
    Ensures (writeThrough stages f : Program σ τ ε PUnit) crash fails post s t ↔
      (∀ left ∈ stages s, crash left) ∧ crash (f s) ∧ post ⟨⟩ (f s) t := by
  simp [Ensures, writeThrough, or_imp, forall_and, and_assoc]

@[simp] theorem ensures_bind (first : Program σ τ ε α) (next : α → Program σ τ ε β) {post : β → σ → τ → Prop} :
    Ensures (first >>= next) crash fails post s t ↔
      Ensures first crash fails (fun value => Ensures (next value) crash fails post) s t := by
  change Ensures (Program.bind first next) crash fails post s t ↔ _
  simp only [Ensures, Program.bind]
  rcases first s t with ⟨seen, s, t, value | value⟩
  · simp
  · simp [or_imp, forall_and, and_assoc]

variable {program : Program σ τ ε α}

theorem Ensures.mono (holds : Ensures program crash fails post s t)
    (left : ∀ s, crash s → other s) (failed : ∀ e s, fails e s → otherFails e s)
    (ended : ∀ value s t, post value s t → otherPost value s t) :
    Ensures program other otherFails otherPost s t := by
  refine ⟨fun store seen => left store (holds.1 store seen), ?_⟩
  have last := holds.2
  revert last
  cases (program s t).value with
  | error e => exact failed e _
  | ok value => exact ended value _ _

theorem Ensures.imp (holds : Ensures program crash fails post s t)
    (ended : ∀ value s t, post value s t → otherPost value s t) :
    Ensures program crash fails otherPost s t :=
  holds.mono (fun _ => id) (fun _ _ => id) ended

theorem ensures_ofExcept (result : Except ε α) : Ensures (ofExcept result : Program σ τ ε α) crash fails post s t ↔
      match result with
      | .ok value => post value s t
      | .error e => fails e s := by
  cases result <;> simp [ofExcept]

/-! ## Programs that write nothing -/

def Quiet (program : Program σ τ ε α) : Prop := ∀ s t, (program s t).seen = [] ∧ (program s t).store = s

namespace Quiet

theorem pure (value : α) : Quiet (pure value : Program σ τ ε α) := fun _ _ => ⟨rfl, rfl⟩

theorem fail (e : ε) : Quiet (fail e : Program σ τ ε α) := fun _ _ => ⟨rfl, rfl⟩

theorem recalling (f : τ → α) (next : τ → τ) : Quiet (recalling f next : Program σ τ ε α) := fun _ _ => ⟨rfl, rfl⟩

theorem bind {next : α → Program σ τ ε β} (quiet : Quiet first) (after : ∀ value, Quiet (next value)) :
    Quiet (first >>= next) := by
  intro s t
  obtain ⟨seen, store⟩ := quiet s t
  change (Program.bind first next s t).seen = [] ∧ (Program.bind first next s t).store = s
  simp only [Program.bind]
  revert seen store
  rcases first s t with ⟨seen, last, memory, value | value⟩
  · exact fun seen store => ⟨seen, store⟩
  rintro rfl rfl
  exact ⟨(after value last memory).1, (after value last memory).2⟩

theorem ensures (quiet : Quiet program) (failed : ∀ e, fails e s) (ended : ∀ value t, post value s t) :
    Ensures program crash fails post s t := by
  obtain ⟨seen, store⟩ := quiet s t
  refine ⟨by simp [seen], ?_⟩
  rw [store]
  cases (program s t).value with
  | error e => exact failed e
  | ok value => exact ended value _

end Quiet

/-! ## Ways a program ends -/

/-- The store after a run that is cut off after some steps, or that is not. -/
def left (program : Program σ τ ε α) (s : σ) (t : τ) : Option Nat → Option σ
  | none => some (program s t).store
  | some steps => (s :: (program s t).seen)[steps]?

variable {program : Program σ τ ε α}

theorem Ensures.left (holds : Ensures program crash (fun _ => crash) (fun _ s _ => crash s) s t)
    (start : crash s) (ended : program.left s t steps = some store) : crash store := by
  cases steps with
  | none =>
    cases ended
    have last := holds.2
    revert last
    cases (program s t).value <;> exact id
  | some steps =>
    rcases List.mem_cons.mp (List.mem_of_getElem? ended) with rfl | seen
    · exact start
    · exact holds.1 store seen

theorem Ensures.returns (holds : Ensures program crash (fun _ _ => False) post s t) :
    ∃ value, (program s t).value = .ok value ∧ post value (program s t).store (program s t).memory := by
  have last := holds.2
  revert last
  cases (program s t).value with
  | error => exact False.elim
  | ok value => exact fun ended => ⟨value, rfl, ended⟩

end Program

end Miasma.Data
