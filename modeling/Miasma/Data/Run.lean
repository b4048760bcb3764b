import Mathlib.Logic.Basic

namespace Miasma.Data

/-! Runs of a partial step function.  `Along` says that every step of a run meets a condition; what
those steps keep holds in the last state. -/

variable {σ ε : Type*}

def run (step : σ → ε → Option σ) : σ → List ε → Option σ
  | s, [] => some s
  | s, event :: events => (step s event).bind (run step · events)

/-- Each event meets `allowed` in the state it happens in. -/
def Along (step : σ → ε → Option σ) (allowed : σ → ε → Prop) : σ → List ε → Prop
  | _, [] => True
  | s, event :: events => allowed s event ∧
      match step s event with
      | none => True
      | some next => Along step allowed next events

instance decidableAlong (step : σ → ε → Option σ) (allowed : σ → ε → Prop) [∀ s event, Decidable (allowed s event)] :
    (s : σ) → (events : List ε) → Decidable (Along step allowed s events)
  | _, [] => .isTrue trivial
  | s, event :: events =>
    match h : step s event with
    | none => decidable_of_iff (allowed s event) (by simp [Along, h])
    | some next =>
      have := decidableAlong step allowed next events
      decidable_of_iff (allowed s event ∧ Along step allowed next events) (by simp [Along, h])

/-- What a decidable test finds in the last state of a run. -/
theorem exists_of_any {reached : Option σ} {decides : DecidablePred p}
    (observed : reached.any (fun s => decide (p s)) = true) : ∃ s, reached = some s ∧ p s := by
  obtain ⟨s, there, facts⟩ := (Option.any_eq_true _ _).mp observed
  exact ⟨s, there, of_decide_eq_true facts⟩

variable {step : σ → ε → Option σ} {allowed : σ → ε → Prop} {s last : σ}

theorem along_of_forall {events : List ε} (all : ∀ event ∈ events, ∀ s, allowed s event) (s : σ) :
    Along step allowed s events := by
  induction events generalizing s with
  | nil => trivial
  | cons event events ih =>
    refine ⟨all event (by simp) s, ?_⟩
    split
    · trivial
    · exact ih (fun other later => all other (by simp [later])) _

variable {events : List ε}

theorem Along.and (along : Along step allowed s events) (also : Along step other s events) :
    Along step (fun s event => allowed s event ∧ other s event) s events := by
  induction events generalizing s with
  | nil => trivial
  | cons event events ih =>
    obtain ⟨met, along⟩ := along
    obtain ⟨meets, also⟩ := also
    refine ⟨⟨met, meets⟩, ?_⟩
    cases stepped : step s event with
    | none => trivial
    | some next =>
      rw [stepped] at along also
      exact ih along also

theorem invariant_of_run {I : σ → Prop}
    (keeps : ∀ {s event next}, I s → allowed s event → step s event = some next → I next)
    (start : I s) (along : Along step allowed s events)
    (ran : run step s events = some last) : I last := by
  induction events generalizing s with
  | nil =>
    cases ran
    exact start
  | cons event events ih =>
    obtain ⟨next, stepped, rest⟩ := Option.bind_eq_some_iff.mp ran
    obtain ⟨met, along⟩ := along
    rw [stepped] at along
    exact ih (keeps start met stepped) along rest

theorem along_of_invariant {Inv : σ → Prop}
    (keeps : ∀ {s event next}, Inv s → allowed s event → step s event = some next → Inv next)
    (follows : ∀ {s event}, Inv s → allowed s event → law s event) (start : Inv s)
    (along : Along step allowed s events) : Along step law s events := by
  induction events generalizing s with
  | nil => trivial
  | cons event events ih =>
    obtain ⟨met, along⟩ := along
    refine ⟨follows start met, ?_⟩
    cases stepped : step s event with
    | none => trivial
    | some next =>
      rw [stepped] at along
      exact ih (keeps start met stepped) along

end Miasma.Data
