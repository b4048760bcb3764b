import Mathlib.Algebra.Ring.Int.Defs
import Mathlib.Algebra.Ring.Nat
import Mathlib.Data.List.Basic

namespace Miasma.Repair

open List

/-! Pacing of background traffic (`repair/schedule.rs`): a bucket of tokens and a daily cap.
Every sum of the source saturates. -/

def daySecs : Nat := 86400

def saturateU64 (value : Nat) : Nat := min value (2 ^ 64 - 1)

def saturateI64 (value : Int) : Int := max (-2 ^ 63) (min value (2 ^ 63 - 1))

/-- `i64::try_from(value).unwrap_or(i64::MAX)`. -/
def toI64 (value : Nat) : Int := min value (2 ^ 63 - 1)

structure RateBudget where
  rateBytesPerSec : Nat
  burstBytes : Nat
  dailyCapBytes : Nat
  tokens : Int
  lastRefill : Nat
  dayStart : Nat
  dayUsed : Nat

inductive Op where
  | canSpend
  | trySpend
  | charge

structure Call where
  op : Op
  now : Nat
  bytes : Nat

/-- Bytes that `try_spend` allowed, with the time of the call. -/
structure Spend where
  now : Nat
  bytes : Nat

namespace RateBudget

def new (rateBytesPerSec burstBytes dailyCapBytes startSecs : Nat) : RateBudget where
  rateBytesPerSec := rateBytesPerSec
  burstBytes := burstBytes
  dailyCapBytes := dailyCapBytes
  tokens := toI64 burstBytes
  lastRefill := startSecs
  dayStart := startSecs
  dayUsed := 0

variable (b : RateBudget)

def refill (now : Nat) : RateBudget := { b with
  tokens := if b.lastRefill < now then
      min (saturateI64 (b.tokens + toI64 (saturateU64 ((now - b.lastRefill) * b.rateBytesPerSec)))) (toI64 b.burstBytes)
    else b.tokens
  lastRefill := if b.lastRefill < now then now else b.lastRefill
  dayStart := if saturateU64 (b.dayStart + daySecs) ≤ now then now else b.dayStart
  dayUsed := if saturateU64 (b.dayStart + daySecs) ≤ now then 0 else b.dayUsed }

def canSpend (now bytes : Nat) : RateBudget × Bool :=
  let b := b.refill now
  if b.tokens < toI64 (min bytes b.burstBytes) ∨ 0 < bytes ∧ b.tokens ≤ 0 then (b, false)
  else (b, b.dailyCapBytes = 0 ∨ saturateU64 (b.dayUsed + bytes) ≤ b.dailyCapBytes)

/-- The accounting of `charge`, after its refill. -/
def pay (bytes : Nat) : RateBudget :=
  { b with tokens := saturateI64 (b.tokens - toI64 bytes), dayUsed := saturateU64 (b.dayUsed + bytes) }

def charge (now bytes : Nat) : RateBudget := (b.refill now).pay bytes

def trySpend (now bytes : Nat) : RateBudget × Bool := match b.canSpend now bytes with
  | (b, false) => (b, false)
  | (b, true) => (b.charge now bytes, true)

/-- The state after a call, and whether it was a `try_spend` that was allowed. -/
def step (call : Call) : RateBudget × Bool := match call.op with
  | .canSpend => ((b.canSpend call.now call.bytes).1, false)
  | .trySpend => b.trySpend call.now call.bytes
  | .charge => (b.charge call.now call.bytes, false)

def spends (b : RateBudget) : List Call → List Spend
  | [] => []
  | call :: rest =>
    let (next, allowed) := b.step call
    (if allowed then [⟨call.now, call.bytes⟩] else []) ++ next.spends rest

end RateBudget

def total (p : Spend → Bool) (spends : List Spend) : Nat := ((spends.filter p).map Spend.bytes).sum

def within (first last : Nat) (spend : Spend) : Bool := first ≤ spend.now ∧ spend.now ≤ last

variable {b : RateBudget} {call : Call} {calls rest : List Call}

namespace RateBudget

theorem refill_refill {b : RateBudget} : (b.refill now).refill now = b.refill now := by
  unfold refill
  grind

theorem step_refill {b : RateBudget} : (b.refill call.now).step call = b.step call := by
  simp only [step, trySpend, canSpend, charge, refill_refill]

theorem refill_frame (b : RateBudget) (now : Nat) : (b.refill now).rateBytesPerSec = b.rateBytesPerSec ∧
    (b.refill now).burstBytes = b.burstBytes ∧ (b.refill now).dailyCapBytes = b.dailyCapBytes ∧
      (b.refill now).lastRefill = max b.lastRefill now := by
  refine ⟨rfl, rfl, rfl, ?_⟩
  simp only [refill]
  split <;> omega

/-- Every call refills, and it may pay; only what both the bucket and the cap allow is spent. -/
theorem step_cases (b : RateBudget) (call : Call) :
    b.step call = (b.refill call.now, false) ∨ b.step call = ((b.refill call.now).pay call.bytes, false) ∨
      b.step call = ((b.refill call.now).pay call.bytes, true) ∧
        toI64 (min call.bytes (b.refill call.now).burstBytes) ≤ (b.refill call.now).tokens ∧
        ((b.refill call.now).dailyCapBytes = 0 ∨
          saturateU64 ((b.refill call.now).dayUsed + call.bytes) ≤ (b.refill call.now).dailyCapBytes) := by
  obtain ⟨op, now, bytes⟩ := call
  have paid : (b.refill now).charge now bytes = (b.refill now).pay bytes := by rw [charge, refill_refill]
  cases op with
  | charge => exact .inr (.inl rfl)
  | canSpend =>
    refine .inl ?_
    simp only [step, canSpend]
    split <;> rfl
  | trySpend =>
    simp only [step, trySpend, canSpend]
    generalize b.refill now = r at paid ⊢
    by_cases poor : r.tokens < toI64 (min bytes r.burstBytes) ∨ 0 < bytes ∧ r.tokens ≤ 0
    · simp only [if_pos poor, true_or]
    by_cases capped : r.dailyCapBytes = 0 ∨ saturateU64 (r.dayUsed + bytes) ≤ r.dailyCapBytes
    · simp only [if_neg poor, decide_eq_true capped]
      exact .inr (.inr ⟨by rw [paid], by omega, capped⟩)
    · simp only [if_neg poor, decide_eq_false capped, true_or]

theorem total_cons {b : RateBudget} :
    total p (b.spends (call :: rest)) = (if (b.step call).2 ∧ p ⟨call.now, call.bytes⟩
      then call.bytes else 0) + total p ((b.step call).1.spends rest) := by
  simp only [spends, total, filter_append, map_append, sum_append]
  split <;> grind

/-! ## The average rate -/

def Fits (b : RateBudget) : Prop := -2 ^ 63 ≤ b.tokens ∧ b.tokens ≤ b.burstBytes

structure Modest (b : RateBudget) (calls : List Call) : Prop where
  fits : b.Fits
  burst : b.burstBytes < 2 ^ 62
  amounts : ∀ call ∈ calls, call.bytes < 2 ^ 62

theorem Fits.refill (fits : b.Fits) (now : Nat) : (b.refill now).Fits ∧
    (b.refill now).tokens ≤ b.tokens + (b.rateBytesPerSec * (max b.lastRefill now - b.lastRefill) : Nat) := by
  obtain ⟨low, full⟩ := fits
  simp only [Fits, RateBudget.refill]
  split
  · rw [Nat.max_eq_right (by omega), Nat.mul_comm]
    simp only [saturateI64, saturateU64, toI64]
    omega
  · omega

/-- What a call does to the bucket. -/
structure Paced (b : RateBudget) (call : Call) (next : RateBudget) (allowed : Bool) : Prop where
  rate : next.rateBytesPerSec = b.rateBytesPerSec
  burst : next.burstBytes = b.burstBytes
  last : next.lastRefill = max b.lastRefill call.now
  fits : next.Fits
  pays : next.tokens + (if allowed then call.bytes else 0 : Nat) ≤
    b.tokens + (b.rateBytesPerSec * (max b.lastRefill call.now - b.lastRefill) : Nat)
  covered : allowed = true → (min call.bytes b.burstBytes : Nat) ≤ next.tokens + call.bytes

theorem Modest.paced (modest : Modest b (call :: rest)) : b.Paced call (b.step call).1 (b.step call).2 := by
  obtain ⟨rate, burst, -, last⟩ := b.refill_frame call.now
  obtain ⟨fits, gains⟩ := modest.fits.refill call.now
  have small := modest.burst
  have few := modest.amounts call mem_cons_self
  have cases := b.step_cases call
  generalize b.refill call.now = r at *
  have paid : (r.pay call.bytes).tokens = max (-2 ^ 63) (r.tokens - call.bytes) := by
    simp only [Fits, pay, saturateI64, toI64] at fits ⊢
    omega
  have kept : (r.pay call.bytes).Fits := by
    change _ ∧ _ ≤ (r.burstBytes : Int)
    rw [Fits] at fits
    omega
  rcases cases with same | same | ⟨same, enough, -⟩ <;> rw [same]
  · exact ⟨rate, burst, last, fits, by simpa using gains, nofun⟩
  · refine ⟨rate, burst, last, kept, ?_, nofun⟩
    rw [paid, if_neg nofun]
    have low := fits.1
    omega
  · rw [burst, toI64] at enough
    refine ⟨rate, burst, last, kept, ?_, fun _ => ?_⟩ <;> rw [paid]
    · rw [if_pos rfl]
      omega
    · omega

theorem Modest.next (modest : Modest b (call :: rest)) : Modest (b.step call).1 rest :=
  ⟨modest.paced.fits, modest.paced.burst ▸ modest.burst,
    fun other there => modest.amounts other (mem_cons_of_mem _ there)⟩

theorem Modest.foldl (modest : Modest b calls) : (calls.foldl (fun b call => (b.step call).1) b).Fits := by
  induction calls generalizing b with
  | nil => exact modest.fits
  | cons call rest ih => exact ih modest.next

section

variable {first last largest : Nat} (inOrder : calls.Pairwise fun call later => call.now ≤ later.now)
  (bounded : ∀ spend ∈ b.spends calls, within first last spend → spend.bytes ≤ largest)

theorem total_late (late : ∀ call ∈ calls, last < call.now) : total (within first last) (b.spends calls) = 0 := by
  induction calls generalizing b with
  | nil => rfl
  | cons call rest ih =>
    obtain ⟨here, later⟩ := forall_mem_cons.mp late
    rw [total_cons, ih later, if_neg (by grind [within])]

include inOrder bounded

/-- What is spent comes from the bucket and the refills; only the last spend may exceed them. -/
theorem Modest.total_window (modest : Modest b calls) :
    total (within first last) (b.spends calls) = 0 ∨ (total (within first last) (b.spends calls) : Int) ≤
      b.tokens + (b.rateBytesPerSec * (max b.lastRefill last - b.lastRefill) : Nat) +
        (max b.burstBytes largest - b.burstBytes : Nat) := by
  induction calls generalizing b with
  | nil => exact .inl rfl
  | cons call rest ih =>
    by_cases late : last < call.now
    · refine .inl (total_late (forall_mem_cons.mpr ⟨late, fun other there => ?_⟩))
      have order := rel_of_pairwise_cons inOrder there
      omega
    obtain ⟨rate, burst, refilled, -, pays, covered⟩ := modest.paced
    have rest := ih inOrder.of_cons (fun spend there => bounded spend (by simp [spends, there])) modest.next
    rw [rate, burst, refilled] at rest
    have split : b.rateBytesPerSec * (max b.lastRefill last - b.lastRefill) =
        b.rateBytesPerSec * (max b.lastRefill call.now - b.lastRefill) +
          b.rateBytesPerSec * (max (max b.lastRefill call.now) last - max b.lastRefill call.now) := by
      rw [← Nat.mul_add]
      congr 1
      omega
    rw [total_cons, split]
    by_cases counted : (b.step call).2 ∧ within first last ⟨call.now, call.bytes⟩
    · have most : call.bytes ≤ largest := bounded _ (by simp [spends, counted.1]) counted.2
      simp only [counted.1, if_true, forall_const] at pays covered
      rw [if_pos counted]
      omega
    · rw [if_neg counted]
      omega

theorem Modest.total_le (modest : Modest b calls) :
    total (within first last) (b.spends calls) ≤ b.rateBytesPerSec * (last - first) + max b.burstBytes largest := by
  induction calls generalizing b with
  | nil => exact Nat.zero_le _
  | cons call rest ih =>
    by_cases early : call.now < first
    · have rest := ih inOrder.of_cons (fun spend there => bounded spend (by simp [spends, there])) modest.next
      rw [modest.paced.rate, modest.paced.burst] at rest
      rw [total_cons, if_neg (by grind [within])]
      omega
    -- The call refills the bucket, to the burst at most, and the window starts there.
    have same : (b.refill call.now).spends (call :: rest) = b.spends (call :: rest) := by
      simp only [spends, step_refill]
    obtain ⟨rate, burst, -, refilled⟩ := b.refill_frame call.now
    have fits := (modest.fits.refill call.now).1
    have spent := Modest.total_window inOrder (same ▸ bounded) ⟨fits, modest.burst, modest.amounts⟩
    rw [same, rate, burst, refilled] at spent
    have full := fits.2
    have gain : b.rateBytesPerSec * (max (max b.lastRefill call.now) last - max b.lastRefill call.now) ≤
        b.rateBytesPerSec * (last - first) := Nat.mul_le_mul_left _ (by omega)
    omega

end

end RateBudget

open RateBudget

/-- What is allowed in a window is at most what the rate gives in it and one burst, or the largest
transfer of the window if that is larger.  The balance always fits its type. -/
theorem spends_keep_rate (rate burst cap start : Nat) (calls : List Call) (small : burst < 2 ^ 62)
    (amounts : ∀ call ∈ calls, call.bytes < 2 ^ 62)
    (inOrder : calls.Pairwise fun call later => call.now ≤ later.now) :
    let b := new rate burst cap start
    (∀ first last largest, (∀ spend ∈ b.spends calls, within first last spend → spend.bytes ≤ largest) →
      total (within first last) (b.spends calls) ≤ rate * (last - first) + max burst largest) ∧
    ∀ front, front <+: calls → (front.foldl (fun b call => (b.step call).1) b).Fits := by
  intro b
  have fits : b.Fits := by
    simp only [Fits, b, new, toI64]
    omega
  exact ⟨fun _ _ _ bounded => Modest.total_le inOrder bounded ⟨fits, small, amounts⟩,
    fun front inside => Modest.foldl ⟨fits, small, fun call there => amounts call (inside.subset there)⟩⟩

theorem spends_keep_rate_in_debt : total (within 0 41) ((new 100 1000 0 0).spends
      [⟨.trySpend, 0, 5000⟩, ⟨.canSpend, 40, 1⟩, ⟨.trySpend, 41, 100⟩]) ≤ 100 * (41 - 0) + max 1000 5000 :=
  (spends_keep_rate 100 1000 0 0 _ (by decide) (by decide) (by decide)).1 0 41 5000 (by decide +kernel)

/-! ## The daily cap -/

namespace RateBudget

theorem day_refill (early : now < 2 ^ 64 - 1) :
    (b.refill now).dayStart = b.dayStart ∧ (b.refill now).dayUsed = b.dayUsed ∨
      (b.refill now).dayStart = now ∧ (b.refill now).dayUsed = 0 ∧ b.dayStart < now := by
  by_cases past : saturateU64 (b.dayStart + daySecs) ≤ now
  · refine .inr ⟨by simp only [refill, if_pos past], by simp only [refill, if_pos past], ?_⟩
    simp only [saturateU64, daySecs] at past
    omega
  · exact .inl ⟨by simp only [refill, if_neg past], by simp only [refill, if_neg past]⟩

/-- A counter that starts in a window of 24 hours is the last one to spend there. -/
theorem total_since (used : Nat) (capped : 0 < b.dailyCapBytes) (below : b.dailyCapBytes < 2 ^ 64 - 1)
    (early : ∀ call ∈ calls, call.now < 2 ^ 64 - 1) (inOrder : calls.Pairwise fun call later => call.now ≤ later.now)
    (counted : used = 0 ∨ used = b.dayUsed ∧ ∀ call ∈ calls, first ≤ call.now) :
    total (within first (first + 86399)) (b.spends calls) ≤
      (if first ≤ b.dayStart then 0 else b.dailyCapBytes) + (b.dailyCapBytes - used) := by
  induction calls generalizing b used with
  | nil => exact Nat.zero_le _
  | cons call rest ih =>
    obtain ⟨here, later⟩ := forall_mem_cons.mp early
    obtain ⟨order, inOrder⟩ := pairwise_cons.mp inOrder
    by_cases past : first + 86399 < call.now
    · rw [total_late (forall_mem_cons.mpr ⟨past, fun other there => Nat.lt_of_lt_of_le past (order other there)⟩)]
      exact Nat.zero_le _
    have counter := day_refill (b := b) here
    have kept : first ≤ b.dayStart → (b.refill call.now).dayStart = b.dayStart := by
      grind [refill, saturateU64, daySecs]
    have cases := b.step_cases call
    obtain ⟨-, -, cap, -⟩ := b.refill_frame call.now
    rw [total_cons]
    generalize b.refill call.now = r at *
    -- Before the window starts, what was used does not count.
    have rest (next : RateBudget) (keeps : next.dailyCapBytes = b.dailyCapBytes) :=
      ih (b := next) (if first ≤ call.now then next.dayUsed else 0) (keeps ▸ capped) (keeps ▸ below)
        later inOrder (by grind)
    rcases cases with step | step | ⟨step, -, room⟩ <;> rw [step]
    · have rest := rest r cap
      grind
    all_goals
      grind [pay, saturateU64, within]

end RateBudget

/-- No call from `first` to `last`, unless it is the first of them, comes a day or more after the
start of the counter it finds. -/
def oneCounter (first last : Nat) : Nat → Bool → List Nat → Bool
  | _, _, [] => true
  | day, seen, now :: times =>
    let anew := saturateU64 (day + daySecs) ≤ now
    !(seen && anew && now ≤ last) && oneCounter first last (if anew then now else day) (seen || first ≤ now) times

/-- Once the window has begun, what was used counts. -/
theorem RateBudget.total_one (capped : 0 < b.dailyCapBytes) (below : b.dailyCapBytes < 2 ^ 64 - 1)
    (inOrder : calls.Pairwise fun call later => call.now ≤ later.now)
    (one : oneCounter first last b.dayStart seen (calls.map Call.now)) :
    total (within first last) (b.spends calls) ≤ b.dailyCapBytes - if seen then b.dayUsed else 0 := by
  induction calls generalizing b seen with
  | nil => exact Nat.zero_le _
  | cons call rest ih =>
    obtain ⟨order, inOrder⟩ := pairwise_cons.mp inOrder
    by_cases past : last < call.now
    · rw [total_late (forall_mem_cons.mpr ⟨past, fun other there => Nat.lt_of_lt_of_le past (order other there)⟩)]
      exact Nat.zero_le _
    rw [map_cons, oneCounter, Bool.and_eq_true] at one
    obtain ⟨kept, one⟩ := one
    have counter : (b.refill call.now).dayStart =
      if saturateU64 (b.dayStart + daySecs) ≤ call.now then call.now else b.dayStart := by
      simp only [refill]
    have used : seen → (b.refill call.now).dayUsed = b.dayUsed := by
      intro seen
      simp only [refill]
      grind
    have cases := b.step_cases call
    obtain ⟨-, -, cap, -⟩ := b.refill_frame call.now
    rw [total_cons]
    generalize b.refill call.now = r at *
    have rest (next : RateBudget) (keeps : next.dailyCapBytes = b.dailyCapBytes) (day : next.dayStart = r.dayStart) :=
      ih (b := next) (keeps ▸ capped) (keeps ▸ below) inOrder (by rw [day, counter]; simpa using one)
    rcases cases with step | step | ⟨step, -, room⟩ <;> rw [step]
    · have rest := rest r cap rfl
      grind
    all_goals
      grind [pay, saturateU64, within]

/-- The cap holds in every 24 hours in which no counter starts after the first call. -/
theorem cap_holds_of_one_counter (rate burst cap start : Nat) (calls : List Call) (capped : 0 < cap)
    (below : cap < 2 ^ 64 - 1) (inOrder : calls.Pairwise fun call later => call.now ≤ later.now) (first : Nat)
    (one : oneCounter first (first + 86399) start false (calls.map Call.now)) :
    total (within first (first + 86399)) ((new rate burst cap start).spends calls) ≤ cap :=
  total_one (b := new rate burst cap start) capped below inOrder one

theorem cap_holds_of_one_counter_next_day : total (within 86400 172799) ((new 1000000 1000000 3000 0).spends
      [⟨.trySpend, 86399, 3000⟩, ⟨.trySpend, 86400, 2000⟩, ⟨.trySpend, 90000, 2000⟩]) ≤ 3000 :=
  cap_holds_of_one_counter 1000000 1000000 3000 0 _ (by decide) (by decide) (by decide +kernel)
    86400 (by decide +kernel)

/-- A counter that starts again lets the whole cap through twice within two seconds. -/
theorem cap_exceeded_at_reset : total (within 86399 172798) ((new 1000000 1000000 3000 0).spends
      [⟨.trySpend, 86399, 3000⟩, ⟨.trySpend, 86400, 3000⟩]) = 6000 := by
  decide +kernel

/-- No 24 hours see more than two caps: one counter at most starts in them. -/
theorem window_within_two_caps (rate burst cap start : Nat) (calls : List Call) (capped : 0 < cap)
    (below : cap < 2 ^ 64 - 1) (early : ∀ call ∈ calls, call.now < 2 ^ 64 - 1)
    (inOrder : calls.Pairwise fun call later => call.now ≤ later.now) (first : Nat) :
    total (within first (first + 86399)) ((new rate burst cap start).spends calls) ≤ 2 * cap := by
  refine Nat.le_trans (total_since 0 capped below early inOrder (.inl rfl)) ?_
  grind [new]

theorem window_within_two_caps_at_reset : total (within 86399 172798) ((new 1000000 1000000 3000 0).spends
      [⟨.trySpend, 86399, 3000⟩, ⟨.trySpend, 86400, 3000⟩]) ≤ 2 * 3000 :=
  window_within_two_caps 1000000 1000000 3000 0 _ (by decide) (by decide) (by decide) (by decide) 86399

end Miasma.Repair
