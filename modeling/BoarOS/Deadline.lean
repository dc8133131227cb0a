import Mathlib.Tactic.Linarith

namespace BoarOS.Deadline

/-! # Deadlines (`kernel/time.c`)

Ticks and nanoseconds are `uint64_t`; products are taken in 128 bits. `Except.error` is a status other than `OK`. -/

inductive Status where
  | invalidArgument | alreadyInitialized | notInitialized | deadlinePassed
  deriving DecidableEq

def nsPerSecond : Nat := 1000000000
def int64Max : Nat := 2 ^ 63 - 1
def uint32Max : Nat := 2 ^ 32 - 1

structure Time where
  initialized : Bool
  multiplier : Nat
  ticksMultiplier : Nat
  bootRealtime : Nat
  coarseMonotonic : Nat

namespace Time

def ticksToNs (t : Time) (ticks : Nat) : Nat := ticks * t.multiplier / 2 ^ 32 % 2 ^ 64

def init (t : Time) (frequency bootRealtime counter : Nat) : Except Status Time :=
  if frequency = 0 then .error .invalidArgument
  else if t.initialized then .error .alreadyInitialized
  else
    let t := { t with
      multiplier := (nsPerSecond * 2 ^ 32 + frequency - 1) % 2 ^ 64 / frequency
      ticksMultiplier := (frequency * 2 ^ 32 + nsPerSecond - 1) % 2 ^ 64 / nsPerSecond
      bootRealtime := bootRealtime }
    .ok { t with initialized := true, coarseMonotonic := t.ticksToNs counter }

/-- The distance in ticks before the clamp, of 128 bits. -/
def deltaTicks (t : Time) (delta : Nat) : Nat := (delta * t.ticksMultiplier + uint32Max) / 2 ^ 32
def ticksLeft (t : Time) (counter target : Nat) : Nat := min (t.deltaTicks (target - t.ticksToNs counter)) int64Max

/-- `counter` is what `arch_time_read` returns; `pointer` tells that the caller gave a place for the result. -/
def deadlineFromMonotonic (t : Time) (counter target : Nat) (pointer : Bool) : Except Status Nat :=
  if !pointer then .error .invalidArgument
  else if !t.initialized then .error .notInitialized
  else if target ≤ t.ticksToNs counter then .error .deadlinePassed
  else
    let deadline := (counter + t.ticksLeft counter target) % 2 ^ 64
    .ok (if deadline = 0 then 1 else deadline)

end Time

def Time.Fits (t : Time) (counter : Nat) : Prop := counter < 2 ^ 64 ∧ counter * t.multiplier / 2 ^ 32 < 2 ^ 64

/-- How far a deadline lies after the counter, which may pass `2 ^ 64`. -/
def distance (counter deadline : Nat) : Nat := (deadline + 2 ^ 64 - counter) % 2 ^ 64

/-- A deadline of zero would mean no timer, so it is moved on by a tick. -/
def Time.skip (t : Time) (counter target : Nat) : Nat :=
  if (counter + t.ticksLeft counter target) % 2 ^ 64 = 0 then 1 else 0

/-- What the deadlines of an initialized clock keep to. -/
structure Sound (t : Time) (frequency : Nat) : Prop where
  multiplier : nsPerSecond * 2 ^ 32 + frequency - 1 < 2 ^ 64 ∧ t.multiplier = (nsPerSecond * 2 ^ 32 + frequency - 1) / frequency
  ticksMultiplier : frequency * 2 ^ 32 + nsPerSecond - 1 < 2 ^ 64 ∧ t.ticksMultiplier = (frequency * 2 ^ 32 + nsPerSecond - 1) / nsPerSecond
  monotone : ∀ ⦃a b : Nat⦄, a ≤ b → t.Fits b → t.ticksToNs a ≤ t.ticksToNs b
  passed : ∀ counter target : Nat, t.Fits counter →
    (t.deadlineFromMonotonic counter target true = .error .deadlinePassed ↔ target ≤ t.ticksToNs counter)
  deadline : ∀ counter target : Nat, t.Fits counter → target < 2 ^ 64 → t.ticksToNs counter < target →
    ∃ deadline, t.deadlineFromMonotonic counter target true = .ok deadline ∧ 0 < deadline ∧ deadline < 2 ^ 64 ∧
      distance counter deadline ≤ int64Max + t.skip counter target ∧
      (t.deltaTicks (target - t.ticksToNs counter) ≤ int64Max → ∀ ticks : Nat, distance counter deadline ≤ ticks →
        t.Fits (counter + ticks) → target ≤ t.ticksToNs (counter + ticks)) ∧
      -- the ticks of one nanosecond come to the error of the two multipliers
      ∀ ticks : Nat, t.Fits (counter + ticks) → target ≤ t.ticksToNs (counter + ticks) →
        distance counter deadline ≤ ticks + t.skip counter target +
          (t.ticksMultiplier * 2 ^ 32 + ticks * (t.multiplier * t.ticksMultiplier - 2 ^ 64) + (2 ^ 64 - 1)) / 2 ^ 64 ∧
        (frequency ≤ nsPerSecond → distance counter deadline ≤ ticks + t.skip counter target + 1 +
          (ticks * (t.multiplier * t.ticksMultiplier - 2 ^ 64) + (2 ^ 64 - 1)) / 2 ^ 64)

variable {t : Time} {counter target ticks delta : Nat}

theorem le_ceil {a b : Nat} (positive : 0 < b) : a ≤ (a + b - 1) / b * b := by
  have split := Nat.div_add_mod' (a + b - 1) b
  have rest := Nat.mod_lt (a + b - 1) positive
  omega

/-- Both multipliers are rounded up. -/
theorem multipliers_le {frequency : Nat} (positive : 0 < frequency) : 2 ^ 64 ≤
    (nsPerSecond * 2 ^ 32 + frequency - 1) / frequency * ((frequency * 2 ^ 32 + nsPerSecond - 1) / nsPerSecond) := by
  have seconds : 0 < nsPerSecond := by decide
  refine Nat.le_of_mul_le_mul_right ?_ (Nat.mul_pos positive seconds)
  rw [← Nat.mul_mul_mul_comm]
  calc 2 ^ 64 * (frequency * nsPerSecond) = nsPerSecond * 2 ^ 32 * (frequency * 2 ^ 32) := by unfold nsPerSecond; omega
    _ ≤ _ := Nat.mul_le_mul (le_ceil positive) (le_ceil seconds)

theorem ticksToNs_of_fits (fits : t.Fits counter) : t.ticksToNs counter = counter * t.multiplier / 2 ^ 32 := Nat.mod_eq_of_lt fits.2

theorem deltaTicks_spec : delta * t.ticksMultiplier ≤ t.deltaTicks delta * 2 ^ 32 ∧
    t.deltaTicks delta * 2 ^ 32 < delta * t.ticksMultiplier + 2 ^ 32 := by
  unfold Time.deltaTicks uint32Max
  omega

/-- The distance, rounded up twice, covers the nanoseconds it was taken from. -/
theorem not_early (counter : Nat) (up : 2 ^ 64 ≤ t.multiplier * t.ticksMultiplier) (far : t.deltaTicks delta ≤ ticks) :
    counter * t.multiplier / 2 ^ 32 + delta ≤ (counter + ticks) * t.multiplier / 2 ^ 32 := by
  have covered : delta * 2 ^ 64 ≤ ticks * t.multiplier * 2 ^ 32 := by
    calc delta * 2 ^ 64 ≤ delta * (t.multiplier * t.ticksMultiplier) := Nat.mul_le_mul_left _ up
      _ = delta * t.ticksMultiplier * t.multiplier := by rw [mul_comm t.multiplier, mul_assoc]
      _ ≤ ticks * 2 ^ 32 * t.multiplier := Nat.mul_le_mul_right _ (le_trans deltaTicks_spec.1 (Nat.mul_le_mul_right _ far))
      _ = ticks * t.multiplier * 2 ^ 32 := Nat.mul_right_comm ..
  rw [add_mul]
  omega

/-- No more ticks than reach the target, but for a nanosecond and the error of the multipliers. -/
theorem not_late (up : 2 ^ 64 ≤ t.multiplier * t.ticksMultiplier)
    (near : delta * 2 ^ 32 ≤ ticks * t.multiplier + 2 ^ 32) : t.deltaTicks delta * 2 ^ 64 < (ticks + 1) * 2 ^ 64 +
      (t.ticksMultiplier * 2 ^ 32 + ticks * (t.multiplier * t.ticksMultiplier - 2 ^ 64)) := by
  have scaled := Nat.mul_le_mul_right t.ticksMultiplier near
  obtain ⟨error, eq⟩ := Nat.exists_eq_add_of_le up
  rw [Nat.mul_right_comm, add_mul, mul_assoc ticks, eq, mul_add] at scaled
  rw [eq, Nat.add_sub_cancel_left]
  calc t.deltaTicks delta * 2 ^ 64 = t.deltaTicks delta * 2 ^ 32 * 2 ^ 32 := by omega
    _ < (delta * t.ticksMultiplier + 2 ^ 32) * 2 ^ 32 := Nat.mul_lt_mul_of_pos_right deltaTicks_spec.2 (by decide)
    _ ≤ _ := by linarith

theorem deadline_spec (init : t.initialized = true) (small : counter < 2 ^ 64) (later : t.ticksToNs counter < target) :
    ∃ deadline, t.deadlineFromMonotonic counter target true = .ok deadline ∧ 0 < deadline ∧ deadline < 2 ^ 64 ∧
      distance counter deadline = t.ticksLeft counter target + t.skip counter target := by
  have clamped : t.ticksLeft counter target ≤ int64Max := min_le_right ..
  rw [Time.deadlineFromMonotonic, init]
  simp only [Bool.not_true, Bool.false_eq_true, if_false, not_le.mpr later]
  refine ⟨_, rfl, ?_⟩
  unfold Time.skip distance
  unfold int64Max at clamped
  split <;> omega

theorem deadline_never_early {before : Time} {frequency bootRealtime : Nat} (positive : 0 < frequency)
    (small : frequency < 2 ^ 32) (init : before.init frequency bootRealtime counter = .ok t) : Sound t frequency := by
  rw [Time.init, if_neg (ne_of_gt positive)] at init
  split at init
  · cases init
  cases init
  have small : nsPerSecond * 2 ^ 32 + frequency - 1 < 2 ^ 64 ∧ frequency * 2 ^ 32 + nsPerSecond - 1 < 2 ^ 64 := by
    unfold nsPerSecond
    omega
  rw [Nat.mod_eq_of_lt small.1, Nat.mod_eq_of_lt small.2]
  generalize eq : Time.mk .. = t
  have first : t.multiplier = (nsPerSecond * 2 ^ 32 + frequency - 1) / frequency := by rw [← eq]
  have second : t.ticksMultiplier = (frequency * 2 ^ 32 + nsPerSecond - 1) / nsPerSecond := by rw [← eq]
  have up : 2 ^ 64 ≤ t.multiplier * t.ticksMultiplier := by
    rw [first, second]
    exact multipliers_le positive
  refine ⟨⟨small.1, first⟩, ⟨small.2, second⟩, fun a b le fits => ?_, fun counter target _ => ?_, fun counter target fits top later => ?_⟩
  · rw [ticksToNs_of_fits fits]
    exact le_trans (Nat.mod_le ..) (Nat.div_le_div_right (Nat.mul_le_mul_right _ le))
  · rw [Time.deadlineFromMonotonic, (eq ▸ rfl : t.initialized = true)]
    by_cases passed : target ≤ t.ticksToNs counter <;> simp [passed]
  obtain ⟨deadline, ok, some_, bounded, far⟩ := deadline_spec (eq ▸ rfl) fits.1 later
  have clamped : t.ticksLeft counter target ≤ int64Max := min_le_right ..
  have less : t.ticksLeft counter target ≤ t.deltaTicks (target - t.ticksToNs counter) := min_le_left ..
  have now := ticksToNs_of_fits fits
  refine ⟨deadline, ok, some_, bounded, by omega, fun whole ticks le fits => ?_, fun ticks fits reached => ?_⟩
  · rw [Time.ticksLeft, min_eq_left whole] at far
    have := not_early counter up (by omega : t.deltaTicks (target - t.ticksToNs counter) ≤ ticks)
    rw [ticksToNs_of_fits fits]
    omega
  rw [ticksToNs_of_fits fits] at reached
  have near : (target - t.ticksToNs counter) * 2 ^ 32 ≤ ticks * t.multiplier + 2 ^ 32 := by
    rw [add_mul] at reached
    omega
  have late : t.deltaTicks (target - t.ticksToNs counter) * 2 ^ 64 < _ :=
    not_late up near
  refine ⟨by omega, fun slow => ?_⟩
  have : t.ticksMultiplier ≤ 2 ^ 32 := by
    rw [second]
    unfold nsPerSecond at slow ⊢
    omega
  omega

theorem deadline_never_early_ten_megahertz : ∃ t, Time.init ⟨false, 0, 0, 0, 0⟩ 10000000 0 0 = .ok t ∧ Sound t 10000000 :=
  have init : Time.init ⟨false, 0, 0, 0, 0⟩ 10000000 0 0 = .ok ⟨true, 429496729600, 42949673, 0, 0⟩ := rfl
  ⟨_, init, deadline_never_early (by decide) (by decide) init⟩

/-- A nanosecond is four ticks at 4 GHz, where both multipliers are exact. At the highest frequency a clamped
distance may lead to a sum of zero, which is moved on. -/
theorem deadline_late : ∃ exact highest : Time,
    Time.init ⟨false, 0, 0, 0, 0⟩ 4000000000 0 0 = .ok exact ∧ exact.multiplier * exact.ticksMultiplier = 2 ^ 64 ∧
      exact.deadlineFromMonotonic 3 1 true = .ok 7 ∧ 1 ≤ exact.ticksToNs 4 ∧
    Time.init ⟨false, 0, 0, 0, 0⟩ (2 ^ 32 - 1) 0 0 = .ok highest ∧
      highest.deadlineFromMonotonic (2 ^ 63 + 1) (2 ^ 64 - 1) true = .ok 1 ∧ int64Max < distance (2 ^ 63 + 1) 1 :=
  ⟨_, _, rfl, by decide, by decide, by decide, rfl, by decide, by decide⟩

end BoarOS.Deadline
