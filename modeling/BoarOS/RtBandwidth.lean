import Mathlib.Algebra.Ring.Nat
import Mathlib.Algebra.Ring.Int.Defs
import Mathlib.Data.List.Basic

namespace BoarOS.RtBandwidth
open List

/-! # Real-time bandwidth (`kernel/sched/policy.c`)

Times and budgets are `uint64_t`, so a difference is taken modulo `2 ^ 64`. `none` is a trap. -/

def uint64Max : Nat := 2 ^ 64 - 1
def int32Max : Int := 2 ^ 31 - 1
def kernelEINVAL : Int := 22
def sub64 (a b : Nat) : Nat := (a + 2 ^ 64 - b) % 2 ^ 64

structure Bandwidth where
  period : Nat
  periodStart : Nat
  consumed : Nat
  lastAccount : Nat
  runtime : Int

namespace Bandwidth

def init (now : Nat) : Bandwidth := ⟨1000000000, now, 0, now, 950000000⟩

/-- The end of `kernel_rt_bandwidth_account`, once the window is the current one. -/
def charge (s : Bandwidth) (now delta : Nat) (running : Bool) : Bandwidth :=
  { s with
    lastAccount := now
    consumed :=
      if running then if sub64 uint64Max s.consumed < delta then uint64Max else s.consumed + delta else s.consumed }

def account (s : Bandwidth) (now : Nat) (running : Bool) : Option Bandwidth :=
  if now < s.lastAccount then none
  else
    let delta := sub64 now s.lastAccount
    let sinceStart := sub64 now s.periodStart
    if sinceStart ≥ s.period then
      let start := sub64 now (sinceStart % s.period)
      some ({ s with periodStart := start, consumed := 0 }.charge now (if s.lastAccount < start then sub64 now start else delta) running)
    else some (s.charge now delta running)

def eligible (s : Bandwidth) : Bool := s.runtime < 0 || (s.consumed : Int) < s.runtime

def configure (s : Bandwidth) (period : Nat) (runtime : Int) (now : Nat) : Int × Bandwidth :=
  if runtime ≥ 0 ∧ runtime > period then (-kernelEINVAL, s)
  else (0, { s with
    periodStart := if period ≠ s.period then now else s.periodStart, period := period, runtime := runtime })

def set (s : Bandwidth) (runtimeField : Bool) (value : Int) (now : Nat) (running : Bool) : Option (Int × Bandwidth) :=
  (s.account now running).map fun s =>
    if (runtimeField ∧ value < -1) ∨ (¬ runtimeField ∧ value ≤ 0) ∨ value > int32Max then (-kernelEINVAL, s)
    else s.configure (if runtimeField then s.period else value.toNat * 1000)
      (if runtimeField then if value < 0 then -1 else value * 1000 else s.runtime) now

def delay (s : Bandwidth) (running queued : Bool) : Nat :=
  if s.runtime ≤ 0 then 0
  else
    let periodLeft := sub64 s.period (sub64 s.lastAccount s.periodStart)
    if !s.eligible then if queued || running then periodLeft else 0
    else if !running then 0
    else
      let budgetLeft := sub64 s.runtime.toNat s.consumed
      if budgetLeft < periodLeft then budgetLeft else periodLeft

end Bandwidth

structure Span where
  start : Nat
  stop : Nat
  running : Bool

def ranSince (log : List Span) (time : Nat) : Nat :=
  (log.map fun span => if span.running then span.stop - max span.start time else 0).sum

/-- The calls so far, with the intervals they accounted, and the balance that came into the current window
with a change of the period: what had been consumed when the period was changed. -/
inductive Run : Bandwidth → List Span → Nat → Prop where
  | init {now : Nat} : now < 2 ^ 64 → Run (.init now) [] 0
  | account {s after : Bandwidth} {log : List Span} {carried now : Nat} {running : Bool} : Run s log carried →
      now < 2 ^ 64 → s.account now running = some after →
      Run after (⟨s.lastAccount, now, running⟩ :: log) (if after.periodStart = s.periodStart then carried else 0)
  | set {s counted after : Bandwidth} {log : List Span} {carried now : Nat} {running runtimeField : Bool} {value result : Int} :
      Run s log carried → now < 2 ^ 64 → s.account now running = some counted →
      s.set runtimeField value now running = some (result, after) →
      Run after (⟨s.lastAccount, now, running⟩ :: log) (if after.period ≠ s.period then counted.consumed
          else if after.periodStart = s.periodStart then carried else 0)

variable {s s' : Bandwidth} {log : List Span} {carried now : Nat} {running : Bool}

theorem sub64_of_le {a b : Nat} (le : b ≤ a) (small : a < 2 ^ 64) : sub64 a b = a - b := by
  rw [sub64, Nat.sub_add_comm le, Nat.add_mod_right, Nat.mod_eq_of_lt (by omega)]

/-- The account lies inside its period, so that no difference wraps. -/
structure Ok (s : Bandwidth) : Prop where
  positive : 0 < s.period
  bounded : s.period < 2 ^ 63
  budget : s.runtime ≤ s.period
  started : s.periodStart ≤ s.lastAccount
  inside : s.lastAccount < s.periodStart + s.period
  small : s.lastAccount < 2 ^ 64
  within : s.consumed ≤ s.lastAccount

def window (s : Bandwidth) (now : Nat) : Nat := s.periodStart + (now - s.periodStart) / s.period * s.period

/-- What a call leaves, in the arithmetic of naturals: only what was run in the current window counts. -/
def accounted (s : Bandwidth) (now : Nat) (running : Bool) : Bandwidth :=
  { s with
    periodStart := window s now
    lastAccount := now
    consumed := (if window s now = s.periodStart then s.consumed else 0) + if running then now - max s.lastAccount (window s now) else 0 }

theorem charge_eq {delta : Nat} (le : s.consumed + delta ≤ uint64Max) : s.charge now delta running =
    { s with lastAccount := now, consumed := s.consumed + if running then delta else 0 } := by
  have room : ¬ uint64Max - s.consumed < delta := by omega
  rw [Bandwidth.charge, sub64_of_le (by omega) (by decide), if_neg room]
  cases running <;> rfl

section
variable (ok : Ok s) (later : s.lastAccount ≤ now)
include ok later

theorem window_mod : window s now + (now - s.periodStart) % s.period = now := by
  have started := ok.started
  have split := Nat.div_add_mod' (now - s.periodStart) s.period
  unfold window
  omega

theorem window_spec : window s now ≤ now ∧ now < window s now + s.period ∧
    (window s now = s.periodStart ∨ s.periodStart + s.period ≤ window s now) := by
  have whole := window_mod ok later
  have rest := Nat.mod_lt (now - s.periodStart) ok.positive
  refine ⟨by omega, by omega, ?_⟩
  unfold window
  rcases Nat.eq_zero_or_pos ((now - s.periodStart) / s.period) with zero | some_
  · rw [zero, zero_mul]
    exact .inl rfl
  · exact .inr (Nat.add_le_add_left (Nat.le_mul_of_pos_left _ some_) _)

theorem account_eq (fits : now < 2 ^ 64) : s.account now running = some (accounted s now running) := by
  have started := ok.started
  have inside := ok.inside
  have within := ok.within
  have whole := window_mod ok later
  obtain ⟨_, _, here⟩ := window_spec ok later
  rw [Bandwidth.account, if_neg (by omega), accounted]
  dsimp only
  rw [sub64_of_le (by omega : s.periodStart ≤ now) fits, sub64_of_le later fits]
  rcases here with same | moved
  · rw [if_neg (by omega), if_pos same, same, max_eq_left started, charge_eq (by unfold uint64Max; omega)]
  have start : now - (now - s.periodStart) % s.period = window s now := by omega
  rw [if_pos (by omega), sub64_of_le (by omega) fits, start, if_pos (by omega), if_neg (by omega), max_eq_right (by omega),
    sub64_of_le (by omega) fits, charge_eq (by dsimp only; unfold uint64Max; omega)]

theorem Ok.accounted (fits : now < 2 ^ 64) : Ok (accounted s now running) := by
  obtain ⟨le, lt, _⟩ := window_spec ok later
  refine ⟨ok.positive, ok.bounded, ok.budget, le, lt, fits, ?_⟩
  have within := ok.within
  dsimp only [RtBandwidth.accounted]
  split <;> split <;> omega

end

theorem window_window {last : Nat} (second : now ≤ last) : window (accounted s now running) last = window s last := by
  have le := Nat.div_le_div_right (c := s.period) (Nat.sub_le_sub_right second s.periodStart)
  have gone : last - window s now = last - s.periodStart - s.period * ((now - s.periodStart) / s.period) := by
    rw [window, Nat.sub_add_eq, mul_comm]
  change window s now + (last - window s now) / s.period * s.period = _
  rw [gone, Nat.sub_mul_div, Nat.sub_mul, window, window, add_assoc, Nat.add_sub_cancel' (Nat.mul_le_mul_right _ le)]

/-- A second call with the same flag does what one call for both would have done. -/
theorem accounted_accounted {last : Nat} (ok : Ok s) (first : s.lastAccount ≤ now) (second : now ≤ last)
    (fits : last < 2 ^ 64) : accounted (accounted s now running) last running = accounted s last running := by
  obtain ⟨low, high, here⟩ := window_spec ok first
  have good : Ok (accounted s now running) := ok.accounted first (by omega)
  obtain ⟨_, _, there⟩ := window_spec good second
  have start : (accounted s now running).periodStart = window s now := rfl
  rw [window_window second, start] at there
  rw [accounted, window_window second, start]
  dsimp only [accounted] at there ⊢
  congr 1
  split_ifs <;> omega

theorem account_split {last : Nat} (ok : Ok s) (times : List Nat) (sorted : (s.lastAccount :: times ++ [last]).Pairwise (· ≤ ·))
    (fits : last < 2 ^ 64) : (times.foldlM (Bandwidth.account · · running) s).bind (·.account last running) = s.account last running := by
  induction times generalizing s with
  | nil => rfl
  | cons now times ih =>
    obtain ⟨low, rest⟩ := pairwise_cons.mp sorted
    have first := low now (.head _)
    have second := rel_of_pairwise_cons rest (mem_append_right times (.head _))
    have good : Ok (accounted s now running) := ok.accounted first (by omega)
    rw [foldlM_cons, account_eq ok first (by omega)]
    refine (ih good rest).trans ?_
    rw [account_eq good second fits, account_eq ok (by omega) fits, accounted_accounted ok first second fits]

theorem ranSince_none {time : Nat} (old : ∀ span ∈ log, span.stop ≤ time) : ranSince log time = 0 := by
  rw [ranSince, List.sum_eq_zero_iff_forall_eq_nat]
  intro n mem
  obtain ⟨span, inLog, rfl⟩ := mem_map.mp mem
  rw [Nat.sub_eq_zero_of_le (le_trans (old span inLog) (le_max_right ..)), ite_self]

structure Accounted (s : Bandwidth) (log : List Span) (carried : Nat) : Prop extends Ok s where
  past : ∀ span ∈ log, span.stop ≤ s.lastAccount
  balance : s.consumed = ranSince log s.periodStart + carried

theorem Accounted.account (acc : Accounted s log carried) (fits : now < 2 ^ 64)
    (ran : s.account now running = some s') : s' = accounted s now running ∧
      Accounted s' (⟨s.lastAccount, now, running⟩ :: log) (if window s now = s.periodStart then carried else 0) := by
  have later : s.lastAccount ≤ now := by
    by_contra early
    rw [Bandwidth.account, if_pos (by omega)] at ran
    cases ran
  obtain ⟨_, _, here⟩ := window_spec acc.toOk later
  rw [account_eq acc.toOk later fits] at ran
  cases ran
  refine ⟨rfl, acc.toOk.accounted later fits, fun span mem => ?_, ?_⟩
  · rcases mem_cons.mp mem with rfl | old
    · exact le_rfl
    · exact le_trans (acc.past span old) later
  have inside := acc.inside
  rw [ranSince, map_cons, sum_cons, ← ranSince]
  dsimp only [accounted]
  rcases here with same | moved
  · rw [same, if_pos rfl, if_pos rfl, acc.balance]
    omega
  have ne : window s now ≠ s.periodStart := by have := acc.positive; omega
  rw [ranSince_none fun span mem => by have := acc.past span mem; omega, if_neg ne, if_neg ne]
  omega

theorem Accounted.configure {period : Nat} {runtime result : Int} (acc : Accounted s log carried)
    (positive : 0 < period) (bounded : period < 2 ^ 63) (ran : s.configure period runtime s.lastAccount = (result, s')) :
    Accounted s' log (if s'.period ≠ s.period then s.consumed else carried) ∧ (s'.period = s.period → s'.periodStart = s.periodStart) := by
  rw [Bandwidth.configure] at ran
  split at ran
  · cases ran
    rw [if_neg (not_not.mpr rfl)]
    exact ⟨acc, fun _ => rfl⟩
  cases ran
  by_cases same : period = s.period
  · subst same
    rw [if_neg (not_not.mpr rfl), if_neg (not_not.mpr rfl)]
    exact ⟨{ acc with budget := by dsimp only; omega }, fun _ => rfl⟩
  rw [if_pos same, if_pos same]
  refine ⟨⟨⟨positive, bounded, by dsimp only; omega, le_rfl, Nat.lt_add_of_pos_right positive, acc.small,
    acc.within⟩, acc.past, ?_⟩, fun eq => absurd eq same⟩
  rw [ranSince_none acc.past, zero_add]

theorem Accounted.set {runtimeField : Bool} {value result : Int} {counted : Bandwidth} (acc : Accounted s log carried)
    (fits : now < 2 ^ 64) (call : s.account now running = some counted)
    (ran : s.set runtimeField value now running = some (result, s')) :
    Accounted s' (⟨s.lastAccount, now, running⟩ :: log) (if s'.period ≠ s.period then counted.consumed
      else if s'.periodStart = s.periodStart then carried else 0) := by
  rw [Bandwidth.set, call] at ran
  have eq := Option.some.inj ran
  obtain ⟨rfl, mid⟩ := acc.account fits call
  have kept : (accounted s now running).period = s.period := rfl
  split at eq
  · cases eq
    rw [if_neg (not_not.mpr kept)]
    exact mid
  rename_i valid
  simp only [not_or, not_and, int32Max] at valid
  obtain ⟨_, some_, top⟩ := valid
  have fine : 0 < (if runtimeField then s.period else value.toNat * 1000) ∧
      (if runtimeField then s.period else value.toNat * 1000) < 2 ^ 63 := by
    split
    · exact ⟨mid.positive, mid.bounded⟩
    next off =>
      have := some_ off
      omega
  obtain ⟨done, start⟩ := mid.configure fine.1 fine.2 eq
  rw [kept] at done start
  by_cases same : s'.period = s.period
  · rw [start same]
    exact done
  · rwa [if_pos same] at done ⊢

theorem Run.accounted (run : Run s log carried) : Accounted s log carried := by
  induction run with
  | init fits =>
    have positive : 0 < 1000000000 := by decide
    exact ⟨⟨positive, (by decide : 1000000000 < 2 ^ 63), (by decide : (950000000 : Int) ≤ 1000000000), le_rfl,
      Nat.lt_add_of_pos_right positive, fits, Nat.zero_le _⟩, nofun, rfl⟩
  | account _ fits ran ih =>
    obtain ⟨rfl, acc⟩ := ih.account fits ran
    exact acc
  | set _ fits counts ran ih => exact ih.set fits counts ran

theorem eligible_iff : s.eligible = true ↔ s.runtime < 0 ∨ s.consumed < s.runtime := by simp [Bandwidth.eligible]

/-- A delay leads to the end of the window or, if that is sooner, of the budget. -/
theorem delay_spec (ok : Ok s) (queued : Bool) (armed : 0 < s.delay running queued) :
    s.periodStart + s.period - s.lastAccount = s.delay running queued ∧
        (s.eligible = true → running = true ∧ s.consumed + s.delay running queued ≤ s.runtime) ∨
      s.eligible = true ∧ running = true ∧ s.consumed + s.delay running queued = s.runtime ∧
        s.lastAccount + s.delay running queued < s.periodStart + s.period := by
  have started := ok.started
  have inside := ok.inside
  have bounded := ok.bounded
  have budget := ok.budget
  have periodLeft : sub64 s.period (sub64 s.lastAccount s.periodStart) = s.periodStart + s.period - s.lastAccount := by
    rw [sub64_of_le started ok.small, sub64_of_le (by omega) (by omega)]
    omega
  unfold Bandwidth.delay at armed ⊢
  rw [periodLeft] at armed ⊢
  split at armed
  · cases armed
  rename_i some_
  rw [if_neg some_]
  cases able : s.eligible with
  | false => cases asked : queued || running <;> simp [able, asked] at armed ⊢
  | true =>
    have low := eligible_iff.mp able
    cases running with
    | false => simp [able] at armed
    | true =>
      simp only [Bool.not_true, Bool.false_eq_true, if_false]
      rw [sub64_of_le (by omega) (by omega)]
      split
      · exact .inr ⟨trivial, trivial, by omega, by omega⟩
      · exact .inl ⟨rfl, fun _ => ⟨trivial, by omega⟩⟩

/-- What holds in every run: an interval may be accounted in parts, what is consumed was run in the current window or
carried into it, and the timer goes off when the eligibility or the window changes, not before. -/
structure Sound (s : Bandwidth) (log : List Span) (carried : Nat) : Prop where
  splits : ∀ (running : Bool) (times : List Nat) (last : Nat), last < 2 ^ 64 → (s.lastAccount :: times ++ [last]).Pairwise (· ≤ ·) →
    (times.foldlM (Bandwidth.account · · running) s).bind (·.account last running) = s.account last running
  balance : s.consumed = ranSince log s.periodStart + carried
  inside : s.periodStart ≤ s.lastAccount ∧ s.lastAccount - s.periodStart < s.period
  jumps : ∀ (running : Bool) (now : Nat), s.lastAccount ≤ now → now < 2 ^ 64 → ∃ after,
    s.account now running = some after ∧ after.lastAccount = now ∧ after.periodStart ≤ now ∧
    now - after.periodStart < after.period ∧ ∃ n, after.periodStart = s.periodStart + n * s.period
  waits : ∀ (running queued : Bool) (time : Nat), time < s.delay running queued → s.lastAccount + time < 2 ^ 64 →
    ∃ after, s.account (s.lastAccount + time) running = some after ∧ after.eligible = s.eligible ∧ after.periodStart = s.periodStart
  fires : ∀ running queued : Bool, 0 < s.delay running queued → s.lastAccount + s.delay running queued < 2 ^ 64 →
    ∃ after, s.account (s.lastAccount + s.delay running queued) running = some after ∧
      (after.eligible ≠ s.eligible ∨ after.periodStart ≠ s.periodStart)

theorem rt_bandwidth_accounting (run : Run s log carried) : Sound s log carried := by
  have acc := run.accounted
  have ok := acc.toOk
  have started := ok.started
  have inside := ok.inside
  refine ⟨fun _ times _ fits sorted => account_split ok times sorted fits, acc.balance, ⟨started, by omega⟩,
    fun _ now later fits => ?_, fun running queued time lt fits => ?_, fun running queued armed fits => ?_⟩
  · obtain ⟨low, high, _⟩ := window_spec ok later
    exact ⟨_, account_eq ok later fits, rfl, low, by dsimp only [accounted]; omega, _, rfl⟩
  · have spec := delay_spec ok queued (Nat.zero_lt_of_lt lt)
    have later : s.lastAccount ≤ s.lastAccount + time := Nat.le_add_right ..
    obtain ⟨_, high, here⟩ := window_spec ok later
    have same : window s (s.lastAccount + time) = s.periodStart := by omega
    refine ⟨_, account_eq ok later fits, ?_, same⟩
    rw [eligible_iff] at spec
    rw [Bool.eq_iff_iff, eligible_iff, eligible_iff]
    dsimp only [accounted]
    rw [if_pos same, same]
    split <;> omega
  · have later : s.lastAccount ≤ s.lastAccount + s.delay running queued := Nat.le_add_right ..
    obtain ⟨low, high, here⟩ := window_spec ok later
    refine ⟨_, account_eq ok later fits, ?_⟩
    dsimp only [accounted]
    rcases delay_spec ok queued armed with ⟨left, _⟩ | ⟨able, runs, eq, _⟩
    · exact .inr (by omega)
    have same : window s (s.lastAccount + s.delay running queued) = s.periodStart := by omega
    rw [able, Ne, eligible_iff]
    dsimp only
    rw [if_pos same, same, if_pos runs]
    exact .inl (by omega)

/-- The period is doubled at 20, which carries 20 into the window that starts there; the last call is in the next one. -/
theorem rt_bandwidth_accounting_once : ∃ s after log, Run s log 20 ∧ s.consumed = 30 ∧ ranSince log s.periodStart = 10 ∧ Sound s log 20 ∧
    Run after (⟨30, 2000000050, true⟩ :: log) 0 ∧ after.consumed = 30 ∧ Sound after (⟨30, 2000000050, true⟩ :: log) 0 := by
  have first : Run ⟨1000000000, 0, 10, 10, 950000000⟩ [⟨0, 10, true⟩] 0 := .account (.init (by decide)) (by decide) rfl
  have changed : Run ⟨2000000000, 20, 20, 20, 950000000⟩ [⟨10, 20, true⟩, ⟨0, 10, true⟩] 20 :=
    first.set (by decide) (rfl : Bandwidth.account _ 20 true = some ⟨1000000000, 0, 20, 20, 950000000⟩)
      (rfl : Bandwidth.set _ false 2000000 20 true = some (0, _))
  have run : Run ⟨2000000000, 20, 30, 30, 950000000⟩ [⟨20, 30, true⟩, ⟨10, 20, true⟩, ⟨0, 10, true⟩] 20 := changed.account (by decide) rfl
  have crossed : Run ⟨2000000000, 2000000020, 30, 2000000050, 950000000⟩ (⟨30, 2000000050, true⟩ :: _) 0 := run.account (by decide) rfl
  exact ⟨_, _, _, run, rfl, rfl, rt_bandwidth_accounting run, crossed, rfl, rt_bandwidth_accounting crossed⟩

/-- The class runs only while eligible, and is accounted at most `late` after the timer. -/
inductive Timed (late : Nat) : Bandwidth → List Span → Prop where
  | init : start < 2 ^ 64 → Timed late (.init start) []
  | account : Timed late old spans → old.lastAccount ≤ time → time < 2 ^ 64 →
      (runs = true → old.eligible = true ∧ time ≤ old.lastAccount + old.delay true true + late) →
      old.account time runs = some new → Timed late new (⟨old.lastAccount, time, runs⟩ :: spans)

theorem Timed.kept (timed : Timed late s log) : Run s log 0 ∧ s.runtime = 950000000 ∧ s.consumed ≤ 950000000 + late := by
  induction timed with
  | init fits => exact ⟨.init fits, rfl, Nat.zero_le _⟩
  | @account s _ _ running _ _ later fits obeys ran ih =>
    obtain ⟨run, budget, kept⟩ := ih
    have ok := run.accounted.toOk
    have inside := ok.inside
    obtain ⟨low, _, here⟩ := window_spec ok later
    obtain ⟨rfl, -⟩ := run.accounted.account fits ran
    refine ⟨by simpa only [ite_self] using run.account fits ran, budget, ?_⟩
    dsimp only [accounted]
    by_cases runs : running = true
    · obtain ⟨able, soon⟩ := obeys runs
      have spec := @delay_spec s true ok true
      have := eligible_iff.mp able
      simp only [able, true_and, forall_const] at spec
      split_ifs <;> omega
    · split_ifs <;> omega

/-- In no window does the class run for more than its budget and the lateness of one timer. -/
theorem window_within_budget (timed : Timed late s log) : ranSince log s.periodStart ≤ 950000000 + late := by
  obtain ⟨run, -, kept⟩ := timed.kept
  have balance := run.accounted.balance
  omega

/-- The budget runs out three ticks late, and the class waits until the next window. -/
theorem window_within_budget_once : ranSince [⟨0, 950000003, true⟩] 0 = 950000000 + 3 ∧ ranSince [⟨0, 950000003, true⟩] 0 ≤ 950000000 + 3 ∧
    ranSince [⟨1000000000, 1000000005, true⟩, ⟨950000003, 1000000000, false⟩, ⟨0, 950000003, true⟩] 1000000000 ≤ 950000000 + 3 := by
  have spent : Timed 3 ⟨1000000000, 0, 950000003, 950000003, 950000000⟩ [⟨0, 950000003, true⟩] :=
    .account (.init (by decide)) (by decide) (by decide) (by decide) rfl
  have waited : Timed 3 ⟨1000000000, 1000000000, 0, 1000000000, 950000000⟩ (⟨950000003, 1000000000, false⟩ :: _) :=
    .account spent (by decide) (by decide) (by decide) rfl
  have again : Timed 3 ⟨1000000000, 1000000000, 5, 1000000005, 950000000⟩ (⟨1000000000, 1000000005, true⟩ :: _) :=
    .account waited (by decide) (by decide) (by decide) rfl
  exact ⟨rfl, window_within_budget spent, window_within_budget again⟩

end BoarOS.RtBandwidth
