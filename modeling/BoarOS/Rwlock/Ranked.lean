import Mathlib.Order.WellFounded
import Mathlib.Data.Fintype.Prod
import BoarOS.Rwlock.Properties

namespace BoarOS.Rwlock

/-! Locks that are acquired in rank order do not deadlock.

A queued task waits for the holders of its lock and for the waiters ahead of it, and along every such wait the pair of
lock and place moves in one direction. -/

variable {order : Nat → Rank} {s : System} {a b t u l index limit : Nat} {write kind : Bool}

namespace System

def Ahead (s : System) (l b a : Nat) : Prop :=
  ∃ i j : Nat, i < j ∧ ((s.locks l).pending.map Waiter.owner)[i]? = some b ∧ ((s.locks l).pending.map Waiter.owner)[j]? = some a

/-- Task `a` is queued on a lock that task `b` holds, or on which `b` is queued ahead of it. -/
def WaitsFor (s : System) (a b : Nat) : Prop :=
  ∃ l write index, s.Queued a l write index ∧ ((∃ kind, s.Holds b l kind) ∨ s.Ahead l b a)

/-- The position of the lock a task is queued on, and its place in the list counted from the end. -/
def standing (order : Nat → Rank) (s : System) (t l : Nat) : (Fin (2 ^ 32) ×ₗ Fin (2 ^ 64)) ×ₗ Natᵒᵈ :=
  toLex ((order l).position, OrderDual.toDual (((s.locks l).pending.map Waiter.owner).idxOf t))

end System

namespace Consistent

theorem queued_lock (queued : s.Queued t l write index) (again : s.Queued t l' kind index') : l' = l := by
  obtain ⟨_, _, _, ph⟩ := queued
  obtain ⟨_, _, _, phase'⟩ := again
  rw [ph] at phase'
  cases phase'
  rfl

section
variable (inv : Consistent order limit s)
include inv

theorem queued_above (holds : s.Holds b l kind) (queued : s.Queued b l' write index) : (order l).position < (order l').position := by
  obtain ⟨ungranted, _, _, ph⟩ := queued
  rcases holds with ⟨guard, mem, rfl, _⟩ | ⟨granted, _⟩
  · exact (inv.tasks b).above l' (by rw [ph]; rfl) guard mem
  rw [ungranted] at granted
  cases granted

theorem standing_lt (waits : s.WaitsFor a b) (first : s.Queued a la write index)
    (snd : s.Queued b lb write' index') : s.standing order a la < s.standing order b lb := by
  obtain ⟨l, kind, pos, queued, holds | ahead⟩ := waits
  · obtain rfl := queued_lock first queued
    obtain ⟨_, holds⟩ := holds
    exact Prod.Lex.toLex_lt_toLex.mpr (.inl (inv.queued_above holds snd))
  obtain rfl := queued_lock first queued
  obtain ⟨i, j, less, here, there⟩ := ahead
  have ne := (inv.locks l).queue.distinct
  obtain ⟨_, here⟩ := List.getElem?_eq_some_iff.mp here
  obtain ⟨_, there⟩ := List.getElem?_eq_some_iff.mp there
  have eq : lb = l := by
    obtain ⟨waiter, mem, owns⟩ := List.mem_map.mp (List.mem_of_getElem here)
    obtain ⟨_, view⟩ := ((inv.locks l).queue.members waiter).mp mem
    rw [owns] at view
    exact (queued_lock snd (queued_iff.mpr view)).symm
  subst eq
  refine Prod.Lex.toLex_lt_toLex.mpr (.inr ⟨rfl, ?_⟩)
  rw [← here, ← there, ne.idxOf_getElem, ne.idxOf_getElem]
  exact less

theorem waits_standing (waits : Relation.TransGen s.WaitsFor a b) (first : s.Queued a la write index)
    (snd : s.Queued b lb write' index') : s.standing order a la < s.standing order b lb := by
  induction waits generalizing lb index' write' with
  | single edge => exact inv.standing_lt edge first snd
  | tail _ edge ih =>
    obtain ⟨l, kind, pos, queued, why⟩ := edge
    exact lt_trans (ih queued) (inv.standing_lt ⟨l, kind, pos, queued, why⟩ queued snd)

theorem no_cycle : ¬ Relation.TransGen s.WaitsFor a a := by
  intro cycle
  obtain ⟨_, ⟨_, _, _, queued, _⟩, _⟩ := Relation.TransGen.head'_iff.mp cycle
  exact lt_irrefl _ (inv.waits_standing cycle queued queued)

end

theorem view_handing {task : Task} {edge : Nat} (view : task.view l = .handing edge) : task.phase = .handoff l edge := by
  have guarded : ∀ held, guardView held l ≠ .handing edge := fun held => by
    unfold guardView
    split <;> simp
  unfold Task.view at view
  split at view
  · exact absurd view (guarded _)
  · split at view
    · split at view <;> cases view
    · exact absurd view (guarded _)
  rename_i lock last ph
  split at view
  next eq =>
    cases view
    rw [ph, eq]
  · exact absurd view (guarded _)

theorem some_holder_runs (inv : Consistent order limit s)
    (rests : ∀ l, (s.locks l).handoffOwner = none) (queued : s.Queued t l write index) :
    ∃ b l' kind, s.Holds b l' kind ∧ ∀ l'' write' index', ¬ s.Queued b l'' write' index' := by
  induction above : (order l).position using WellFoundedGT.induction generalizing t l write index with
  | ind position ih =>
    obtain ⟨b, kind, holds⟩ : ∃ b kind, s.Holds b l kind := by
      by_contra free
      push Not at free
      have empty := inv.idle free (rests l)
      have mem := ((inv.locks l).queue.members ⟨t, write⟩).mpr ⟨index, queued_iff.mp queued⟩
      rw [empty] at mem
      cases mem
    by_cases runs : ∀ l'' write' index', ¬ s.Queued b l'' write' index'
    · exact ⟨b, l, kind, holds, runs⟩
    push Not at runs
    obtain ⟨_, _, _, waits⟩ := runs
    have up := inv.queued_above holds waits
    rw [above] at up
    exact ih _ up waits rfl

end Consistent

/-- Tasks that acquire in rank order never wait in a cycle: if anyone is queued, a holder runs or a hand-off can go
on. -/
theorem ranked_locks_progress (reachable : s.Reachable order limit) :
    (∀ a, ¬ Relation.TransGen s.WaitsFor a a) ∧ ∀ t l write index, s.Queued t l write index →
        (∃ b l' kind, s.Holds b l' kind ∧ ∀ l'' write' index', ¬ s.Queued b l'' write' index') ∨
          ∃ u, s.step order (.handoff u) ≠ none ∧ (limit < 2 ^ 32 → s.step order (.handoff u) ≠ some none) := by
  have inv := reachable.consistent
  refine ⟨fun a => inv.no_cycle, fun t l write index queued => ?_⟩
  by_cases rests : ∀ l, (s.locks l).handoffOwner = none
  · exact .inl (inv.some_holder_runs rests queued)
  right
  push Not at rests
  obtain ⟨l', owned⟩ := rests
  obtain ⟨u, owner⟩ := Option.ne_none_iff_exists'.mp owned
  obtain ⟨_, view⟩ := (inv.locks l').handing.owner u owner
  have ph := Consistent.view_handing view
  have lt : u < limit := inv.active_lt fun idle => by
    have run := idle.2
    rw [ph] at run
    cases run
  refine ⟨u, ?_, fun few => inv.safe few lt trivial⟩
  dsimp only [System.step]
  rw [ph]
  dsimp only
  split <;> simp

/-- Task 0 holds the lower lock and queues on the upper one, which task 1 holds. -/
theorem ranked_locks_progress_chain : ∃ s : System, s.Reachable (fun l => ⟨0, Fin.ofNat _ l⟩) 2 ∧ (s.locks 1).pending = [⟨0, true⟩] ∧
      (∀ a, ¬ Relation.TransGen s.WaitsFor a a) := by
  have runs : (System.initial.run (fun l => ⟨0, Fin.ofNat _ l⟩)
      [.acquire 0 0 0 true false, .acquire 1 0 1 true false, .acquire 0 1 1 true false]).map (Option.map fun s =>
        (s.locks 1).pending) = some (some [⟨0, true⟩]) := by
    decide +kernel
  obtain ⟨_, run, eq⟩ := Option.map_eq_some_iff.mp runs
  obtain ⟨s, rfl, pend⟩ := Option.map_eq_some_iff.mp eq
  have reach := @System.run_reachable _ 2 _ _ _ .initial (by decide) run
  exact ⟨s, reach, pend, (ranked_locks_progress reach).1⟩

def futexBuckets : Nat := 256
def futexBucketRank (i : Nat) : Rank := ⟨26, Fin.ofNat _ (i + 1)⟩

/-- `futex_lock_buckets`: the buckets it locks, in that order, for the buckets of one or two keys. -/
def futexLockBuckets (first second : Nat) : List Nat :=
  let swapped := if first > second then (second, first) else (first, second)
  if swapped.1 ≠ swapped.2 then [swapped.1, swapped.2] else [swapped.1]

/-- Whatever the keys, the buckets pass the order check of `acquire`. -/
theorem futexLockBuckets_ordered (first snd : Nat) (lt : first < futexBuckets ∧ snd < futexBuckets) :
    (futexLockBuckets first snd).Pairwise fun outer lock => (futexBucketRank outer).rejects (futexBucketRank lock) = false := by
  have less : ∀ outer lock, outer < lock → lock < futexBuckets → (futexBucketRank outer).rejects (futexBucketRank lock) = false := by
    intro outer lock pre le
    unfold futexBuckets at le
    refine rejects_eq_false.mpr (Prod.Lex.toLex_lt_toLex.mpr (.inr ⟨rfl, ?_⟩))
    simp only [futexBucketRank, Fin.lt_def, Fin.ofNat]
    omega
  obtain ⟨firstSmall, secondSmall⟩ := lt
  unfold futexLockBuckets
  rcases lt_trichotomy first snd with pre | rfl | s'
  · simpa [not_lt.mpr (le_of_lt pre), ne_of_lt pre] using less first snd pre secondSmall
  · simp
  · simpa [s', ne_of_lt s'] using less snd first s' firstSmall

end BoarOS.Rwlock
