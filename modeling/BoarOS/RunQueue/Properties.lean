import BoarOS.RunQueue.Steps

namespace BoarOS.RunQueue
open Data List Scheduler

/-! The order of the run queues over every sequence of steps. -/

variable {s after : Scheduler} {id : ListId} {t p : Nat} {cpus : List Nat} {bs : Nat → List Nat}

def Task.basePriority (task : Task) : Nat :=
  if task.piBasePriority ≠ 0 then task.piBasePriority - 1 else task.priority

namespace Scheduler

def list (s : Scheduler) (id : ListId) : List Nat := flatten (s.buckets id)

def level (s : Scheduler) (id : ListId) (p : Nat) : List Nat :=
  (s.list id).filter fun t => (s.tasks t).priority = p

def run (cpus : List Nat) (s : Scheduler) : List Step → Option (Option Scheduler)
  | [] => some (some s)
  | step :: rest => match s.step cpus step with
    | some (some after) => run cpus after rest
    | other => other

theorem run_reachable (reach : s.Reachable cpus) (runs : s.run cpus steps = some (some after)) : after.Reachable cpus := by
  induction steps generalizing s with
  | nil =>
    cases runs
    exact reach
  | cons step rest ih =>
    unfold run at runs
    split at runs
    next next ok =>
      exact ih (.step reach ok) runs
    next stuck =>
      exact absurd runs (stuck after)

end Scheduler

/-- One list is sorted, linked both ways and delimited by its tables. -/
structure Ordered (s : Scheduler) (id : ListId) : Prop where
  sorted : (s.list id).Pairwise fun a b => (s.tasks b).priority ≤ (s.tasks a).priority
  linked : Linked (fun x => (s.nodes id.slot x).next) (fun x => (s.nodes id.slot x).previous) none (s.list id) none
  ends : (s.queues id).first = (s.list id).head? ∧ (s.queues id).last = (s.list id).getLast?
  /-- Within a priority the tasks stand as they were enqueued, at the head or at the tail. -/
  enqueued : ∀ p, s.level id p = s.buckets id p
  delimited : ∀ p, (s.queues id).heads p = (s.level id p).head? ∧ (s.queues id).tails p = (s.level id p).getLast?
  boosted : (s.queues id).boosted = (s.list id).countP fun t => (s.tasks t).basePriority < (s.tasks t).priority
  highest : ∀ t, (s.queues id).pick true = some t → t ∈ s.list id ∧ (∀ u ∈ s.list id, (s.tasks u).priority ≤ (s.tasks t).priority) ∧
    (s.level id (s.tasks t).priority).head? = some t
  nothing : (s.queues id).pick true = none ↔ s.list id = []
  other : (s.queues id).pick false = (s.level id 0).head?

theorem filter_descending {P : Nat → Nat → Bool} {low n : Nat} (here : ∀ q t, t ∈ bs q → (P p t = true ↔ q = p)) :
    (descending bs low n).filter (P p) = if low ≤ p ∧ p < low + n then bs p else [] := by
  induction n with
  | zero =>
    rw [if_neg (by omega)]
    rfl
  | succ n ih =>
    rw [descending, List.filter_append, ih]
    rcases eq_or_ne (low + n) p with rfl | ne
    · rw [filter_eq_self.mpr fun t mem => (here _ t mem).mpr rfl]
      simp
    rw [filter_eq_nil_iff.mpr fun t mem holds => ne ((here _ t mem).mp holds), nil_append]
    congr 1
    exact propext (by omega)

namespace Core

theorem level_eq (core : Core s) (id : ListId) (p : Nat) : s.level id p = s.buckets id p := by
  unfold level list flatten
  have here : ∀ q t, t ∈ s.buckets id q → (decide ((s.tasks t).priority = p) = true ↔ q = p) := by
    intro q t mem
    obtain ⟨lt, prio, _⟩ := (core.lists id).members q t mem
    have on : s.On id t := mem_descending.mpr ⟨q, Nat.zero_le _, by omega, mem⟩
    rw [← core.priority id t on, prio, decide_eq_true_eq]
  rw [filter_descending (P := fun p t => decide ((s.tasks t).priority = p)) here]
  split
  · rfl
  rename_i large
  refine (eq_nil_iff_forall_not_mem.mpr fun t mem => large ?_).symm
  have lt := ((core.lists id).members p t mem).1
  omega

theorem sorted (core : Core s) (lt : low + n ≤ 100) :
    (descending (s.buckets id) low n).Pairwise fun a b => (s.tasks b).priority ≤ (s.tasks a).priority := by
  have prio : ∀ q t, q ≤ 99 → t ∈ s.buckets id q → (s.tasks t).priority = q := by
    intro q t le mem
    rw [← core.priority id t (mem_descending.mpr ⟨q, Nat.zero_le _, by omega, mem⟩)]
    exact ((core.lists id).members q t mem).2.1
  induction n with
  | zero => exact List.Pairwise.nil
  | succ n ih =>
    refine pairwise_append.mpr ⟨?_, ih (by omega), fun a first b snd => ?_⟩
    · refine pairwise_of_forall_mem_list fun a first b snd => ?_
      exact Nat.le_of_eq ((prio _ b (by omega) snd).trans (prio _ a (by omega) first).symm)
    obtain ⟨q, _, _, mem⟩ := mem_descending.mp snd
    rw [prio _ a (by omega) first, prio q b (by omega) mem]
    omega

theorem ordered (core : Core s) (id : ListId) : Ordered s id := by
  have rep := core.lists id
  have levels := core.level_eq id
  have sorted : (s.list id).Pairwise fun a b => (s.tasks b).priority ≤ (s.tasks a).priority := core.sorted (by omega)
  refine
    { sorted := sorted
      linked := rep.linked
      ends := ⟨rep.first, rep.last⟩
      enqueued := levels
      delimited := fun p => by rw [levels, rep.heads, rep.tails]; exact ⟨rfl, rfl⟩
      boosted := ?_
      highest := fun t picks => ?_
      nothing := by
        change (s.queues id).first = none ↔ _
        rw [rep.first, head?_eq_none_iff]
        rfl
      other := by
        change (s.queues id).heads 0 = _
        rw [rep.heads, levels] }
  · rw [core.boosted]
    refine countP_congr fun t _ => ?_
    have inherits := core.inherits t
    unfold isBoosted Task.basePriority
    by_cases raised : (s.tasks t).piBasePriority = 0
    · simp [raised]
    simp only [ne_eq, raised, not_false_eq_true, if_true, true_iff, decide_eq_true_eq]
    omega
  have start : (s.list id).head? = some t := rep.first.symm.trans picks
  obtain ⟨_, shape⟩ := head?_eq_some_iff.mp start
  have above := sorted
  rw [shape] at above
  refine ⟨mem_of_head? start, fun u mem => ?_, ?_⟩
  · rw [shape] at mem
    rcases mem_cons.mp mem with rfl | later
    · exact Nat.le_refl _
    · exact (pairwise_cons.mp above).1 u later
  · rw [level, shape]
    simp

end Core

/-- Over every sequence of steps every list is ordered, and no step traps. -/
theorem runqueue_ordered (distinct : cpus.Nodup) (reachable : s.Reachable cpus) :
    (∀ id, Ordered s id) ∧ ∀ step, s.step cpus step ≠ some none := by
  have inv := reachable.consistent distinct
  refine ⟨inv.core.ordered, fun step traps => ?_⟩
  obtain ⟨_, eq, _⟩ := inv.step distinct traps
  cases eq

/-- A task below real time inherits and moves up past another that was queued before it. -/
def boostSteps : List Step :=
  [.enqueue 0 false ⟨false, [0]⟩, .enqueue 1 false ⟨false, [0]⟩, .piPriority 1 0 7 ⟨false, [0]⟩]

theorem runqueue_ordered_boost : ∃ s : Scheduler, s.Reachable [0] ∧ s.list .runqueue = [1, 0] ∧ (s.queues (.eligible 0)).boosted = 1 ∧
      (∀ id, Ordered s id) ∧ ∀ step, s.step [0] step ≠ some none := by
  have runs : ((initial fun _ => 0).run [0] boostSteps).map (Option.map fun s =>
      (s.list .runqueue, (s.queues (.eligible 0)).boosted)) = some (some ([1, 0], 1)) := by
    decide +kernel
  obtain ⟨_, run, eq⟩ := Option.map_eq_some_iff.mp runs
  obtain ⟨s, rfl, values⟩ := Option.map_eq_some_iff.mp eq
  have reach := run_reachable (.initial fun _ => Nat.zero_le _) run
  exact ⟨s, reach, congrArg Prod.fst values, congrArg Prod.snd values, runqueue_ordered (by decide) reach⟩

/-- The task put at the head is picked before one that has been queued longer at the same priority. -/
theorem head_insertion_picked_first :
    ((Scheduler.initial fun _ => 5).run [] [.enqueue 0 false ⟨false, []⟩, .enqueue 1 true ⟨false, []⟩]).map
      (Option.map fun s => (s.list .runqueue, (s.queues .runqueue).pick true)) = some (some ([1, 0], some 1)) := by
  decide +kernel

end BoarOS.RunQueue
