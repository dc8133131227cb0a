import Mathlib.Data.List.Count
import Mathlib.Data.List.Perm.Lattice
import BoarOS.RunQueue.Order

namespace BoarOS.RunQueue
open List
open Function (update update_of_ne update_self)
open Data

/-! What every run of the scheduler keeps of its lists. -/

variable {s s' : Scheduler} {id other : ListId} {t x p cpu : Nat} {head : Bool} {cpus : List Nat}
  {bs : Nat → List Nat} {ids : List ListId}

theorem flatten_insert_perm (bs : Nat → List Nat) (t : Nat) (head : Bool) (lt : p ≤ 99) :
    (flatten (Scheduler.insertBucket bs t p head)).Perm (t :: flatten bs) := by
  rw [Scheduler.insertBucket, flatten_update lt, flatten_split bs lt]
  cases head
  · simp only [Bool.false_eq_true, if_false, append_assoc]
    rw [← append_assoc, ← append_assoc (descending bs (p + 1) (99 - p))]
    exact perm_middle
  · exact perm_middle

theorem flatten_erase_perm (lt : p ≤ 99) (mem : t ∈ bs p) : (flatten bs).Perm (t :: flatten (Scheduler.eraseBucket bs t p)) := by
  rw [Scheduler.eraseBucket, flatten_update lt, flatten_split bs lt]
  refine List.Perm.trans ?_ perm_middle
  exact List.Perm.append_left _ (List.Perm.append_right _ (perm_cons_erase mem))

theorem countP_erase {list : List Nat} {P : Nat → Bool} (mem : t ∈ list) :
    list.countP P = (list.erase t).countP P + if P t then 1 else 0 := by
  rw [(perm_cons_erase mem).countP_eq, countP_cons]

namespace Scheduler

def On (s : Scheduler) (id : ListId) (t : Nat) : Prop := t ∈ flatten (s.buckets id)
def isBoosted (s : Scheduler) (t : Nat) : Bool := (s.tasks t).piBasePriority ≠ 0

end Scheduler

structure Core (s : Scheduler) : Prop where
  lists : ∀ id, Represents (s.queues id) (s.nodes id.slot) (s.buckets id)
  queued : ∀ slot t, (s.nodes slot t).queued = true → ∃ id : ListId, id.slot = slot ∧ s.On id t
  unique : ∀ (id other : ListId) t, id.slot = other.slot → s.On id t → s.On other t → id = other
  priority : ∀ id t, s.On id t → (s.nodes id.slot t).priority = (s.tasks t).priority
  bounded : ∀ t, (s.tasks t).priority ≤ 99
  inherits : ∀ t, (s.tasks t).piBasePriority ≤ (s.tasks t).priority
  boosted : ∀ id, (s.queues id).boosted = (flatten (s.buckets id)).countP s.isBoosted

/-- Besides, a task is on the lists of its processors only with the ready list, and holds one reservation. -/
structure Consistent (cpus : List Nat) (s : Scheduler) : Prop where
  core : Core s
  ready : ∀ id t, id.slot ≠ .reservation → s.On id t → s.On .runqueue t
  known : ∀ cpu t, s.On (.eligible cpu) t → cpu ∈ cpus
  reserved : ∀ cpu t, s.On (.reservations cpu) t ↔ (s.tasks t).reservationCpu = some cpu

theorem slot_eq (eq : id.slot = other.slot) : id = other ∨ id.slot = .reservation := by
  cases id <;> cases other <;> simp_all [ListId.slot]

theorem Represents.setBoosted (rep : Represents q nodes bs) (boosted : Nat) : Represents { q with boosted := boosted } nodes bs :=
  { rep with }

namespace Core

theorem queued_iff (core : Core s) (id : ListId) (t : Nat) (alone : id.slot ≠ .reservation) :
    (s.nodes id.slot t).queued = true ↔ s.On id t := by
  constructor
  · intro queued
    obtain ⟨_, eq, on⟩ := core.queued _ t queued
    rcases slot_eq eq.symm with rfl | res
    · exact on
    · exact absurd res alone
  · intro on
    exact ((core.lists id).members _ t ((core.lists id).mem_flatten.mp on)).2.2.2

theorem unqueued (core : Core s) (off : ∀ other : ListId, other.slot = id.slot → ¬ s.On other t) : (s.nodes id.slot t).queued = false := by
  by_contra queued
  obtain ⟨other, eq, on⟩ := core.queued id.slot t (by simpa using queued)
  exact off other eq on

theorem others (core : Core s) (frame : Represents.Frame (flatten (s.buckets id)) t
    (s.nodes id.slot) nodes') (ne : other ≠ id) (off : other.slot = id.slot → ¬ s.On other t) :
    Represents (s.queues other) (update s.nodes id.slot nodes' other.slot) (s.buckets other) := by
  by_cases eq : other.slot = id.slot
  · rw [eq, update_self]
    have rep := core.lists other
    rw [eq] at rep
    refine rep.congr fun x mem => frame.outside x (fun here => ?_) ?_
    · exact ne (core.unique other id x eq mem here)
    rintro rfl
    exact off eq mem
  · rw [update_of_ne eq]
    exact core.lists other

theorem change (core : Core s) (rep : Represents q nodes' buckets')
    (frame : Represents.Frame (flatten (s.buckets id)) t (s.nodes id.slot) nodes')
    (alone : ∀ other : ListId, other ≠ id → other.slot = id.slot → ¬ s.On other t) (eq : ∀ x, x ≠ t → (x ∈ flatten buckets' ↔ s.On id x))
    (queued : (nodes' t).queued = true → t ∈ flatten buckets') (prio : t ∈ flatten buckets' → (nodes' t).priority = (s.tasks t).priority)
    (boosted : q.boosted = (flatten buckets').countP s.isBoosted) : Core { s with
      queues := update s.queues id q
      nodes := update s.nodes id.slot nodes'
      buckets := update s.buckets id buckets' } := by
  have here : ∀ x, x ∈ flatten (update s.buckets id buckets' id) ↔ x ∈ flatten buckets' := fun x => by
    rw [update_self]
  have mem : ∀ other, other ≠ id → ∀ x, x ∈ flatten (update s.buckets id buckets' other) ↔ s.On other x :=
    fun other ne x => by rw [update_of_ne ne]; rfl
  -- A task on a list after the change was on it before, unless it is the one that came.
  have came : ∀ other x, x ∈ flatten (update s.buckets id buckets' other) → s.On other x ∨ other = id ∧ x = t := by
    intro other x on
    rcases eq_or_ne other id with rfl | ne
    · rcases eq_or_ne x t with rfl | apart
      · exact .inr ⟨rfl, rfl⟩
      · exact .inl ((eq x apart).mp ((here x).mp on))
    · exact .inl ((mem other ne x).mp on)
  have stays : ∀ other x, x ≠ t → s.On other x → x ∈ flatten (update s.buckets id buckets' other) := by
    intro other x apart on
    rcases eq_or_ne other id with rfl | ne
    · exact (here x).mpr ((eq x apart).mpr on)
    · exact (mem other ne x).mpr on
  refine ⟨fun other => ?_, fun slot x queued' => ?_, fun one two x sameSlot first snd => ?_, fun other x on => ?_,
    core.bounded, core.inherits, fun other => ?_⟩
  · dsimp only
    rcases eq_or_ne other id with rfl | ne
    · rw [update_self, update_self, update_self]
      exact rep
    · rw [update_of_ne ne, update_of_ne ne]
      exact core.others frame ne (alone other ne)
  · dsimp only at queued'
    rcases eq_or_ne x t with rfl | apart
    · rcases eq_or_ne slot id.slot with rfl | ne
      · rw [update_self] at queued'
        exact ⟨id, rfl, (here x).mpr (queued queued')⟩
      · rw [update_of_ne ne] at queued'
        obtain ⟨other, pos, on⟩ := core.queued _ x queued'
        exact ⟨other, pos, (mem other (fun both => ne (by rw [← pos, both])) x).mpr on⟩
    have old : (s.nodes slot x).queued = true := by
      rcases eq_or_ne slot id.slot with rfl | ne
      · rw [update_self] at queued'
        have labels := frame.labels x apart
        simp only [Node.label, Prod.mk.injEq] at labels
        rwa [labels.2.2] at queued'
      · rwa [update_of_ne ne] at queued'
    obtain ⟨other, pos, on⟩ := core.queued _ x old
    exact ⟨other, pos, stays other x apart on⟩
  · rcases came one x first with pre | ⟨rfl, rfl⟩
    · rcases came two x snd with before' | ⟨rfl, rfl⟩
      · exact core.unique one two x sameSlot pre before'
      · by_contra ne
        exact alone one ne sameSlot pre
    · rcases came two x snd with before' | ⟨rfl, _⟩
      · by_contra ne
        exact alone two (Ne.symm ne) sameSlot.symm before'
      · rfl
  · dsimp only
    rcases eq_or_ne x t with rfl | apart
    · rcases eq_or_ne other id with rfl | ne
      · rw [update_self]
        exact prio ((here x).mp on)
      · have old := (mem other ne x).mp on
        rw [update_of_ne fun sameSlot => alone other ne sameSlot old]
        exact core.priority other x old
    have old : s.On other x := (came other x on).resolve_right fun both => apart both.2
    have kept := core.priority other x old
    by_cases sameSlot : other.slot = id.slot
    · have labels := frame.labels x apart
      simp only [Node.label, Prod.mk.injEq] at labels
      rw [sameSlot, update_self, labels.2.1, ← sameSlot]
      exact kept
    · rw [update_of_ne sameSlot]
      exact kept
  · dsimp only
    rcases eq_or_ne other id with rfl | ne
    · rw [update_self, update_self]
      exact boosted
    · rw [update_of_ne ne, update_of_ne ne]
      exact core.boosted other

theorem enqueueTask_spec (core : Core s) (id : ListId) (t : Nat) (off : ∀ other : ListId, other.slot = id.slot → ¬ s.On other t)
    (head : Bool) : ∃ s', s.enqueueTask id t head = some s' ∧ Core s' ∧ s'.tasks = s.tasks ∧
      ∀ other x, s'.On other x ↔ s.On other x ∨ other = id ∧ x = t := by
  have lt := core.bounded t
  obtain ⟨_, _, enqueues, rep, sameBoosted, frame, label⟩ := (core.lists id).enqueue_spec (core.unqueued off) lt head
  have perm := flatten_insert_perm (s.buckets id) t head lt
  simp only [Node.label, Prod.mk.injEq] at label
  dsimp only [Scheduler.enqueueTask]
  rw [enqueues]
  refine ⟨_, rfl, core.change (rep.setBoosted _) frame (fun other _ => off other) (fun x apart => ?_)
    (fun _ => perm.mem_iff.mpr (.head _)) (fun _ => label.2.1) ?_, rfl, fun other x => ?_⟩
  · rw [perm.mem_iff, mem_cons]
    exact ⟨fun mem => mem.resolve_left apart, .inr⟩
  · rw [perm.countP_eq, sameBoosted, core.boosted]
    by_cases raised : (s.tasks t).piBasePriority = 0 <;> simp [raised, Scheduler.isBoosted]
  dsimp only [Scheduler.On]
  rcases eq_or_ne other id with rfl | ne
  · rw [update_self, perm.mem_iff, or_comm]
    simp
  · simp [ne]

theorem dequeueTask_spec (core : Core s) (on : s.On id t) : ∃ s', s.dequeueTask id t = some s' ∧ Core s' ∧ s'.tasks = s.tasks ∧
      ∀ other x, s'.On other x ↔ s.On other x ∧ ¬ (other = id ∧ x = t) := by
  have mem := (core.lists id).mem_flatten.mp on
  obtain ⟨lt, _, owner, _⟩ := (core.lists id).members _ t mem
  obtain ⟨_, _, dequeues, rep, sameBoosted, frame, unqueued⟩ := (core.lists id).dequeue_spec mem
  have perm := flatten_erase_perm lt mem
  have new := (nodup_cons.mp (perm.nodup_iff.mp (core.lists id).nodup)).1
  have cnt := core.boosted id
  rw [perm.countP_eq] at cnt
  have pos : ¬ ((s.tasks t).piBasePriority ≠ 0 ∧ (s.queues id).boosted = 0) := by
    rintro ⟨raised, none⟩
    simp [Scheduler.isBoosted, raised, none] at cnt
  dsimp only [Scheduler.dequeueTask]
  rw [owner, if_neg pos, dequeues]
  refine ⟨_, rfl, core.change (rep.setBoosted _) frame
    (fun other ne sameSlot here => ne (core.unique other id t sameSlot here on)) (fun x apart => ?_)
    (fun queued => ?_) (fun here => absurd here new) ?_, rfl, fun other x => ?_⟩
  · rw [Scheduler.On, perm.mem_iff, mem_cons]
    exact ⟨.inr, fun member => member.resolve_left apart⟩
  · rw [unqueued] at queued
    cases queued
  · rw [sameBoosted, cnt]
    by_cases raised : (s.tasks t).piBasePriority = 0 <;> simp [raised, Scheduler.isBoosted]
  dsimp only [Scheduler.On]
  rcases eq_or_ne other id with rfl | ne
  · rw [update_self, perm.mem_iff, mem_cons]
    constructor
    · intro here
      exact ⟨.inr here, fun ⟨_, eq⟩ => new (eq ▸ here)⟩
    rintro ⟨eq | here, apart⟩
    · exact absurd ⟨rfl, eq⟩ apart
    · exact here
  · simp [ne]

end Core
end BoarOS.RunQueue
