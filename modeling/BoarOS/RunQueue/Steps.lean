import BoarOS.RunQueue.Runs

namespace BoarOS.RunQueue
open List Option
open Function (update update_of_ne update_self update_idem update_eq_self)

/-! Each step of the scheduler keeps the lists consistent and does not trap. -/

variable {s s' : Scheduler} {id other : ListId} {t x p cpu base inherited : Nat} {head : Bool} {cpus : List Nat}
  {ids : List ListId} {task : Task}

def Apart (ids : List ListId) : Prop := ids.Nodup ∧ ∀ id ∈ ids, id.slot ≠ .reservation

theorem Apart.tail (apart : Apart (id :: ids)) : id ∉ ids ∧ Apart ids :=
  ⟨(nodup_cons.mp apart.1).1, (nodup_cons.mp apart.1).2, fun other mem => apart.2 other (.tail _ mem)⟩

theorem slot_injective (alone : id.slot ≠ .reservation) (eq : other.slot = id.slot) : other = id :=
  (slot_eq eq.symm).elim Eq.symm fun res => absurd res alone

namespace Core

theorem enqueueAll_spec (core : Core s) (apart : Apart ids) (off : ∀ id ∈ ids, ¬ s.On id t) (head : Bool) :
    ∃ s', s.enqueueAll t head ids = some s' ∧ Core s' ∧ s'.tasks = s.tasks ∧
      ∀ other x, s'.On other x ↔ s.On other x ∨ other ∈ ids ∧ x = t := by
  induction ids generalizing s with
  | nil => exact ⟨s, rfl, core, rfl, fun other x => by simp⟩
  | cons id rest ih =>
    obtain ⟨new, tail⟩ := apart.tail
    have alone := apart.2 id (.head _)
    obtain ⟨_, enqueues, good, ts, on⟩ := core.enqueueTask_spec id t
      (fun other eq => by rw [slot_injective alone eq]; exact off id (.head _)) head
    obtain ⟨s', runs, final, tasks', on'⟩ := ih good tail fun other mem here => by
      rcases (on other t).mp here with old | ⟨rfl, _⟩
      · exact off other (.tail _ mem) old
      · exact new mem
    refine ⟨s', by rwa [Scheduler.enqueueAll, enqueues], final, tasks'.trans ts, fun other x => ?_⟩
    rw [on', on, mem_cons]
    tauto

theorem dequeueAll_spec (core : Core s) (apart : Apart ids) (t : Nat) : ∃ s', s.dequeueAll t ids = some s' ∧ Core s' ∧ s'.tasks = s.tasks ∧
      ∀ other x, s'.On other x ↔ s.On other x ∧ ¬ (other ∈ ids ∧ x = t) := by
  induction ids generalizing s with
  | nil => exact ⟨s, rfl, core, rfl, fun other x => by simp⟩
  | cons id rest ih =>
    obtain ⟨_, tail⟩ := apart.tail
    have alone := apart.2 id (.head _)
    by_cases queued : (s.nodes id.slot t).queued = true
    · obtain ⟨_, dequeues, good, ts, on⟩ := core.dequeueTask_spec ((core.queued_iff id t alone).mp queued)
      obtain ⟨s', runs, final, tasks', on'⟩ := ih good tail
      refine ⟨s', by rwa [Scheduler.dequeueAll, if_pos queued, dequeues], final, tasks'.trans ts, fun other x => ?_⟩
      rw [on', on, mem_cons]
      tauto
    obtain ⟨s', runs, final, tasks', on'⟩ := ih core tail
    refine ⟨s', by rwa [Scheduler.dequeueAll, if_neg queued], final, tasks', fun other x => ?_⟩
    have off : ¬ s.On id t := fun here => queued ((core.queued_iff id t alone).mpr here)
    rw [on', mem_cons]
    constructor
    · rintro ⟨here, out⟩
      refine ⟨here, ?_⟩
      rintro ⟨rfl | mem, rfl⟩
      · exact off here
      · exact out ⟨mem, rfl⟩
    · rintro ⟨here, out⟩
      exact ⟨here, fun both => out ⟨.inr both.1, both.2⟩⟩

theorem setTask (core : Core s) (lt : task.priority ≤ 99) (inherits : task.piBasePriority ≤ task.priority)
    (free : (∀ id, ¬ s.On id t) ∨ task.priority = (s.tasks t).priority ∧ task.piBasePriority = (s.tasks t).piBasePriority) :
    Core (s.setTask t task) := by
  have eq : ∀ id x, s.On id x → (update s.tasks t task x).priority = (s.tasks x).priority ∧
      (update s.tasks t task x).piBasePriority = (s.tasks x).piBasePriority := by
    intro id x on
    rcases eq_or_ne x t with rfl | apart
    · rcases free with off | kept
      · exact absurd on (off id)
      · rw [update_self]
        exact kept
    · rw [update_of_ne apart]
      exact ⟨rfl, rfl⟩
  refine ⟨core.lists, core.queued, core.unique, fun id x on => ?_, ?_, ?_, fun id => ?_⟩
  · exact (core.priority id x on).trans (eq id x on).1.symm
  · exact (Function.forall_update_iff s.tasks fun _ task => task.priority ≤ 99).mpr ⟨lt, fun x _ => core.bounded x⟩
  · exact (Function.forall_update_iff s.tasks fun _ task => task.piBasePriority ≤ task.priority).mpr ⟨inherits, fun x _ => core.inherits x⟩
  rw [show (s.setTask t task).queues id = s.queues id from rfl, core.boosted id]
  refine countP_congr fun x on => ?_
  simp [Scheduler.isBoosted, Scheduler.setTask, (eq id x on).2]

theorem boosted_setTask_off (core : Core s) (off : ¬ s.On id t) :
    (flatten (s.buckets id)).countP (s.setTask t task).isBoosted = (s.queues id).boosted := by
  rw [core.boosted id]
  refine countP_congr fun x mem => ?_
  have apart : x ≠ t := fun eq => off (eq ▸ mem)
  simp [Scheduler.isBoosted, Scheduler.setTask, apart]

theorem boosted_setTask_on (core : Core s) (task : Task) (on : s.On id t) :
    (flatten (s.buckets id)).countP (s.setTask t task).isBoosted + (s.isBoosted t).toNat =
      (s.queues id).boosted + (decide (task.piBasePriority ≠ 0)).toNat := by
  have rest : ((flatten (s.buckets id)).erase t).countP (s.setTask t task).isBoosted =
      ((flatten (s.buckets id)).erase t).countP s.isBoosted := by
    refine countP_congr fun x mem => ?_
    have apart : x ≠ t := ((core.lists id).nodup.mem_erase_iff.mp mem).1
    simp [Scheduler.isBoosted, Scheduler.setTask, apart]
  have now : (s.setTask t task).isBoosted t = decide (task.piBasePriority ≠ 0) := by
    simp [Scheduler.isBoosted, Scheduler.setTask]
  have total := countP_erase (P := (s.setTask t task).isBoosted) on
  have pre := countP_erase (P := s.isBoosted) on
  rw [core.boosted id, total, pre, rest, now]
  cases s.isBoosted t <;> cases decide (task.piBasePriority ≠ 0) <;> simp

end Core

theorem readyLists_apart (nodup : cpus.Nodup) (eligible : Eligibility) :
    Apart (ListId.runqueue :: (if eligible.service then [ListId.services] else []) ++
      (cpus.filter fun cpu => cpu ∈ eligible.cpus).map ListId.eligible) := by
  have processors : ((cpus.filter fun cpu => cpu ∈ eligible.cpus).map ListId.eligible).Nodup :=
    (nodup.filter _).map fun _ _ eq => by cases eq; rfl
  constructor
  · cases eligible.service
    · simp [processors]
    · simp [processors]
  intro id mem
  simp only [cons_append, mem_cons, mem_append, List.mem_map] at mem
  rcases mem with rfl | mem | ⟨_, _, rfl⟩
  · simp [ListId.slot]
  · split at mem
    · rw [mem_singleton.mp mem]
      simp [ListId.slot]
    · cases mem
  · simp [ListId.slot]

namespace Consistent
section
variable (inv : Consistent cpus s)
include inv

theorem readyEnqueue_spec (nodup : cpus.Nodup) (off : ¬ s.On .runqueue t) (head : Bool) (eligible : Eligibility) :
    ∃ s', s.readyEnqueue cpus t head eligible = some s' ∧ Consistent cpus s' ∧ s'.tasks = s.tasks := by
  have apart := readyLists_apart nodup eligible
  obtain ⟨s', runs, core, ts, on⟩ := inv.core.enqueueAll_spec apart (t := t)
    (fun id mem here => off (inv.ready id t (apart.2 id mem) here)) head
  refine ⟨s', runs, ⟨core, fun id x alone here => ?_, fun cpu x here => ?_, fun cpu x => ?_⟩, ts⟩
  · rw [on] at here ⊢
    rcases here with old | ⟨_, rfl⟩
    · exact .inl (inv.ready id x alone old)
    · exact .inr ⟨by simp, rfl⟩
  · rw [on] at here
    rcases here with old | ⟨mem, _⟩
    · exact inv.known cpu x old
    simp only [mem_cons, mem_append, List.mem_map, reduceCtorEq, false_or] at mem
    rcases mem with mem | ⟨_, mem, eq⟩
    · split at mem <;> simp at mem
    cases eq
    exact (mem_filter.mp mem).1
  · rw [on, ts, inv.reserved]
    constructor
    · rintro (res | ⟨mem, _⟩)
      · exact res
      · exact absurd rfl (apart.2 _ mem)
    · exact .inl

theorem readyRemove_spec (nodup : cpus.Nodup) (on : s.On .runqueue t) :
    ∃ s', s.readyRemove cpus t = some s' ∧ Consistent cpus s' ∧ s'.tasks = s.tasks ∧ ¬ s'.On .runqueue t := by
  have apart : Apart (.services :: cpus.map ListId.eligible) := by
    constructor
    · have processors : (cpus.map ListId.eligible).Nodup := nodup.map fun _ _ eq => by cases eq; rfl
      simp [processors]
    intro id mem
    rcases mem_cons.mp mem with rfl | mem
    · simp [ListId.slot]
    obtain ⟨cpu, _, rfl⟩ := mem_map.mp mem
    simp [ListId.slot]
  obtain ⟨mid, runs, core, ts, left⟩ := inv.core.dequeueAll_spec apart t
  obtain ⟨s', dequeues, final, tasks', gone⟩ := core.dequeueTask_spec (show mid.On .runqueue t from (left _ _).mpr ⟨on, by simp⟩)
  have here : ∀ other x, s'.On other x ↔ s.On other x ∧ ¬ (x = t ∧ other.slot ≠ .reservation) := by
    intro other x
    rw [gone, left]
    constructor
    · rintro ⟨⟨old, out⟩, notReady⟩
      refine ⟨old, ?_⟩
      rintro ⟨rfl, alone⟩
      cases other with
      | runqueue => exact notReady ⟨rfl, rfl⟩
      | services => exact out ⟨.head _, rfl⟩
      | reservations cpu => exact alone rfl
      | eligible cpu =>
        exact out ⟨.tail _ (mem_map_of_mem (inv.known cpu x old)), rfl⟩
    · rintro ⟨old, out⟩
      refine ⟨⟨old, ?_⟩, ?_⟩
      · rintro ⟨mem, rfl⟩
        exact out ⟨rfl, apart.2 other mem⟩
      · rintro ⟨rfl, rfl⟩
        exact out ⟨rfl, by simp [ListId.slot]⟩
  refine ⟨s', by rwa [Scheduler.readyRemove, runs],
    ⟨final, fun id x alone now => ?_, fun cpu x now => ?_, fun cpu x => ?_⟩, tasks'.trans ts, fun now => ?_⟩
  · rw [here] at now ⊢
    exact ⟨inv.ready id x alone now.1, fun both => now.2 ⟨both.1, alone⟩⟩
  · exact inv.known cpu x ((here _ _).mp now).1
  · rw [here, tasks', ts, inv.reserved]
    simp [ListId.slot]
  · exact ((here _ _).mp now).2 ⟨rfl, by simp [ListId.slot]⟩

theorem reservation_queued : (s.nodes .reservation t).queued = true ↔ (s.tasks t).reservationCpu ≠ none := by
  constructor
  · intro queued
    obtain ⟨id, slot, on⟩ := inv.core.queued _ t queued
    cases id with
    | reservations cpu => rw [(inv.reserved cpu t).mp on]; simp
    | runqueue | services | eligible => cases slot
  · intro res
    obtain ⟨cpu, eq⟩ := ne_none_iff_exists'.mp res
    have on := (inv.reserved cpu t).mpr eq
    exact ((inv.core.lists (.reservations cpu)).members _ t ((inv.core.lists (.reservations cpu)).mem_flatten.mp on)).2.2.2

theorem reservationRelease_spec (t : Nat) : ∃ s', s.reservationRelease t = some s' ∧ Consistent cpus s' ∧
      s'.tasks = update s.tasks t { s.tasks t with reservationCpu := none } ∧
      ∀ other x, s'.On other x ↔ s.On other x ∧ ¬ (x = t ∧ other.slot = .reservation) := by
  unfold Scheduler.reservationRelease
  cases res : (s.tasks t).reservationCpu with
  | none =>
    have unqueued : ¬ (s.nodes .reservation t).queued = true := fun queued =>
      inv.reservation_queued.mp queued res
    rw [if_neg unqueued]
    refine ⟨s, rfl, inv, ?_, fun other x => ⟨fun on => ⟨on, ?_⟩, fun both => both.1⟩⟩
    · rw [show { s.tasks t with reservationCpu := none } = s.tasks t by rw [← res], update_eq_self]
    rintro ⟨rfl, slot⟩
    cases other with
    | reservations cpu =>
      rw [inv.reserved, res] at on
      cases on
    | runqueue | services | eligible => cases slot
  | some cpu =>
    have queued : (s.nodes .reservation t).queued = true := inv.reservation_queued.mpr (by simp [res])
    have on := (inv.reserved cpu t).mpr res
    obtain ⟨mid, dequeues, core, ts, left⟩ := inv.core.dequeueTask_spec on
    rw [if_pos queued]
    dsimp only
    rw [dequeues]
    have here : ∀ other x, mid.On other x ↔ s.On other x ∧ ¬ (x = t ∧ other.slot = .reservation) := by
      intro other x
      rw [left]
      constructor
      · rintro ⟨old, out⟩
        refine ⟨old, ?_⟩
        rintro ⟨rfl, slot⟩
        exact out ⟨inv.core.unique other _ x slot old on, rfl⟩
      · rintro ⟨old, out⟩
        exact ⟨old, fun both => out ⟨both.2, by rw [both.1]; rfl⟩⟩
    refine ⟨_, rfl, ⟨core.setTask (by rw [ts]; exact inv.core.bounded t)
      (by rw [ts]; exact inv.core.inherits t) (.inr ⟨rfl, rfl⟩), fun id x alone now => ?_,
      fun cpu x now => ?_, fun cpu' x => ?_⟩, by rw [← ts]; rfl, here⟩
    · exact (here _ x).mpr ⟨inv.ready id x alone ((here id x).mp now).1, by simp [ListId.slot]⟩
    · exact inv.known cpu x ((here _ x).mp now).1
    change mid.On (.reservations cpu') x ↔ _
    rw [here, inv.reserved]
    dsimp only [Scheduler.setTask]
    rcases eq_or_ne x t with rfl | apart
    · simp [ListId.slot]
    · simp [apart, ts]

theorem reserve_spec (free : (s.tasks t).reservationCpu = none) (cpu : Nat) (head : Bool) :
    ∃ s', (s.setTask t { s.tasks t with reservationCpu := some cpu }).enqueueTask (.reservations cpu) t head =
        some s' ∧ Consistent cpus s' ∧
      s'.tasks = update s.tasks t { s.tasks t with reservationCpu := some cpu } ∧
      ∀ other x, other.slot ≠ .reservation → (s'.On other x ↔ s.On other x) := by
  have core : Core (s.setTask t { s.tasks t with reservationCpu := some cpu }) :=
    inv.core.setTask (inv.core.bounded t) (inv.core.inherits t) (.inr ⟨rfl, rfl⟩)
  have off : ∀ other : ListId, other.slot = (ListId.reservations cpu).slot → ¬ s.On other t := by
    intro other slot on
    cases other with
    | reservations cpu' =>
      rw [inv.reserved, free] at on
      cases on
    | runqueue | services | eligible => cases slot
  obtain ⟨s', enqueues, good, ts, on⟩ := core.enqueueTask_spec _ t off head
  refine ⟨s', enqueues, ⟨good, fun id x alone now => ?_, fun cpu' x now => ?_, fun cpu' x => ?_⟩, ts, fun other x alone => ?_⟩
  · refine (on _ x).mpr (.inl ?_)
    rcases (on id x).mp now with old | ⟨rfl, _⟩
    · exact inv.ready id x alone old
    · exact absurd rfl alone
  · rcases (on _ x).mp now with old | ⟨eq, _⟩
    · exact inv.known cpu' x old
    · cases eq
  · rw [on, ts]
    change s.On _ x ∨ _ ↔ _
    rw [inv.reserved]
    dsimp only [Scheduler.setTask]
    rcases eq_or_ne x t with rfl | apart
    · simp [free, eq_comm]
    · simp [apart]
  · rw [on]
    constructor
    · rintro (old | ⟨rfl, _⟩)
      · exact old
      · exact absurd rfl alone
    · exact .inl

end

theorem piMove_spec (inv : Consistent cpus s) (nodup : cpus.Nodup) (lt : prio ≤ 99) (inherits : saved ≤ prio)
    (eligible : Eligibility) : ∃ s', s.piMove cpus t prio saved eligible = some s' ∧ Consistent cpus s' := by
  dsimp only [Scheduler.piMove]
  obtain ⟨gone, removes, good, ts, off⟩ : ∃ gone, (if (s.nodes .ready t).queued then s.readyRemove cpus t else some s) = some gone ∧
        Consistent cpus gone ∧ gone.tasks = s.tasks ∧ ¬ gone.On .runqueue t := by
    have ready : (s.nodes .ready t).queued = true ↔ s.On .runqueue t := inv.core.queued_iff .runqueue t (by simp [ListId.slot])
    by_cases queued : (s.nodes .ready t).queued = true
    · rw [if_pos queued]
      exact inv.readyRemove_spec nodup (ready.mp queued)
    · rw [if_neg queued]
      exact ⟨s, rfl, inv, rfl, fun on => queued (ready.mpr on)⟩
  obtain ⟨freed, frees, clear, tasks', left⟩ : ∃ freed,
      (if (s.tasks t).reservationCpu ≠ none then gone.reservationRelease t else some gone) = some freed ∧
        Consistent cpus freed ∧ freed.tasks = update s.tasks t { s.tasks t with reservationCpu := none } ∧
        ∀ id, ¬ freed.On id t := by
    have out : ∀ id, id.slot ≠ .reservation → ¬ gone.On id t := fun id alone on => off (good.ready id t alone on)
    by_cases resv : (s.tasks t).reservationCpu = none
    · rw [if_neg (by simp [resv])]
      refine ⟨gone, rfl, good, ?_, fun id on => ?_⟩
      · rw [ts, show { s.tasks t with reservationCpu := none } = s.tasks t by rw [← resv], update_eq_self]
      by_cases alone : id.slot = .reservation
      · cases id with
        | reservations cpu =>
          rw [good.reserved, ts, resv] at on
          cases on
        | runqueue | services | eligible => cases alone
      · exact out id alone on
    · rw [if_pos resv]
      obtain ⟨freed, frees, clear, tasks', left⟩ := good.reservationRelease_spec t
      refine ⟨freed, frees, clear, by rw [tasks', ts], fun id on => ?_⟩
      obtain ⟨on, notReserved⟩ := (left id t).mp on
      exact out id (fun slot => notReserved ⟨rfl, slot⟩) on
  rw [removes, bind_some, frees, bind_some]
  have raised : Consistent cpus (freed.setTask t { freed.tasks t with piBasePriority := saved, priority := prio }) := by
    refine ⟨clear.core.setTask lt inherits (.inl left), clear.ready, clear.known, fun cpu x => ?_⟩
    refine (clear.reserved cpu x).trans ?_
    dsimp only [Scheduler.setTask]
    rcases eq_or_ne x t with rfl | apart
    · simp
    · simp [apart]
  obtain ⟨resv, reserves, final, out⟩ : ∃ resv,
      (freed.setTask t { freed.tasks t with piBasePriority := saved, priority := prio }).restoreReservation t
        (s.tasks t).reservationCpu (decide (prio < (s.tasks t).priority)) = some resv ∧
        Consistent cpus resv ∧ ¬ resv.On .runqueue t := by
    unfold Scheduler.restoreReservation
    cases res : (s.tasks t).reservationCpu with
    | none => exact ⟨_, rfl, raised, left .runqueue⟩
    | some cpu =>
      dsimp only
      split
      · obtain ⟨s', enqueues, good, _, eq⟩ := raised.reserve_spec (t := t)
          (by simp [Scheduler.setTask, tasks']) cpu (decide (prio < (s.tasks t).priority))
        exact ⟨s', enqueues, good, fun on => left .runqueue ((eq .runqueue t (by simp [ListId.slot])).mp on)⟩
      · exact ⟨_, rfl, raised, left .runqueue⟩
  rw [reserves]
  split
  · obtain ⟨s', enqueues, good, _⟩ := final.readyEnqueue_spec nodup out _ eligible
    exact ⟨s', enqueues, good⟩
  · exact ⟨resv, rfl, final⟩

theorem mem_queuedLists (inv : Consistent cpus s) : id ∈ s.queuedLists cpus t ↔ s.On id t := by
  unfold Scheduler.queuedLists
  simp only [mem_append, mem_filter, mem_cons, List.mem_map, mem_toList, cons_append, not_mem_nil, or_false]
  cases id with
  | runqueue => simpa using inv.core.queued_iff .runqueue t (by simp [ListId.slot])
  | services => simpa using inv.core.queued_iff .services t (by simp [ListId.slot])
  | eligible cpu =>
    have queued := inv.core.queued_iff (.eligible cpu) t (by simp [ListId.slot])
    constructor
    · rintro (⟨_, here⟩ | ⟨_, _, absurd⟩)
      · exact queued.mp here
      · cases absurd
    · intro on
      exact .inl ⟨.inr (.inl ⟨cpu, inv.known cpu t on, rfl⟩), queued.mpr on⟩
  | reservations cpu =>
    rw [inv.reserved cpu t]
    constructor
    · rintro (⟨other | ⟨_, _, other⟩ | other, _⟩ | ⟨_, res, eq⟩)
      · cases other
      · cases other
      · cases other
      · cases eq
        exact res
    · exact fun res => .inr ⟨cpu, res, rfl⟩

theorem queuedLists_nodup (nodup : cpus.Nodup) : (s.queuedLists cpus t).Nodup := by
  have processors : (cpus.map ListId.eligible).Nodup := nodup.map fun _ _ eq => by cases eq; rfl
  have front : (ListId.runqueue :: cpus.map ListId.eligible ++ [ListId.services]).Nodup := by
    refine List.Nodup.append (by simp [processors]) (nodup_singleton _) ?_
    intro id mem single
    rw [mem_singleton.mp single] at mem
    simp at mem
  refine List.Nodup.append (front.filter _) ?_ ?_
  · cases (s.tasks t).reservationCpu <;> simp
  intro id mem res
  obtain ⟨_, _, rfl⟩ := mem_map.mp res
  simp at mem

end Consistent

theorem boostAll_spec (nodup : ids.Nodup) (pos : add = false → ∀ id ∈ ids, (s.queues id).boosted ≠ 0) : s.boostAll add ids = some { s with
      queues := fun id => { s.queues id with
        boosted := if id ∈ ids then if add then (s.queues id).boosted + 1 else (s.queues id).boosted - 1
          else (s.queues id).boosted } } := by
  induction ids generalizing s with
  | nil => simp [Scheduler.boostAll]
  | cons id rest ih =>
    obtain ⟨new, tail⟩ := nodup_cons.mp nodup
    have one : s.boostCountChange id add = some { s with
        queues := update s.queues id { s.queues id with
          boosted := if add then (s.queues id).boosted + 1 else (s.queues id).boosted - 1 } } := by
      cases add with
      | true => rfl
      | false => simp [Scheduler.boostCountChange, pos rfl id mem_cons_self]
    rw [Scheduler.boostAll, one, bind_some, ih tail]
    · congr 2
      funext other
      rcases eq_or_ne other id with rfl | ne
      · simp [new]
      · simp [ne]
    · intro subtract other mem
      have ne : other ≠ id := fun eq => new (eq ▸ mem)
      simpa [ne] using pos subtract other (.tail _ mem)

namespace Consistent
section
variable (inv : Consistent cpus s)
include inv

theorem setBase (inherits : saved ≤ (s.tasks t).priority) (n : ListId → Nat) (total : ∀ id, n id =
      (flatten (s.buckets id)).countP (s.setTask t { s.tasks t with piBasePriority := saved }).isBoosted) :
    Consistent cpus (Scheduler.setTask { s with queues := fun id => { s.queues id with boosted := n id } } t
      { s.tasks t with piBasePriority := saved }) := by
  have core := inv.core
  have eq : ∀ x, (update s.tasks t { s.tasks t with piBasePriority := saved } x).priority =
      (s.tasks x).priority ∧ (update s.tasks t { s.tasks t with piBasePriority := saved } x).reservationCpu =
      (s.tasks x).reservationCpu :=
    (Function.forall_update_iff s.tasks fun x task => task.priority = (s.tasks x).priority ∧
      task.reservationCpu = (s.tasks x).reservationCpu).mpr ⟨⟨rfl, rfl⟩, fun _ _ => ⟨rfl, rfl⟩⟩
  refine ⟨⟨fun id => (core.lists id).setBoosted _, core.queued, core.unique, fun id x on => ?_, fun x => ?_, ?_, total⟩,
    inv.ready, inv.known, fun cpu x => ?_⟩
  · exact (core.priority id x on).trans (eq x).1.symm
  · exact le_of_eq_of_le (eq x).1 (core.bounded x)
  · exact (Function.forall_update_iff s.tasks fun _ task => task.piBasePriority ≤ task.priority).mpr ⟨inherits, fun x _ => core.inherits x⟩
  refine (inv.reserved cpu x).trans ?_
  rw [← (eq x).2]
  rfl

theorem piStay_spec (nodup : cpus.Nodup) (inherits : saved ≤ (s.tasks t).priority) :
    ∃ s', (if decide (saved ≠ 0) ≠ decide ((s.tasks t).piBasePriority ≠ 0) then
          s.boostAll (decide (saved ≠ 0)) (s.queuedLists cpus t) else some s).map (fun s =>
        s.setTask t { s.tasks t with piBasePriority := saved }) = some s' ∧ Consistent cpus s' := by
  have core := inv.core
  have member : ∀ id, id ∈ s.queuedLists cpus t ↔ s.On id t := fun id => inv.mem_queuedLists
  split
  next changes =>
    have pre : s.isBoosted t = !decide (saved ≠ 0) := by
      unfold Scheduler.isBoosted
      revert changes
      cases decide (saved ≠ 0) <;> cases decide ((s.tasks t).piBasePriority ≠ 0) <;> simp
    have cnt := fun id (on : s.On id t) =>
      core.boosted_setTask_on { s.tasks t with piBasePriority := saved } on
    rw [boostAll_spec (queuedLists_nodup nodup) fun subtract id mem none => ?_]
    · refine ⟨_, rfl, inv.setBase inherits _ fun id => ?_⟩
      by_cases on : s.On id t
      · have total := cnt id on
        rw [if_pos ((member id).mpr on)]
        rw [pre] at total
        cases raised : decide (saved ≠ 0) with
        | true =>
          simp only [raised, Bool.not_true, Bool.toNat_false, Bool.toNat_true] at total
          simp only [if_true]
          omega
        | false =>
          simp only [raised, Bool.not_false, Bool.toNat_false, Bool.toNat_true] at total
          simp only [Bool.false_eq_true, if_false]
          omega
      · rw [if_neg fun mem => on ((member id).mp mem)]
        exact (core.boosted_setTask_off on).symm
    · have total := cnt id ((member id).mp mem)
      rw [pre, subtract] at total
      simp only [Bool.not_false, Bool.toNat_false, Bool.toNat_true] at total
      omega
  next keeps =>
    rw [not_not] at keeps
    refine ⟨_, rfl, inv.setBase inherits (fun id => (s.queues id).boosted) fun id => ?_⟩
    by_cases on : s.On id t
    · have total := core.boosted_setTask_on { s.tasks t with piBasePriority := saved } on
      have agrees : s.isBoosted t = decide (saved ≠ 0) := keeps.symm
      rw [agrees] at total
      dsimp only at total ⊢
      omega
    · exact (core.boosted_setTask_off on).symm

theorem piPriority_spec (nodup : cpus.Nodup) (lt : base ≤ 99 ∧ inherited ≤ 99) (eligible : Eligibility) :
    ∃ s', s.piPriority cpus t base inherited eligible = some s' ∧ Consistent cpus s' := by
  unfold Scheduler.piPriority
  rw [if_neg (by omega)]
  dsimp only
  have le : max base inherited ≤ 99 := by omega
  have inherits : (if max base inherited > base then base + 1 else 0) ≤ max base inherited := by
    split <;> omega
  split
  · exact inv.piMove_spec nodup le inherits eligible
  rename_i eq
  rw [not_not] at eq
  rw [eq] at inherits ⊢
  generalize (if (s.tasks t).priority > base then base + 1 else 0) = saved at inherits ⊢
  split
  · exact ⟨s, rfl, inv⟩
  · exact inv.piStay_spec nodup inherits

theorem step (nodup : cpus.Nodup) {step : Step} {out : Option Scheduler}
    (ok : s.step cpus step = some out) : ∃ s', out = some s' ∧ Consistent cpus s' := by
  have ready : ∀ t, (s.nodes .ready t).queued = true ↔ s.On .runqueue t := fun t =>
    inv.core.queued_iff .runqueue t (by simp [ListId.slot])
  unfold Scheduler.step at ok
  cases step with
  | enqueue t head eligible =>
    dsimp only at ok
    split at ok
    · cases ok
    rename_i unqueued
    obtain ⟨s', runs, good, _⟩ := inv.readyEnqueue_spec nodup (fun on => unqueued ((ready t).mpr on)) head eligible
    cases ok
    exact ⟨s', runs, good⟩
  | remove t =>
    dsimp only at ok
    split at ok
    next queued =>
      obtain ⟨s', runs, good, _⟩ := inv.readyRemove_spec nodup ((ready t).mp queued)
      cases ok
      exact ⟨s', runs, good⟩
    · cases ok
  | reserve t cpu =>
    cases ok
    unfold Scheduler.reserveUser
    by_cases queued : (s.nodes .reservation t).queued = true
    · rw [if_pos queued]
      exact ⟨s, rfl, inv⟩
    have free : (s.tasks t).reservationCpu = none := by
      by_contra res
      exact queued (inv.reservation_queued.mpr res)
    rw [if_neg queued, if_neg (by simp [free])]
    obtain ⟨s', runs, good, _⟩ := inv.reserve_spec free cpu false
    exact ⟨s', runs, good⟩
  | unreserve t =>
    cases ok
    obtain ⟨s', runs, good, _⟩ := inv.reservationRelease_spec t
    exact ⟨s', runs, good⟩
  | piPriority t base inherited eligible =>
    dsimp only at ok
    split at ok
    · cases ok
    cases ok
    exact inv.piPriority_spec nodup (by omega) eligible

end
end Consistent

theorem consistent_initial (lt : ∀ t, priorities t ≤ 99) : Consistent cpus (Scheduler.initial priorities) := by
  have empty : flatten (fun _ => []) = [] := by
    refine eq_nil_iff_forall_not_mem.mpr fun x mem => ?_
    obtain ⟨p, _, _, here⟩ := mem_descending.mp mem
    cases here
  have off : ∀ id t, ¬ (Scheduler.initial priorities).On id t := fun id t on => by
    change t ∈ flatten (fun _ => []) at on
    rw [empty] at on
    cases on
  refine ⟨⟨fun id => ?_, fun slot t queued => (by cases queued), fun one two t _ first => absurd first (off one t),
    fun id t on => absurd on (off id t), lt, fun t => Nat.zero_le _, fun id => ?_⟩,
    fun id t _ on => absurd on (off id t), fun cpu t on => absurd on (off _ t), fun cpu t => ?_⟩
  · change Represents .empty _ fun _ => []
    refine ⟨fun _ => rfl, fun _ => rfl, ?_, ?_, ?_, ?_, fun _ _ mem => by cases mem⟩
    · rw [empty]; rfl
    · rw [empty]; rfl
    · rw [empty]; trivial
    · rw [empty]; exact nodup_nil
  · rfl
  · exact ⟨fun on => absurd on (off _ t), fun res => by cases res⟩

theorem Scheduler.Reachable.consistent (run : s.Reachable cpus) (nodup : cpus.Nodup) : Consistent cpus s := by
  induction run with
  | initial lt => exact consistent_initial lt
  | step _ ok ih =>
    obtain ⟨_, eq, good⟩ := ih.step nodup ok
    cases eq
    exact good

end BoarOS.RunQueue
