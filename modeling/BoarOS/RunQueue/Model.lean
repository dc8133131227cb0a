import Mathlib.Logic.Function.Basic

namespace BoarOS.RunQueue
open Function (update)

/-! # Run queues (`kernel/sched/runqueue.c`, `kernel/sched/scheduling.c`)

A task has one node for each kind of list: the shared ready list, the eligible list of each processor, the
real-time services and the reservations. A node is named by its task. Which lists a task is eligible for is an
argument of the step, since their order does not depend on it. -/

structure Node where
  next : Option Nat
  previous : Option Nat
  owner : Nat
  priority : Nat
  queued : Bool
deriving DecidableEq

structure Runqueue where
  first : Option Nat
  last : Option Nat
  heads : Nat → Option Nat
  tails : Nat → Option Nat
  boosted : Nat

def Runqueue.empty : Runqueue := ⟨none, none, fun _ => none, fun _ => none, 0⟩

def setNext (nodes : Nat → Node) (node : Option Nat) (next : Option Nat) : Nat → Node :=
  match node with
  | none => nodes
  | some x => update nodes x { nodes x with next := next }

def setPrevious (nodes : Nat → Node) (node : Option Nat) (previous : Option Nat) : Nat → Node :=
  match node with
  | none => nodes
  | some x => update nodes x { nodes x with previous := previous }

namespace Runqueue

/-- The neighbours between which `kernel_sched_enqueue` puts a node; no result is a fault on a null tail. -/
def place (queue : Runqueue) (nodes : Nat → Node) (priority : Nat) (atHead : Bool) : Option (Option Nat × Option Nat) :=
  match queue.heads priority with
  | some head =>
    if atHead then some ((nodes head).previous, some head)
    else (queue.tails priority).map fun tail => (some tail, (nodes tail).next)
  | none =>
    if queue.last.all fun last => (nodes last).priority > priority then some (queue.last, none)
    else match (List.range' (priority + 1) (99 - priority)).findSome? queue.tails with
      | some previous => some (some previous, (nodes previous).next)
      | none => some (none, queue.first)

/-- `kernel_sched_enqueue`; no result is a trap. -/
def enqueue (queue : Runqueue) (nodes : Nat → Node) (node owner priority : Nat) (atHead : Bool) : Option (Runqueue × (Nat → Node)) :=
  if (nodes node).queued ∨ priority > 99 then none
  else (queue.place nodes priority atHead).map fun (previous, next) =>
    let placed := update nodes node ⟨next, previous, owner, priority, true⟩
    ({ queue with
      first := if previous = none then some node else queue.first
      last := if next = none then some node else queue.last
      heads := if queue.heads priority = none ∨ atHead then update queue.heads priority (some node) else queue.heads
      tails := if queue.tails priority = none ∨ atHead = false then update queue.tails priority (some node) else queue.tails },
      setPrevious (setNext placed previous (some node)) next (some node))

def unlink (nodes : Nat → Node) (node : Nat) : Nat → Node :=
  let previous := (nodes node).previous
  let next := (nodes node).next
  let unlinked := setPrevious (setNext nodes previous next) next previous
  update unlinked node { unlinked node with next := none, previous := none, queued := false }

/-- `kernel_sched_dequeue`; no result is a trap. -/
def dequeue (queue : Runqueue) (nodes : Nat → Node) (node : Nat) : Option (Runqueue × (Nat → Node)) :=
  if (nodes node).queued = false then none
  else
    let previous := (nodes node).previous
    let next := (nodes node).next
    let priority := (nodes node).priority
    some ({ queue with
      first := if previous = none then next else queue.first
      last := if next = none then previous else queue.last
      heads := if queue.heads priority = some node then
          update queue.heads priority (next.filter fun x => (nodes x).priority = priority)
        else queue.heads
      tails := if queue.tails priority = some node then
          update queue.tails priority (previous.filter fun x => (nodes x).priority = priority)
        else queue.tails }, unlink nodes node)

def pick (queue : Runqueue) (rtEligible : Bool) : Option Nat :=
  if rtEligible then queue.first else queue.heads 0

end Runqueue

inductive Slot where
  | ready
  | eligible (cpu : Nat)
  | service
  | reservation
deriving DecidableEq

inductive ListId where
  | runqueue
  | eligible (cpu : Nat)
  | services
  | reservations (cpu : Nat)
deriving DecidableEq

def ListId.slot : ListId → Slot
  | .runqueue => .ready
  | .eligible cpu => .eligible cpu
  | .services => .service
  | .reservations _ => .reservation

/-- `piBasePriority` is zero or one more than the base priority that inheritance has raised. -/
structure Task where
  priority : Nat
  piBasePriority : Nat
  reservationCpu : Option Nat
deriving DecidableEq

/-- `buckets` has the tasks of each list and priority, in the order of enqueueing. -/
structure Scheduler where
  queues : ListId → Runqueue
  nodes : Slot → Nat → Node
  tasks : Nat → Task
  buckets : ListId → Nat → List Nat

structure Eligibility where
  service : Bool
  cpus : List Nat

inductive Step where
  | enqueue (t : Nat) (head : Bool) (eligible : Eligibility)
  | remove (t : Nat)
  | reserve (t cpu : Nat)
  | unreserve (t : Nat)
  | piPriority (t base inherited : Nat) (eligible : Eligibility)

namespace Scheduler

def initial (priorities : Nat → Nat) : Scheduler :=
  { queues := fun _ => .empty
    nodes := fun _ _ => ⟨none, none, 0, 0, false⟩
    tasks := fun t => ⟨priorities t, 0, none⟩
    buckets := fun _ _ => [] }

def setTask (s : Scheduler) (t : Nat) (task : Task) : Scheduler :=
  { s with tasks := update s.tasks t task }

/-- The list as the sequence of its buckets, with one task put in or taken out. -/
def insertBucket (buckets : Nat → List Nat) (t priority : Nat) (head : Bool) : Nat → List Nat :=
  update buckets priority (if head then t :: buckets priority else buckets priority ++ [t])

def eraseBucket (buckets : Nat → List Nat) (t priority : Nat) : Nat → List Nat :=
  update buckets priority ((buckets priority).erase t)

def enqueueTask (s : Scheduler) (id : ListId) (t : Nat) (head : Bool) : Option Scheduler :=
  let task := s.tasks t
  ((s.queues id).enqueue (s.nodes id.slot) t t task.priority head).map fun (queue, nodes) =>
    { s with
      queues := update s.queues id
        { queue with boosted := if task.piBasePriority ≠ 0 then queue.boosted + 1 else queue.boosted }
      nodes := update s.nodes id.slot nodes
      buckets := update s.buckets id (insertBucket (s.buckets id) t task.priority head) }

def dequeueTask (s : Scheduler) (id : ListId) (t : Nat) : Option Scheduler :=
  let task := s.tasks (s.nodes id.slot t).owner
  if task.piBasePriority ≠ 0 ∧ (s.queues id).boosted = 0 then none
  else ((s.queues id).dequeue (s.nodes id.slot) t).map fun (queue, nodes) =>
    { s with
      queues := update s.queues id
        { queue with boosted := if task.piBasePriority ≠ 0 then queue.boosted - 1 else queue.boosted }
      nodes := update s.nodes id.slot nodes
      buckets := update s.buckets id (eraseBucket (s.buckets id) t (s.nodes id.slot t).priority) }

def enqueueAll (s : Scheduler) (t : Nat) (head : Bool) : List ListId → Option Scheduler
  | [] => some s
  | id :: rest => (s.enqueueTask id t head).bind fun s => enqueueAll s t head rest

def dequeueAll (s : Scheduler) (t : Nat) : List ListId → Option Scheduler
  | [] => some s
  | id :: rest =>
    (if (s.nodes id.slot t).queued then s.dequeueTask id t else some s).bind fun s => dequeueAll s t rest

def readyEnqueue (cpus : List Nat) (s : Scheduler) (t : Nat) (head : Bool) (eligible : Eligibility) : Option Scheduler :=
  s.enqueueAll t head (.runqueue :: (if eligible.service then [.services] else []) ++
    (cpus.filter fun cpu => cpu ∈ eligible.cpus).map ListId.eligible)

def readyRemove (cpus : List Nat) (s : Scheduler) (t : Nat) : Option Scheduler :=
  (s.dequeueAll t (.services :: cpus.map ListId.eligible)).bind fun s => s.dequeueTask .runqueue t

def reservationRelease (s : Scheduler) (t : Nat) : Option Scheduler :=
  if (s.nodes .reservation t).queued then
    match (s.tasks t).reservationCpu with
    | none => none
    | some cpu => (s.dequeueTask (.reservations cpu) t).map fun s => s.setTask t { s.tasks t with reservationCpu := none }
  else if (s.tasks t).reservationCpu ≠ none then none
  else some s

def reserveUser (s : Scheduler) (t cpu : Nat) : Option Scheduler :=
  if (s.nodes .reservation t).queued then some s
  else if (s.tasks t).reservationCpu ≠ none then none
  else (s.setTask t { s.tasks t with reservationCpu := some cpu }).enqueueTask (.reservations cpu) t false

def boostCountChange (s : Scheduler) (id : ListId) (add : Bool) : Option Scheduler :=
  let queue := s.queues id
  if add then some { s with queues := update s.queues id { queue with boosted := queue.boosted + 1 } }
  else if queue.boosted = 0 then none
  else some { s with queues := update s.queues id { queue with boosted := queue.boosted - 1 } }

def boostAll (s : Scheduler) (add : Bool) : List ListId → Option Scheduler
  | [] => some s
  | id :: rest => (s.boostCountChange id add).bind fun s => boostAll s add rest

/-- The lists whose node of the task is queued, in the order `scheduler_pi_priority_locked` counts them. -/
def queuedLists (cpus : List Nat) (s : Scheduler) (t : Nat) : List ListId :=
  ((ListId.runqueue :: cpus.map ListId.eligible ++ [ListId.services]).filter fun id => (s.nodes id.slot t).queued) ++
    (s.tasks t).reservationCpu.toList.map ListId.reservations

def restoreReservation (s : Scheduler) (t : Nat) (reservation : Option Nat) (head : Bool) : Option Scheduler :=
  match reservation with
  | some cpu =>
    if (s.tasks t).priority ≠ 0 then
      (s.setTask t { s.tasks t with reservationCpu := some cpu }).enqueueTask (.reservations cpu) t head
    else some s
  | none => some s

/-- `scheduler_pi_priority_locked` when the effective priority changes. -/
def piMove (cpus : List Nat) (s : Scheduler) (t priority saved : Nat) (eligible : Eligibility) : Option Scheduler :=
  let queued := (s.nodes .ready t).queued
  let reservation := (s.tasks t).reservationCpu
  let head := decide (priority < (s.tasks t).priority)
  (if queued then s.readyRemove cpus t else some s).bind fun s =>
  (if reservation ≠ none then s.reservationRelease t else some s).bind fun s =>
  ((s.setTask t { s.tasks t with piBasePriority := saved, priority := priority }).restoreReservation t reservation head).bind fun s =>
  if queued then s.readyEnqueue cpus t head eligible else some s

def piPriority (cpus : List Nat) (s : Scheduler) (t base inherited : Nat) (eligible : Eligibility) : Option Scheduler :=
  if base > 99 ∨ inherited > 99 then none
  else
    let priority := max base inherited
    let saved := if priority > base then base + 1 else 0
    let task := s.tasks t
    if priority ≠ task.priority then s.piMove cpus t priority saved eligible
    else if saved = task.piBasePriority then some s
    else
      (if decide (saved ≠ 0) ≠ decide (task.piBasePriority ≠ 0) then
          s.boostAll (decide (saved ≠ 0)) (s.queuedLists cpus t) else some s).map fun s =>
        s.setTask t { s.tasks t with piBasePriority := saved }

/-- One step: `none` if its caller's condition fails, `some none` if it traps. -/
def step (cpus : List Nat) (s : Scheduler) : Step → Option (Option Scheduler)
  | .enqueue t head eligible =>
    if (s.nodes .ready t).queued then none else some (s.readyEnqueue cpus t head eligible)
  | .remove t => if (s.nodes .ready t).queued then some (s.readyRemove cpus t) else none
  | .reserve t cpu => some (s.reserveUser t cpu)
  | .unreserve t => some (s.reservationRelease t)
  | .piPriority t base inherited eligible =>
    if base > 99 ∨ inherited > 99 then none else some (s.piPriority cpus t base inherited eligible)

/-- The states of a scheduler over `cpus` whose tasks start with priorities up to 99. -/
inductive Reachable (cpus : List Nat) : Scheduler → Prop where
  | initial {priorities : Nat → Nat} : (∀ t, priorities t ≤ 99) → Reachable cpus (initial priorities)
  | step {s after : Scheduler} {step : Step} : Reachable cpus s → s.step cpus step = some (some after) →
      Reachable cpus after

end Scheduler
end BoarOS.RunQueue
