import BoarOS.Wait.Token

namespace BoarOS.Rwlock

/-! # Sleeping reader-writer locks (`kernel/sched/sync.c`)

A section under a lock's metadata lock is one step, with the guard stack of its task. Between two sections a waiter
parks, sleeps and finishes its token, and a hand-off pauses after sixteen grants. A waiter is named by its task.
`order` gives the rank and key that `kernel_rwlock_init` stored. -/

open Wait (WaitPhase kernelWaitGenerationMax)

def uint32Max : Nat := 2 ^ 32 - 1

structure Rank where
  rank : Fin (2 ^ 32)
  key : Fin (2 ^ 64)
deriving DecidableEq

def Rank.rejects (outer lock : Rank) : Bool :=
  outer.rank > lock.rank || (outer.rank == lock.rank && outer.key ≥ lock.key)

/-- The fields of `struct kernel_lock_waiter` that are fixed when it is queued. -/
structure Waiter where
  owner : Nat
  write : Bool
deriving DecidableEq

structure Handoff where
  start : List Waiter
  given : List Waiter
deriving DecidableEq

/-- `arrivals` and `grants` are all waiters that were queued and granted, in that order, `returns` the places in
`arrivals` of those whose acquire has returned, `handoffs` the complete hand-offs and `current` the one under way. -/
structure Lock where
  handoffOwner : Option Nat
  pending : List Waiter
  writer : Option Nat
  readers : Nat
  arrivals : List Waiter
  grants : List Waiter
  returns : List Nat
  handoffs : List Handoff
  current : Option Handoff
deriving DecidableEq

structure Guard where
  slot : Nat
  lock : Nat
  write : Bool
deriving DecidableEq

structure Record where
  generation : Nat
  phase : WaitPhase
deriving DecidableEq

/-- Where a waiter is in the loop of `acquire_waiter`, with the copy of its token. -/
inductive Stage where
  | parking (parked : Nat)
  | sleeping (parked : Nat)
  | finishing (parked : Nat)
  | reacquiring
deriving DecidableEq

inductive Phase where
  | running
  /-- `index` is the waiter's place in `arrivals`. -/
  | waiting (slot lock : Nat) (write : Bool) (index : Nat) (stage : Stage)
  | handoff (lock boundary : Nat)
deriving DecidableEq

/-- `locks` is the chain of guards from `owner->locks`; `granted` and `token` are those of the waiter. -/
structure Task where
  locks : List Guard
  phase : Phase
  granted : Bool
  token : Nat
  record : Record
deriving DecidableEq

structure System where
  locks : Nat → Lock
  tasks : Nat → Task
  waitGeneration : Nat

def System.initial : System :=
  { locks := fun _ => ⟨none, [], none, 0, [], [], [], [], none⟩
    tasks := fun _ => ⟨[], .running, false, 0, ⟨0, .finished⟩⟩
    waitGeneration := 0 }

inductive Step where
  | acquire (t slot l : Nat) (write tryOnly : Bool)
  | park (t : Nat)
  | resume (t : Nat)
  | finish (t : Nat)
  | recheck (t : Nat)
  /-- Anyone notifies a token of a task. -/
  | notify (t token : Nat)
  /-- Task `t` releases a guard in the storage of task `u`. -/
  | release (t u slot : Nat)
  | handoff (t : Nat)
  /-- A task outside this model prepares. -/
  | otherPrepare
deriving DecidableEq

namespace Record

def tokenMatches (record : Record) (token : Nat) : Bool :=
  token ≠ 0 && record.generation == token && record.phase ≠ .finished

/-- `kernel_wait_notify`, which never fails for the token of a task. -/
def notify (record : Record) (token : Nat) : Record :=
  if record.tokenMatches token && record.phase ≠ .notified then { record with phase := .notified } else record

end Record

namespace Lock

def busy (lock : Lock) (write : Bool) : Bool :=
  lock.writer ≠ none || lock.pending ≠ [] || lock.handoffOwner ≠ none || (write && lock.readers ≠ 0)

def take (lock : Lock) (t : Nat) (write : Bool) : Option Lock :=
  if write then some { lock with writer := some t }
  else if lock.readers = uint32Max then none
  else some { lock with readers := lock.readers + 1 }

def register (lock : Lock) (waiter : Waiter) : Lock :=
  { lock with pending := lock.pending ++ [waiter], arrivals := lock.arrivals ++ [waiter] }

def drop (lock : Lock) (t : Nat) (write : Bool) : Option Lock :=
  if write then
    if lock.writer ≠ some t ∨ lock.readers ≠ 0 then none else some { lock with writer := none }
  else
    if lock.writer ≠ none ∨ lock.readers = 0 then none else some { lock with readers := lock.readers - 1 }

def beginHandoff (lock : Lock) (t : Nat) : Lock :=
  { lock with handoffOwner := some t, current := some ⟨lock.pending, []⟩ }

def grant (lock : Lock) : Option (Waiter × Lock) :=
  match lock.pending with
  | [] => none
  | next :: rest =>
    let popped : Lock := { lock with
      pending := rest
      grants := lock.grants ++ [next]
      current := lock.current.map fun handoff => { handoff with given := handoff.given ++ [next] } }
    if next.write then
      if lock.readers ≠ 0 ∨ lock.writer ≠ none then none
      else some (next, { popped with writer := some next.owner })
    else if lock.readers = uint32Max then none
    else some (next, { popped with readers := lock.readers + 1 })

def endHandoff (lock : Lock) : Lock :=
  { lock with handoffOwner := none, handoffs := lock.handoffs ++ lock.current.toList, current := none }

def stops (lock : Lock) (boundary : Nat) (next : Waiter) : Bool :=
  next.write || next.owner == boundary || lock.pending.head?.any Waiter.write

def handsOff (lock : Lock) : Bool :=
  lock.writer = none && lock.readers = 0 && lock.handoffOwner = none && lock.pending ≠ []

def settle (lock : Lock) (index : Nat) : Lock :=
  { lock with returns := lock.returns ++ [index] }

end Lock

namespace System

def setLock (s : System) (l : Nat) (lock : Lock) : System :=
  { s with locks := Function.update s.locks l lock }

def setTask (s : System) (t : Nat) (task : Task) : System :=
  { s with tasks := Function.update s.tasks t task }

/-- `kernel_wait_prepare` for a waiter; no result is a trap, of its own or of the caller that sees it fail. -/
def prepare (s : System) (t : Nat) : Option System :=
  if (s.tasks t).record.phase ≠ .finished then none
  else if (s.tasks t).record.generation = kernelWaitGenerationMax ∨ s.waitGeneration = kernelWaitGenerationMax then none
  else
    let generation := s.waitGeneration + 1
    some { s.setTask t { s.tasks t with token := generation, record := ⟨generation, .prepared⟩ } with
      waitGeneration := generation }

def push (s : System) (t : Nat) (guard : Guard) : System :=
  s.setTask t { s.tasks t with locks := guard :: (s.tasks t).locks, phase := .running }

def registerWaiter (s : System) (t slot l : Nat) (write : Bool) : Option System :=
  (s.prepare t).map fun prepared =>
    (prepared.setLock l ((s.locks l).register ⟨t, write⟩)).setTask t { prepared.tasks t with
      granted := false
      phase := .waiting slot l write (s.locks l).arrivals.length (.parking (prepared.tasks t).token) }

/-- `acquire`; no result is a trap. -/
def acquire (order : Nat → Rank) (s : System) (t slot l : Nat) (write tryOnly : Bool) : Option System :=
  let held := (s.tasks t).locks
  if held.any fun guard => guard.slot = slot then none
  else if held.head?.any fun outer => (order outer.lock).rejects (order l) then none
  else if (s.locks l).busy write then
    if tryOnly then some s else s.registerWaiter t slot l write
  else ((s.locks l).take t write).map fun taken => (s.setLock l taken).push t ⟨slot, l, write⟩

def wake (s : System) (t : Nat) : System :=
  s.setTask t { s.tasks t with granted := true, record := (s.tasks t).record.notify (s.tasks t).token }

def segment (t l boundary : Nat) : Nat → System → Option System
  | 0, s => some s
  | count + 1, s =>
    match (s.locks l).grant with
    | none => none
    | some (next, lock) =>
      let granted := (s.setLock l lock).wake next.owner
      if lock.stops boundary next then
        some ((granted.setLock l lock.endHandoff).setTask t { granted.tasks t with phase := .running })
      else segment t l boundary count granted

/-- `kernel_lock_release` with its first hand-off segment; no result is a trap. -/
def release (s : System) (t u slot : Nat) : Option System :=
  match (s.tasks t).locks with
  | [] => none
  | guard :: previous =>
    if u ≠ t ∨ guard.slot ≠ slot then none
    else match (s.locks guard.lock).drop t guard.write with
      | none => none
      | some dropped =>
        let popped := s.setTask t { s.tasks t with locks := previous }
        match dropped.pending.getLast? with
        | some boundary =>
          if dropped.handsOff then
            segment t guard.lock boundary.owner 16 ((popped.setLock guard.lock (dropped.beginHandoff t)).setTask t
                { popped.tasks t with phase := .handoff guard.lock boundary.owner })
          else some (popped.setLock guard.lock dropped)
        | none => some (popped.setLock guard.lock dropped)

/-- One step: `none` if it does not apply, `some none` if it traps. -/
def step (order : Nat → Rank) (s : System) : Step → Option (Option System)
  | .acquire t slot l write tryOnly =>
    if (s.tasks t).phase = .running then some (s.acquire order t slot l write tryOnly) else none
  | .park t =>
    match (s.tasks t).phase with
    | .waiting slot l write index (.parking parked) =>
      let task := s.tasks t
      if task.record.tokenMatches parked = false then some none
      else match task.record.phase with
        | .notified =>
          some (some (s.setTask t { task with phase := .waiting slot l write index (.finishing parked) }))
        | .prepared =>
          some (some (s.setTask t { task with
            record := { task.record with phase := .committed }
            phase := .waiting slot l write index (.sleeping parked) }))
        | _ => some none
    | _ => none
  | .resume t =>
    match (s.tasks t).phase with
    | .waiting slot l write index (.sleeping parked) =>
      if (s.tasks t).record.phase = .notified then
        some (some (s.setTask t { s.tasks t with phase := .waiting slot l write index (.finishing parked) }))
      else none
    | _ => none
  | .finish t =>
    match (s.tasks t).phase with
    | .waiting slot l write index (.finishing parked) =>
      let task := s.tasks t
      if task.record.tokenMatches parked = false ∨ task.record.phase = .committed then some none
      else some (some (s.setTask t { task with
        record := { task.record with phase := .finished }
        phase := .waiting slot l write index .reacquiring }))
    | _ => none
  | .recheck t =>
    match (s.tasks t).phase with
    | .waiting slot l write index .reacquiring =>
      if (s.tasks t).granted then
        if (s.locks l).pending.head?.map Waiter.owner = some t ∨
            (s.locks l).pending.getLast?.map Waiter.owner = some t then some none
        else some (some ((s.setLock l ((s.locks l).settle index)).push t ⟨slot, l, write⟩))
      else some ((s.prepare t).map fun prepared => prepared.setTask t { prepared.tasks t with
        phase := .waiting slot l write index (.parking (prepared.tasks t).token) })
    | _ => none
  | .notify t token =>
    some (some (s.setTask t { s.tasks t with record := (s.tasks t).record.notify token }))
  | .release t u slot =>
    if (s.tasks t).phase = .running then some (s.release t u slot) else none
  | .handoff t =>
    match (s.tasks t).phase with
    | .handoff l boundary =>
      if (s.locks l).handoffOwner ≠ some t then some none else some (segment t l boundary 16 s)
    | _ => none
  | .otherPrepare =>
    if s.waitGeneration = kernelWaitGenerationMax then none
    else some (some { s with waitGeneration := s.waitGeneration + 1 })

end System

def Step.task : Step → Nat
  | .acquire t .. | .park t | .resume t | .finish t | .recheck t | .notify t _ | .release t .. | .handoff t => t
  | .otherPrepare => 0

namespace System

/-- The states that tasks below `limit` reach without a trap. -/
inductive Reachable (order : Nat → Rank) (limit : Nat) : System → Prop where
  | initial : Reachable order limit System.initial
  | step {s after : System} {step : Step} : Reachable order limit s → step.task < limit →
      s.step order step = some (some after) → Reachable order limit after

def run (order : Nat → Rank) (s : System) : List Step → Option (Option System)
  | [] => some (some s)
  | step :: rest => match s.step order step with
    | some (some after) => run order after rest
    | other => other

theorem run_reachable (reach : Reachable order lim s) (lt : ∀ step ∈ steps, step.task < lim)
    (runs : s.run order steps = some (some s')) : Reachable order lim s' := by
  induction steps generalizing s with
  | nil =>
    cases runs
    exact reach
  | cons step rest ih =>
    unfold run at runs
    split at runs
    next next ok =>
      exact ih (.step reach (lt step List.mem_cons_self) ok) (fun k mem => lt k (List.mem_cons_of_mem _ mem)) runs
    · exact absurd runs (by
        rename_i stuck
        exact stuck s')

end System
end BoarOS.Rwlock
