import BoarOS.Sem.Vector

namespace BoarOS.Sem
open Function (update)

/-! # The semaphore system

Tasks run `kernel_sem_op`, `kernel_sem_ctl`, `kernel_sem_clone` and `kernel_sem_exit`
section by section. A parked task may be woken at any time, since timeouts and signals
are not in its hands. The trace records what the accounting of `SEM_UNDO` is about.
-/

/-- A `struct sem_undo_entry`; `linked` is `entry->set != 0`. -/
structure UndoEntry where
  group : Nat
  set : Nat
  linked : Bool
deriving DecidableEq

structure UndoGroup where
  owners : Nat
  entries : List Nat
deriving DecidableEq

inductive Phase where
  | unborn
  | idle
  /-- Before the first search of `request_undo`. -/
  | finding (set : Nat) (request : Request)
  /-- With a candidate entry, before the second search. -/
  | inserting (set : Nat) (request : Request)
  | trying (set : Nat) (request : Request)
  | parked (set : Nat)
  /-- Between the two sections of `set_remove`. -/
  | removing (set : Nat)
  /-- `task->sem_undo` is taken and `owners` not yet decremented. -/
  | leaving (group : Nat)
  | draining (group : Nat)
  | detaching (group entry : Nat)
  | dead
deriving DecidableEq

structure Task where
  undo : Option Nat
  phase : Phase
deriving DecidableEq

inductive Event where
  | completed (group : Option Nat) (set : Nat) (ops : List Sembuf)
  | setVal (set num : Nat)
  | setAll (set : Nat)
  | applied (group set : Nat)
deriving DecidableEq

structure System where
  sets : Nat → Option SemSet
  entries : Nat → Option UndoEntry
  adjustments : Adjustments
  groups : Nat → Option UndoGroup
  tasks : Nat → Task
  results : Nat → Int
  trace : List Event

def System.initial : System :=
  { sets := fun _ => none, entries := fun _ => none, adjustments := fun _ _ => 0, groups := fun _ => none
    tasks := fun task => ⟨none, if task = 0 then .idle else .unborn⟩, results := fun _ => 0, trace := [] }

namespace System

def setPhase (s : System) (task : Nat) (phase : Phase) : System :=
  { s with tasks := update s.tasks task { s.tasks task with phase := phase } }

def putSet (s : System) (id : Nat) (set : SemSet) : System :=
  { s with sets := update s.sets id (some set) }

def events (s : System) (id : Nat) (wake : List (Request × Int)) : List Event :=
  (wake.filter fun completion => completion.2 = 0).map fun completion =>
    .completed (s.tasks completion.1.task).undo id completion.1.ops

def publish (results : Nat → Int) (wake : List (Request × Int)) : Nat → Int :=
  wake.foldr (fun completion results => update results completion.1.task completion.2) results

def commit (s : System) (id : Nat) (update : Update) : System :=
  { s with
    sets := Function.update s.sets id (some update.set), adjustments := update.adjustments
    results := publish s.results update.wake, trace := s.events id update.wake ++ s.trace }

def undoFind (s : System) (group : UndoGroup) (id : Nat) : Option Nat :=
  group.entries.find? fun entry => (s.entries entry).any fun record => record.linked && record.set == id

def undoUnlink (s : System) (entry : Nat) (record : UndoEntry) : System :=
  { s with
    entries := update s.entries entry (some { record with linked := false })
    groups := update s.groups record.group ((s.groups record.group).map fun group =>
      { group with entries := group.entries.filter (· ≠ entry) })
    sets := update s.sets record.set ((s.sets record.set).map fun set =>
      { set with undo := set.undo.filter (· ≠ entry) }) }

/-- One round of the loop over `set->undo` in `set_remove`. -/
def unlinkEntry (s : System) (entry : Nat) : System :=
  match s.entries entry with
  | some record => s.undoUnlink entry record
  | none => s

/-- The section of `kernel_sem_op` that holds the lock of the set. -/
def attempt (s : System) (task id : Nat) (request : Request) (set : SemSet) (permitted expired : Bool) (now : Int) : Option System :=
  if set.removed then some { s.setPhase task .idle with results := update s.results task (-kernelEIDRM) }
  else if !permitted then some (s.setPhase task .idle)
  else
    let tried := requestTry now request set (request.adjustment s.adjustments)
    let adjustments := request.store s.adjustments tried.adjustment
    if tried.result = 0 then
      let done := s.setPhase task .idle
      if request.alter then
        (setUpdate now tried.set adjustments [(request, 0)]).map (done.commit id)
      else some (done.commit id ⟨tried.set, adjustments, [(request, 0)]⟩)
    else if tried.result = 1 ∧ expired = false then
      some { (s.setPhase task (.parked id)).putSet id
          { tried.set with queue := tried.set.queue ++ [{ request with blocking := tried.blocking }] } with
        adjustments := adjustments, results := update s.results task 1 }
    else some { (s.setPhase task .idle).putSet id tried.set with
      adjustments := adjustments
      results := update s.results task (if tried.result = 1 then -kernelEAGAIN else tried.result) }

def dequeue (s : System) (task id : Nat) (set : SemSet) : System :=
  s.putSet id { set with queue := set.queue.filter fun request => request.task ≠ task }

/-- `clear_adjustments` for one member or for all. -/
def clearAdjustments (set : SemSet) (adjustments : Adjustments) (num : Option Nat) : Adjustments := fun entry i =>
  if entry ∈ set.undo ∧ num.all (· = i) then 0 else adjustments entry i

def undone (set : SemSet) (adjustment : Nat → Int) (pid : Nat) (now : Int) : SemSet :=
  { set with
    value := fun i =>
      if i < set.nsems ∧ adjustment i ≠ 0 then
        let value := set.value i + adjustment i
        if value < 0 then 0 else if value > kernelSEMVMX then kernelSEMVMX else value
      else set.value i
    pid := fun i => if i < set.nsems ∧ adjustment i ≠ 0 then some pid else set.pid i
    otime := now }

/-- The section of `kernel_sem_exit` that holds the locks of a set and of the group. -/
def detach (s : System) (task group entry : Nat) (record : UndoEntry) (pid : Nat) (now : Int) : Option System :=
  let free := s.setPhase task (.draining group)
  if record.linked = false then some free
  else
    let unlinked := free.undoUnlink entry record
    match unlinked.sets record.set with
    | none => none
    | some set =>
      if set.removed then some unlinked
      else (setUpdate now (undone set (s.adjustments entry) pid now) s.adjustments []).map fun update =>
        { unlinked.commit record.set update with
          trace := unlinked.events record.set update.wake ++ .applied group record.set :: s.trace }

end System

inductive Step where
  | create (set nsems : Nat)
  | clone (parent child : Nat) (shared : Bool)
  | openGroup (task group : Nat)
  | start (task set : Nat) (ops : List Sembuf) (pid : Nat)
  | find (task : Nat) (allocated : Bool)
  | insert (task entry : Nat)
  | attempt (task : Nat) (permitted expired : Bool) (now : Int)
  | resume (task : Nat) (timeout : Bool)
  | abort (task : Nat)
  | setVal (set num : Nat) (value : Int) (pid : Nat) (now : Int)
  | setAll (set : Nat) (values : Nat → UInt16) (pid : Nat) (now : Int)
  | remove (task set : Nat)
  | drain (task : Nat)
  | exit (task : Nat)
  | leave (task : Nat)
  | pick (task : Nat)
  | detach (task pid : Nat) (now : Int)

namespace System

def step (s : System) : Step → Option System
  | .create id nsems =>
    match s.sets id with
    | some _ => none
    | none => some (s.putSet id
        { nsems := nsems, value := fun _ => 0, pid := fun _ => none, otime := 0, ctime := 0, removed := false
          undo := [], queue := [] })
  | .clone parent child shared =>
    if (s.tasks parent).phase ≠ .idle ∨ (s.tasks child).phase ≠ .unborn then none
    else if shared = false then some { s with tasks := Function.update s.tasks child ⟨none, .idle⟩ }
    else match (s.tasks parent).undo with
      | none => none
      | some id => match s.groups id with
        | none => none
        | some group =>
          if group.owners = 0 then none
          else some { s with
            groups := Function.update s.groups id (some { group with owners := group.owners + 1 })
            tasks := Function.update s.tasks child ⟨some id, .idle⟩ }
  | .openGroup task id =>
    match s.groups id, (s.tasks task).undo, (s.tasks task).phase with
    | none, none, .idle => some { s with
        groups := Function.update s.groups id (some ⟨1, []⟩)
        tasks := Function.update s.tasks task ⟨some id, .idle⟩ }
    | none, none, .finding set request => some { s with
        groups := Function.update s.groups id (some ⟨1, []⟩)
        tasks := Function.update s.tasks task ⟨some id, .finding set request⟩ }
    | _, _, _ => none
  | .start task id ops pid =>
    match s.sets id with
    | none => none
    | some set =>
      if (s.tasks task).phase = .idle ∧ ∀ op ∈ ops, op.num < set.nsems then
        let request : Request := ⟨task, pid, ops, ops.any (·.amount ≠ 0), none, 0⟩
        some (s.setPhase task (if ops.any Sembuf.undoes then .finding id request else .trying id request))
      else none
  | .find task allocated =>
    match (s.tasks task).phase, (s.tasks task).undo with
    | .finding id request, some groupId => match s.groups groupId with
      | none => none
      | some group => match s.undoFind group id with
        | some entry => some (s.setPhase task (.trying id { request with undo := some entry }))
        | none => some (s.setPhase task (if allocated then .inserting id request else .idle))
    | _, _ => none
  | .insert task entry =>
    match (s.tasks task).phase, (s.tasks task).undo with
    | .inserting id request, some groupId => match s.groups groupId, s.sets id, s.entries entry with
      | some group, some set, none =>
        if set.removed then some (s.setPhase task .idle)
        else match s.undoFind group id with
          | some found => some (s.setPhase task (.trying id { request with undo := some found }))
          | none =>
            let linked : System := { s with
              entries := Function.update s.entries entry (some ⟨groupId, id, true⟩)
              adjustments := Function.update s.adjustments entry fun _ => 0
              groups := Function.update s.groups groupId (some { group with entries := entry :: group.entries })
              sets := Function.update s.sets id (some { set with undo := entry :: set.undo }) }
            some (linked.setPhase task (.trying id { request with undo := some entry }))
      | _, _, _ => none
    | _, _ => none
  | .attempt task permitted expired now =>
    match (s.tasks task).phase with
    | .trying id request => match s.sets id with
      | none => none
      | some set => s.attempt task id request set permitted expired now
    | _ => none
  | .resume task timeout =>
    match (s.tasks task).phase with
    | .parked id => match s.sets id with
      | none => none
      | some set =>
        let result := if set.queue.any (·.task = task) then (if timeout then -kernelEAGAIN else -kernelEINTR)
          else s.results task
        some { (s.dequeue task id set).setPhase task .idle with results := Function.update s.results task result }
    | _ => none
  | .abort task =>
    match (s.tasks task).phase with
    | .parked id => match s.sets id with
      | none => none
      | some set => some ((s.dequeue task id set).setPhase task .idle)
    | .finding _ _ | .inserting _ _ | .trying _ _ => some (s.setPhase task .idle)
    | _ => none
  | .setVal id num value pid now =>
    match s.sets id with
    | none => none
    | some set =>
      if set.removed ∨ value < 0 ∨ value > kernelSEMVMX ∨ set.nsems ≤ num then none
      else
        let changed := { set with
          value := Function.update set.value num value, pid := Function.update set.pid num (some pid), ctime := now }
        (setUpdate now changed (clearAdjustments set s.adjustments (some num)) []).map fun update =>
          { s.commit id update with trace := s.events id update.wake ++ .setVal id num :: s.trace }
  | .setAll id values pid now =>
    match s.sets id with
    | none => none
    | some set =>
      if set.removed ∨ ∃ i < set.nsems, ((values i).toNat : Int) > kernelSEMVMX then none
      else
        let changed := { set with
          value := fun i => if i < set.nsems then (values i).toNat else set.value i
          pid := fun i => if i < set.nsems then some pid else set.pid i, ctime := now }
        (setUpdate now changed (clearAdjustments set s.adjustments none) []).map fun update =>
          { s.commit id update with trace := s.events id update.wake ++ .setAll id :: s.trace }
  | .remove task id =>
    match s.sets id with
    | none => none
    | some set =>
      if set.removed = true ∨ (s.tasks task).phase ≠ .idle then none
      else some ((s.putSet id { set with removed := true }).setPhase task (.removing id))
  | .drain task =>
    match (s.tasks task).phase with
    | .removing id => match s.sets id with
      | none => none
      | some set =>
        let emptied : System := { (s.putSet id { set with queue := [] }).setPhase task .idle with
          results := publish s.results (set.queue.map fun request => (request, -kernelEIDRM)) }
        some (set.undo.foldl unlinkEntry emptied)
    | _ => none
  | .exit task =>
    match (s.tasks task).phase, (s.tasks task).undo with
    | .idle, some group => some { s with tasks := Function.update s.tasks task ⟨none, .leaving group⟩ }
    | .idle, none => some (s.setPhase task .dead)
    | _, _ => none
  | .leave task =>
    match (s.tasks task).phase with
    | .leaving id => match s.groups id with
      | none => none
      | some group =>
        if group.owners = 0 then none
        else some { s with
          groups := Function.update s.groups id (some { group with owners := group.owners - 1 })
          tasks := Function.update s.tasks task
            { s.tasks task with phase := if group.owners = 1 then .draining id else .dead } }
    | _ => none
  | .pick task =>
    match (s.tasks task).phase with
    | .draining id => match s.groups id with
      | none => none
      | some group => match group.entries with
        | [] => some (s.setPhase task .dead)
        | entry :: _ => some (s.setPhase task (.detaching id entry))
    | _ => none
  | .detach task pid now =>
    match (s.tasks task).phase with
    | .detaching group entry => match s.entries entry with
      | none => none
      | some record => s.detach task group entry record pid now
    | _ => none

inductive Reachable : System → Prop where
  | initial : Reachable System.initial
  | step {s after : System} {step : Step} : Reachable s → s.step step = some after → Reachable after

end System
end BoarOS.Sem
