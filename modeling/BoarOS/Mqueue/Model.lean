import BoarOS.Data.KeyIndex
import BoarOS.Data.PriorityFifo

namespace BoarOS.Mqueue
open Function (update)
open Data

/-! # POSIX message queues (`kernel/mqueue.c`)

One queue and any number of tasks, each with at most one request. A section under the
queue's lock is one step. The buckets of the tree are nodes with a key and an identity;
`buckets` has their messages. Messages have a name, which the code does not read.
-/

def mqPrioMax : Nat := 32768

structure Message where
  name : Nat
  priority : Nat
  size : Nat
deriving DecidableEq

inductive Result where
  | ok
  | pending
  | eagain
  | etimedout
  | erestartsys
  | enomem
deriving DecidableEq

inductive WaitReason where
  | woken
  | timeout
  | signalled
deriving DecidableEq

inductive Phase where
  | idle
  | sending
  /-- Between two sections of `kernel_mqueue_send`, without a spare bucket. -/
  | allocating
  | receiving
  | parked
  /-- A receiver that has its message and copies it out. -/
  | copying
  | done (result : Result)
deriving DecidableEq

/-- `struct kernel_mqueue_request`; `queued` is membership in a list of the queue. -/
structure Request where
  phase : Phase
  sends : Bool
  message : Option Message
  priority : Option KeyNode
  waitPriority : Nat
  result : Result
deriving DecidableEq

def Request.blank : Request :=
  { phase := .idle, sends := false, message := none, priority := none, waitPriority := 0, result := .ok }

inductive Fate where
  | unborn
  | outgoing (task : Nat)
  | stored
  | held (task : Nat)
  | delivered
  | faulted
  | aborted
  | rejected
deriving DecidableEq

structure System where
  maxmsg : Nat
  msgsize : Nat
  priorities : KeyIndex
  buckets : Nat → List Message
  count : Nat
  bytes : Nat
  senders : List Nat
  receivers : List Nat
  requests : Nat → Request
  nextBucket : Nat
  nextName : Nat
  fate : Nat → Fate
  /-- The acceptances and takes, newest first. -/
  log : List (QueueEvent Message)

def System.initial (maxmsg msgsize : Nat) : System :=
  { maxmsg := maxmsg, msgsize := msgsize, priorities := .nil, buckets := fun _ => [], count := 0, bytes := 0
    senders := [], receivers := [], requests := fun _ => .blank, nextBucket := 0, nextName := 0
    fate := fun _ => .unborn, log := [] }

namespace System
variable (s : System)

def setRequest (t : Nat) (r : Request) : System := { s with requests := update s.requests t r }
def setFate (m : Message) (fate : Fate) : System := { s with fate := update s.fate m.name fate }
def requestRemove (t : Nat) : System := { s with senders := s.senders.erase t, receivers := s.receivers.erase t }
def requestComplete (t : Nat) : System := (s.requestRemove t).setRequest t { s.requests t with result := .ok }

/-- The list with `t` before the first waiter of a lower priority. -/
def insertWaiter (t priority : Nat) : List Nat → List Nat
  | [] => [t]
  | next :: rest =>
    if (s.requests next).waitPriority ≥ priority then next :: insertWaiter t priority rest else t :: next :: rest

/-- `request_prepare`, with what the clock and the signals say. -/
def requestPrepare (t : Nat) (expired signalled : Bool) (waitPriority : Nat) : System :=
  let r := s.requests t
  if expired then s.setRequest t { r with phase := .done .etimedout }
  else if signalled then s.setRequest t { r with phase := .done .erestartsys }
  else
    let queued : System := s.setRequest t { r with
      phase := .parked, waitPriority := waitPriority, result := .pending }
    if r.sends then { queued with senders := s.insertWaiter t waitPriority s.senders }
    else { queued with receivers := s.insertWaiter t waitPriority s.receivers }

def append (t : Nat) (r : Request) (m : Message) (p : KeyNode) : System :=
  { s with
    buckets := update s.buckets p.owner (s.buckets p.owner ++ [m])
    count := s.count + 1, bytes := s.bytes + m.size
    requests := update s.requests t { r with message := none }
    fate := update s.fate m.name .stored
    log := .accepted m :: s.log }

/-- `message_enqueue`; no result is its trap. -/
def messageEnqueue (t : Nat) : Option System :=
  let r := s.requests t
  match r.message with
  | none => none
  | some m => match s.priorities.find m.priority with
    | some p => some (s.append t r m p)
    | none => match r.priority with
      | none => none
      | some p => some ({ s with priorities := s.priorities.insertNode p }.append t { r with priority := none } m p)

/-- `message_dequeue`; no result is its trap. -/
def messageDequeue (t : Nat) : Option System :=
  match s.priorities.last with
  | none => none
  | some p => match s.buckets p.owner with
    | [] => none
    | m :: rest =>
      let taken (priorities : KeyIndex) (priority : Option KeyNode) : System := { s with
        priorities := priorities
        buckets := update s.buckets p.owner rest
        count := s.count - 1, bytes := s.bytes - m.size
        requests := update s.requests t { s.requests t with message := some m, priority := priority }
        fate := update s.fate m.name (.held t)
        log := .taken m :: s.log }
      if rest = [] then (s.priorities.removeNode p).map fun priorities => taken priorities (some p)
      else some (taken s.priorities (s.requests t).priority)

def handOff (t receiver : Nat) (m : Message) : System :=
  let given : System := { s with
    requests := update (update s.requests t { s.requests t with message := none }) receiver
      { s.requests receiver with message := some m }
    fate := update s.fate m.name (.held receiver)
    log := .taken m :: .accepted m :: s.log }
  given.requestComplete receiver

def messagePublish (t : Nat) : Option System :=
  match s.receivers with
  | receiver :: _ => match (s.requests t).message with
    | none => none
    | some m => some (s.handOff t receiver m)
  | [] => s.messageEnqueue t

def setPhase (t : Nat) (phase : Phase) : System := s.setRequest t { s.requests t with phase := phase }

def sendTry (t : Nat) (nonblock expired signalled : Bool) (waitPriority : Nat) : Option System :=
  let r := s.requests t
  match r.message with
  | none => none
  | some m =>
    if s.count < s.maxmsg then
      if s.receivers = [] ∧ r.priority = none ∧ s.priorities.find m.priority = none then some (s.setPhase t .allocating)
      else (s.messagePublish t).map fun after => after.setPhase t (.done .ok)
    else if nonblock then some (s.setPhase t (.done .eagain))
    else if r.priority = none then some (s.setPhase t .allocating)
    else some (s.requestPrepare t expired signalled waitPriority)

def receiveTry (t : Nat) (nonblock expired signalled : Bool) (waitPriority : Nat) : Option System :=
  if s.count ≠ 0 then
    (s.messageDequeue t).bind fun taken =>
      match taken.senders with
      | sender :: _ => (taken.messageEnqueue sender).map fun after => (after.requestComplete sender).setPhase t .copying
      | [] => some (taken.setPhase t .copying)
  else if nonblock then some (s.setPhase t (.done .eagain))
  else some (s.requestPrepare t expired signalled waitPriority)

/-- The result that the section of `request_wait` after the park reads or sets. -/
def waitResult (t : Nat) (reason : WaitReason) : Result :=
  if t ∈ s.senders ∨ t ∈ s.receivers then if reason = .timeout then .etimedout else .erestartsys
  else (s.requests t).result

def requestWait (t : Nat) (reason : WaitReason) : System :=
  let result := s.waitResult t reason
  (s.requestRemove t).setPhase t (if (s.requests t).sends = false ∧ result = .ok then .copying else .done result)

/-- The request is released; what a sender still has was never accepted. -/
def requestRelease (t : Nat) (fate : Fate) : System :=
  match (s.requests t).message with
  | none => s.setRequest t .blank
  | some m => (s.setFate m fate).setRequest t .blank

end System

inductive Step where
  | send (t priority size : Nat)
  | sendTry (t : Nat) (nonblock expired signalled : Bool) (waitPriority : Nat)
  | allocate (t : Nat) (succeeds : Bool)
  | receive (t size : Nat)
  | receiveTry (t : Nat) (nonblock expired signalled : Bool) (waitPriority : Nat)
  | wait (t : Nat) (reason : WaitReason)
  /-- A receiver copies its message out, which may fault, and finishes. -/
  | copy (t : Nat) (faults : Bool)
  | finish (t : Nat)
  | abort (t : Nat)
deriving DecidableEq

/-- One step: `none` if it does not apply, `some none` if it traps. -/
def System.step (s : System) : Step → Option (Option System)
  | .send t priority size =>
    if (s.requests t).phase ≠ .idle ∨ priority ≥ mqPrioMax ∨ size > s.msgsize then none
    else
      let m : Message := ⟨s.nextName, priority, size⟩
      let named : System := { s.setFate m (.outgoing t) with nextName := s.nextName + 1 }
      some (some (named.setRequest t { Request.blank with phase := .sending, sends := true, message := some m }))
  | .sendTry t nonblock expired signalled waitPriority =>
    if (s.requests t).phase ≠ .sending then none else some (s.sendTry t nonblock expired signalled waitPriority)
  | .allocate t succeeds =>
    let r := s.requests t
    match r.phase, r.message with
    | .allocating, some m =>
      if succeeds then
        let next : System := { s with
          nextBucket := s.nextBucket + 1, buckets := update s.buckets s.nextBucket [] }
        some (some (next.setRequest t { r with phase := .sending, priority := some ⟨m.priority, s.nextBucket⟩ }))
      else some (some (s.setPhase t (.done .enomem)))
    | _, _ => none
  | .receive t size =>
    if (s.requests t).phase ≠ .idle ∨ size < s.msgsize then none
    else some (some (s.setRequest t { Request.blank with phase := .receiving }))
  | .receiveTry t nonblock expired signalled waitPriority =>
    if (s.requests t).phase ≠ .receiving then none else some (s.receiveTry t nonblock expired signalled waitPriority)
  | .wait t reason =>
    if (s.requests t).phase ≠ .parked then none else some (some (s.requestWait t reason))
  | .copy t faults =>
    if (s.requests t).phase ≠ .copying then none
    else if t ∈ s.senders ∨ t ∈ s.receivers then some none
    else some (some (s.requestRelease t (if faults then .faulted else .delivered)))
  | .finish t =>
    match (s.requests t).phase with
    | .done _ =>
      if t ∈ s.senders ∨ t ∈ s.receivers then some none else some (some (s.requestRelease t .rejected))
    | _ => none
  | .abort t =>
    if (s.requests t).phase = .idle then none
    else some (some ((s.requestRemove t).requestRelease t (if (s.requests t).sends then .rejected else .aborted)))

inductive System.Reachable (maxmsg msgsize : Nat) : System → Prop where
  | initial : Reachable maxmsg msgsize (System.initial maxmsg msgsize)
  | step {s after : System} {step : Step} : Reachable maxmsg msgsize s → s.step step = some (some after) →
      Reachable maxmsg msgsize after

end BoarOS.Mqueue
