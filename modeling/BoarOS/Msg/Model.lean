import Mathlib.Algebra.Ring.Nat
import Mathlib.Algebra.Ring.Int.Defs
import BoarOS.Data.Custody

namespace BoarOS.Msg
open Function (update)
open Data

/-! # System V message queues (`kernel/msg.c`)

Any number of queues and of tasks, each task with at most one request. A section under a
queue's lock is one step. Messages have a name, which the code does not read; `place` says
where the message of each name is.
-/

def kernelMsgmax : Nat := 8192
def kernelMsgmnb : Nat := 16384
def int64Min : Int := -2 ^ 63
def int64Max : Int := 2 ^ 63 - 1

structure Message where
  name : Nat
  type : Int
  size : Nat
deriving DecidableEq

structure Flags where
  nowait : Bool
  noerror : Bool
  except : Bool
  copy : Bool
deriving DecidableEq

/-- The results of a request; `again` is 1. -/
inductive Result where
  | ok
  | again
  | eidrm
  | eintr
  | e2big
  | eagain
  | enomsg
  | einval
  | eacces
deriving DecidableEq

inductive Phase where
  | idle
  /-- Before a section of the loop of `kernel_msg_send` or `kernel_msg_receive`. -/
  | trying
  | parked
  /-- A receiver that copies its message out. -/
  | copying
  | done (result : Result)
deriving DecidableEq

/-- `struct kernel_msg_request`; `queued` is membership in a list of the queue, and `copied` is the reference that
`MSG_COPY` takes to a message of the queue. -/
structure Request where
  phase : Phase
  sends : Bool
  queue : Nat
  message : Option Message
  copied : Option Message
  type : Int
  flags : Flags
  size : Nat
  result : Result
deriving DecidableEq

def Request.blank : Request :=
  { phase := .idle, sends := false, queue := 0, message := none, copied := none, type := 0
    flags := ⟨false, false, false, false⟩, size := 0, result := .ok }

def Request.party (r : Request) : Party Message := ⟨r.sends, r.message⟩

structure Queue where
  removed : Bool
  limit : Nat
  count : Nat
  bytes : Nat
  messages : List Message
  senders : List Nat
  receivers : List Nat

def Queue.new : Queue :=
  { removed := false, limit := kernelMsgmnb, count := 0, bytes := 0, messages := [], senders := [], receivers := [] }

/-- How a message left: with a receive that finished, by `IPC_RMID`, with a receiver that died, or never accepted. -/
inductive Gone where
  | received
  | discarded
  | died
  | rejected
deriving DecidableEq

structure System where
  queues : Nat → Queue
  nextQueue : Nat
  requests : Nat → Request
  /-- `msg_table.messages` and `msg_table.bytes`. -/
  messages : Nat
  bytes : Nat
  nextName : Nat
  place : Nat → Place Gone

def System.initial : System :=
  { queues := fun _ => .new, nextQueue := 0, requests := fun _ => .blank, messages := 0, bytes := 0, nextName := 0
    place := fun _ => .unborn }

def messageMatches (m : Message) (type : Int) (flags : Flags) : Bool :=
  if type = 0 then true
  else if type < 0 then decide (m.type ≤ if type = int64Min then int64Max else -type)
  else if flags.except then decide (m.type ≠ type) else decide (m.type = type)

def messageFind (type : Int) (flags : Flags) : List Message → Option Message → Nat → Option Message
  | [], best, _ => best
  | m :: rest, best, index =>
    if flags.copy then
      if type ≥ 0 ∧ index = type.toNat then some m else messageFind type flags rest best (index + 1)
    else if messageMatches m type flags = false then messageFind type flags rest best index
    else if type ≥ 0 ∨ m.type = 1 then some m
    else match best with
      | none => messageFind type flags rest (some m) index
      | some least =>
        if m.type < least.type then messageFind type flags rest (some m) index
        else messageFind type flags rest best index

def fits (q : Queue) (size : Nat) : Bool := q.bytes ≤ q.limit && size ≤ q.limit - q.bytes && q.count < q.limit

namespace System
variable (s : System)

def setRequest (t : Nat) (r : Request) : System := { s with requests := update s.requests t r }
def setPhase (t : Nat) (phase : Phase) : System := s.setRequest t { s.requests t with phase := phase }
def setQueue (q : Nat) (queue : Queue) : System := { s with queues := update s.queues q queue }
def queueOf (t : Nat) : Queue := s.queues (s.requests t).queue

def requestRemove (t : Nat) : System :=
  s.setQueue (s.requests t).queue { s.queueOf t with
    senders := (s.queueOf t).senders.erase t, receivers := (s.queueOf t).receivers.erase t }

def requestComplete (t : Nat) (result : Result) : System :=
  (s.requestRemove t).setRequest t { s.requests t with result := result }

def completeAll (result : Result) : List Nat → System → System
  | [], s => s
  | t :: rest, s => completeAll result rest (s.requestComplete t result)

def wakeSenders (q : Nat) : List Nat → System → System
  | [], s => s
  | t :: rest, s =>
    wakeSenders q rest (if fits (s.queues q) (s.requests t).size then s.requestComplete t .again else s)

def requestPrepare (t : Nat) : System :=
  let queue := s.queueOf t
  let joined := if (s.requests t).sends then { queue with senders := queue.senders ++ [t] }
    else { queue with receivers := queue.receivers ++ [t] }
  (s.setQueue (s.requests t).queue joined).setRequest t { s.requests t with phase := .parked, result := .again }

def messageEnqueue (t : Nat) (m : Message) : System :=
  let queue := s.queueOf t
  { s with
    queues := update s.queues (s.requests t).queue { queue with
      messages := queue.messages ++ [m], count := queue.count + 1, bytes := queue.bytes + m.size }
    messages := s.messages + 1, bytes := s.bytes + m.size
    requests := update s.requests t { s.requests t with message := none, phase := .done .ok }
    place := update s.place m.name (.stored (s.requests t).queue) }

def handOff (t u : Nat) (m : Message) : System :=
  let given : System := { s.setRequest t { s.requests t with message := none, phase := .done .ok } with
    place := update s.place m.name (.held u) }
  (given.requestRemove u).setRequest u { s.requests u with message := some m, result := .ok }

def offer (t : Nat) (m : Message) : List Nat → System → System
  | [], s => s.messageEnqueue t m
  | u :: rest, s =>
    let r := s.requests u
    if messageMatches m r.type r.flags then
      if r.size < m.size ∧ r.flags.noerror = false then offer t m rest (s.requestComplete u .e2big)
      else s.handOff t u m
    else offer t m rest s

def sendTry (t : Nat) (permitted : Bool) : System :=
  let r := s.requests t
  let queue := s.queueOf t
  if queue.removed then s.setPhase t (.done .eidrm)
  else if permitted = false then s.setPhase t (.done .eacces)
  else match r.message with
    | none => s
    | some m =>
      if fits queue r.size then offer t m queue.receivers s
      else if r.flags.nowait then s.setPhase t (.done .eagain)
      else s.requestPrepare t

def messageDetach (t : Nat) (m : Message) : System :=
  let queue := s.queueOf t
  { s with
    queues := update s.queues (s.requests t).queue { queue with
      messages := queue.messages.erase m, count := queue.count - 1, bytes := queue.bytes - m.size }
    messages := s.messages - 1, bytes := s.bytes - m.size
    requests := update s.requests t { s.requests t with message := some m, phase := .copying }
    place := update s.place m.name (.held t) }

def receiveTry (t : Nat) (permitted : Bool) : System :=
  let r := s.requests t
  let queue := s.queueOf t
  if queue.removed then s.setPhase t (.done .eidrm)
  else if permitted = false then s.setPhase t (.done .eacces)
  else match messageFind r.type r.flags queue.messages none 0 with
    | some m =>
      if r.size < m.size ∧ r.flags.noerror = false then s.setPhase t (.done .e2big)
      else if r.flags.copy ∧ min r.size kernelMsgmax < m.size then s.setPhase t (.done .einval)
      else if r.flags.copy then s.setRequest t { r with phase := .copying, copied := some m }
      else wakeSenders r.queue queue.senders (s.messageDetach t m)
    | none => if r.flags.nowait then s.setPhase t (.done .enomsg) else s.requestPrepare t

def requestWait (t : Nat) (signalled : Bool) : System :=
  let r := s.requests t
  let queue := s.queueOf t
  let found := if t ∈ queue.senders ∨ t ∈ queue.receivers then .eintr else r.result
  let result := if r.sends ∧ queue.removed then .eidrm
    else if found = .again ∧ signalled then .eintr else found
  let phase := if result = .again then .trying
    else if result = .ok ∧ r.sends = false then .copying else .done result
  (s.requestRemove t).setRequest t { r with phase := phase, result := result }

def requestRelease (t : Nat) (gone : Gone) : System :=
  match (s.requests t).message with
  | none => s.setRequest t .blank
  | some m => { s.setRequest t .blank with place := update s.place m.name (.gone gone) }

def ipcSet (q limit : Nat) : System :=
  let limited := s.setQueue q { s.queues q with limit := limit }
  wakeSenders q (s.queues q).senders (completeAll .again (s.queues q).receivers limited)

def queueRemove (q : Nat) : System :=
  let queue := s.queues q
  let woken := completeAll .eidrm queue.receivers (completeAll .eidrm queue.senders s)
  { woken.setQueue q { woken.queues q with removed := true, messages := [], count := 0, bytes := 0 } with
    messages := s.messages - queue.count, bytes := s.bytes - queue.bytes
    place := fun n => if s.place n = .stored q then .gone .discarded else s.place n }

end System

inductive Step where
  | create
  | send (t q : Nat) (type : Int) (size : Nat) (flags : Flags)
  | sendTry (t : Nat) (permitted : Bool)
  | receive (t q : Nat) (type : Int) (size : Nat) (flags : Flags)
  | receiveTry (t : Nat) (permitted : Bool)
  | wait (t : Nat) (signalled : Bool)
  /-- The receiver copies its message out, which may fault, and finishes. -/
  | copy (t : Nat)
  | finish (t : Nat)
  | abort (t : Nat)
  | ipcSet (q limit : Nat)
  | ipcRmid (q : Nat)
deriving DecidableEq

def System.step (s : System) : Step → Option System
  | .create => some { s.setQueue s.nextQueue .new with nextQueue := s.nextQueue + 1 }
  | .send t q type size flags =>
    if (s.requests t).phase ≠ .idle ∨ s.nextQueue ≤ q ∨ type < 1 ∨ kernelMsgmax < size then none
    else
      let m : Message := ⟨s.nextName, type, size⟩
      some { s.setRequest t { Request.blank with
          phase := .trying, sends := true, queue := q, message := some m, flags := flags, size := size } with
        place := update s.place m.name (.outgoing t), nextName := s.nextName + 1 }
  | .sendTry t permitted =>
    if (s.requests t).phase ≠ .trying ∨ (s.requests t).sends = false then none else some (s.sendTry t permitted)
  | .receive t q type size flags =>
    if (s.requests t).phase ≠ .idle ∨ s.nextQueue ≤ q ∨ (flags.copy ∧ (flags.except ∨ flags.nowait = false)) then none
    else some (s.setRequest t { Request.blank with
      phase := .trying, queue := q, type := type, flags := flags, size := size })
  | .receiveTry t permitted =>
    if (s.requests t).phase ≠ .trying ∨ (s.requests t).sends then none else some (s.receiveTry t permitted)
  | .wait t signalled => if (s.requests t).phase ≠ .parked then none else some (s.requestWait t signalled)
  | .copy t => if (s.requests t).phase ≠ .copying then none else some (s.requestRelease t .received)
  | .finish t =>
    match (s.requests t).phase with
    | .done _ => some (s.requestRelease t .rejected)
    | _ => none
  | .abort t =>
    if (s.requests t).phase = .idle then none
    else some ((s.requestRemove t).requestRelease t (if (s.requests t).sends then .rejected else .died))
  | .ipcSet q limit => if s.nextQueue ≤ q ∨ (s.queues q).removed then none else some (s.ipcSet q limit)
  | .ipcRmid q => if s.nextQueue ≤ q ∨ (s.queues q).removed then none else some (s.queueRemove q)

inductive System.Reachable : System → Prop where
  | initial : Reachable System.initial
  | step {s after : System} {step : Step} : Reachable s → s.step step = some after → Reachable after

end BoarOS.Msg
